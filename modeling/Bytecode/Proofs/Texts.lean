import Bytecode.Text.Blank
import Mathlib.Data.List.Basic
/-!
# Texts

What readers of texts rely on: a text is cut at the first or the last separator,
split at every one and joined again; blanks are dropped from its front
(`exists_blanks`) and trimmed from both of its ends (`trim_eq`, `exists_trim`).
-/
namespace Bytecode.Text

/-! ## Cutting -/

theorem cutFirst_append {sep : CodeUnit} {before : Text} (h : sep ∉ before) (after : Text) :
    cutFirst sep (before ++ sep :: after) = some (before, after) := by
  induction before with
  | nil => simp [cutFirst]
  | cons u rest ih =>
    simp only [List.mem_cons, not_or] at h
    simp [cutFirst, Ne.symm h.1, ih h.2]

/-- Texts that agree after cutting at a separator none of their first halves
holds agree in both halves. -/
theorem append_sep_inj {sep : CodeUnit} {before before' after after' : Text}
    (h : sep ∉ before) (h' : sep ∉ before') (heq : before ++ sep :: after = before' ++ sep :: after') :
    before = before' ∧ after = after' := by
  have hcut := cutFirst_append h after
  rw [heq, cutFirst_append h' after'] at hcut
  simp only [Option.some.injEq, Prod.mk.injEq] at hcut
  exact ⟨hcut.1.symm, hcut.2.symm⟩

theorem cutFirst_eq_some {sep : CodeUnit} {t before after : Text} (h : cutFirst sep t = some (before, after)) :
    sep ∉ before ∧ t = before ++ sep :: after := by
  induction t generalizing before with
  | nil => simp [cutFirst] at h
  | cons u rest ih =>
    rw [cutFirst] at h
    split at h
    · rename_i hsep
      simp only [Option.some.injEq, Prod.mk.injEq] at h
      obtain ⟨rfl, rfl⟩ := h
      simp [hsep]
    · rename_i hsep
      simp only [Option.map_eq_some_iff, Prod.mk.injEq] at h
      obtain ⟨⟨first, second⟩, hcut, rfl, rfl⟩ := h
      obtain ⟨hfirst, rfl⟩ := ih hcut
      simp [hfirst, Ne.symm hsep]

theorem cutLast_eq_none_iff {sep : CodeUnit} {t : Text} : cutLast sep t = none ↔ sep ∉ t := by
  induction t with
  | nil => simp [cutLast]
  | cons u rest ih =>
    rw [cutLast]
    cases hcut : cutLast sep rest with
    | none =>
      rw [hcut] at ih
      simp only [true_iff] at ih
      by_cases hsep : u = sep
      · simp [hsep]
      · simp [hsep, Ne.symm hsep, ih]
    | some halves =>
      rw [hcut] at ih
      simp only [reduceCtorEq, false_iff, Decidable.not_not] at ih
      simp [ih]

theorem cutLast_eq_some {sep : CodeUnit} {t before after : Text} (h : cutLast sep t = some (before, after)) :
    sep ∉ after ∧ t = before ++ sep :: after := by
  induction t generalizing before with
  | nil => simp [cutLast] at h
  | cons u rest ih =>
    rw [cutLast] at h
    cases hcut : cutLast sep rest with
    | none =>
      rw [hcut] at h
      simp only [Option.ite_none_right_eq_some, Option.some.injEq, Prod.mk.injEq] at h
      obtain ⟨rfl, rfl, rfl⟩ := h
      exact ⟨cutLast_eq_none_iff.1 hcut, rfl⟩
    | some halves =>
      rw [hcut] at h
      simp only [Option.some.injEq, Prod.mk.injEq] at h
      obtain ⟨rfl, rfl⟩ := h
      obtain ⟨hafter, hrest⟩ := ih hcut
      exact ⟨hafter, by rw [hrest, List.cons_append]⟩

theorem cutLast_append {sep : CodeUnit} {after : Text} (h : sep ∉ after) (before : Text) :
    cutLast sep (before ++ sep :: after) = some (before, after) := by
  induction before with
  | nil => simp [cutLast, cutLast_eq_none_iff.2 h]
  | cons u rest ih => simp [cutLast, ih]

theorem dropLead?_eq_some_iff {lead t rest : Text} : dropLead? lead t = some rest ↔ t = lead ++ rest := by
  simp only [dropLead?, Option.ite_none_right_eq_some, Option.some.injEq, List.isPrefixOf_iff_prefix]
  constructor
  · rintro ⟨⟨tail, rfl⟩, rfl⟩
    simp
  · rintro rfl
    simp

theorem dropLead?_of_ne {first u : CodeUnit} (h : first ≠ u) (lead t : Text) :
    dropLead? (first :: lead) (u :: t) = none := by
  simp [dropLead?, List.isPrefixOf, h]

/-! ## Splitting and joining -/

theorem split_ne_nil (sep : CodeUnit) (t : Text) : split sep t ≠ [] := by
  cases t with
  | nil => exact List.cons_ne_nil _ _
  | cons u rest =>
    rw [split]
    split
    · exact List.cons_ne_nil _ _
    · cases split sep rest <;> exact List.cons_ne_nil _ _

theorem split_append (sep : CodeUnit) (t rest : Text) :
    split sep (t ++ sep :: rest) = split sep t ++ split sep rest := by
  induction t with
  | nil => simp [split]
  | cons u t ih =>
    rw [List.cons_append, split, split, ih]
    split
    · rfl
    · -- The first piece of what follows is there, and gets the unit.
      obtain ⟨piece, pieces, hsplit⟩ := List.exists_cons_of_ne_nil (split_ne_nil sep t)
      rw [hsplit]
      rfl

theorem join_cons (sep piece : Text) {pieces : List Text} (h : pieces ≠ []) :
    join sep (piece :: pieces) = piece ++ sep ++ join sep pieces := by
  obtain ⟨second, rest, rfl⟩ := List.exists_cons_of_ne_nil h
  simp [join, List.intercalate]

theorem join_append (sep : Text) (before : List Text) {pieces : List Text} (h : pieces ≠ []) :
    join sep (before ++ pieces) = before.flatMap (· ++ sep) ++ join sep pieces := by
  induction before with
  | nil => rfl
  | cons piece before ih =>
    have hne : before ++ pieces ≠ [] := by simp [h]
    rw [List.cons_append, join_cons sep piece hne, ih]
    simp

theorem join_split (sep : CodeUnit) (t : Text) : join [sep] (split sep t) = t := by
  induction t with
  | nil => rfl
  | cons u t ih =>
    rw [split]
    split
    · rename_i hsep
      rw [join_cons _ _ (split_ne_nil sep t), ih, hsep]
      rfl
    · cases hsplit : split sep t with
      | nil => exact absurd hsplit (split_ne_nil sep t)
      | cons piece pieces =>
        rw [hsplit] at ih
        cases pieces with
        | nil =>
          rw [← ih]
          rfl
        | cons second rest =>
          rw [join_cons _ _ (List.cons_ne_nil _ _)] at ih ⊢
          rw [← ih]
          rfl

/-! ## Blanks -/

/-- Nothing but blanks. -/
def Blanks (t : Text) : Prop := ∀ u ∈ t, u.isBlank = true

/-- Neither the first nor the last unit is a blank. -/
structure Bare (t : Text) : Prop where
  first : ∀ u ∈ t.head?, u.isBlank = false
  last : ∀ u ∈ t.getLast?, u.isBlank = false

theorem blanks_nil : Blanks [] := List.forall_mem_nil _

theorem Blanks.append {before after : Text} (hbefore : Blanks before) (hafter : Blanks after) :
    Blanks (before ++ after) := by
  intro u hu
  rcases List.mem_append.1 hu with hu | hu
  · exact hbefore u hu
  · exact hafter u hu

/-- The ends of a text around a separator are those of its halves. -/
theorem bare_append_cons_iff {before after : Text} (sep : CodeUnit) (hbefore : before ≠ []) (hafter : after ≠ []) :
    Bare (before ++ sep :: after) ↔
      (∀ u ∈ before.head?, u.isBlank = false) ∧ ∀ u ∈ after.getLast?, u.isBlank = false := by
  have hfirst : (before ++ sep :: after).head? = before.head? := List.head?_append_of_ne_nil _ hbefore
  have hlast : (before ++ sep :: after).getLast? = after.getLast? := by
    rw [List.append_cons, List.getLast?_append_of_ne_nil _ hafter]
  constructor
  · rintro ⟨hfirst', hlast'⟩
    exact ⟨hfirst ▸ hfirst', hlast ▸ hlast'⟩
  · rintro ⟨hfirst', hlast'⟩
    exact ⟨hfirst ▸ hfirst', hlast ▸ hlast'⟩

theorem dropBlanks_append {blanks : Text} (h : Blanks blanks) (t : Text) :
    dropBlanks (blanks ++ t) = dropBlanks t := List.dropWhile_append_of_pos h

theorem dropBlanks_cons {u : CodeUnit} (h : u.isBlank = false) (t : Text) : dropBlanks (u :: t) = u :: t :=
  List.dropWhile_cons_of_neg (by simp [h])

theorem dropBlanks_eq_self {t : Text} (h : ∀ u ∈ t.head?, u.isBlank = false) : dropBlanks t = t := by
  cases t with
  | nil => rfl
  | cons u rest => exact dropBlanks_cons (h u rfl) rest

theorem exists_blanks (t : Text) : ∃ blanks, Blanks blanks ∧ t = blanks ++ dropBlanks t := by
  refine ⟨t.takeWhile CodeUnit.isBlank, fun u hu => ?_, List.takeWhile_append_dropWhile.symm⟩
  exact List.all_eq_true.1 List.all_takeWhile u hu

theorem head?_dropBlanks (t : Text) : ∀ u ∈ (dropBlanks t).head?, u.isBlank = false := by
  intro u hu
  have h := List.head?_dropWhile_not CodeUnit.isBlank t
  rw [show (t.dropWhile CodeUnit.isBlank).head? = some u from hu] at h
  exact h

@[simp] theorem dropBlanks_dropBlanks (t : Text) : dropBlanks (dropBlanks t) = dropBlanks t :=
  dropBlanks_eq_self (head?_dropBlanks t)

/-! ## Trimming -/

/-- Behind the blanks in front, trimming takes off nothing but blanks. -/
theorem exists_dropBlanks_eq (t : Text) : ∃ after, Blanks after ∧ dropBlanks t = trim t ++ after := by
  obtain ⟨blanks, hblanks, heq⟩ := exists_blanks (dropBlanks t).reverse
  refine ⟨blanks.reverse, fun u hu => hblanks u (List.mem_reverse.1 hu), ?_⟩
  rw [trim, ← List.reverse_append, ← heq, List.reverse_reverse]

/-- A text is what trimming keeps, between blanks. -/
theorem exists_trim (t : Text) : ∃ before after, Blanks before ∧ Blanks after ∧ t = before ++ trim t ++ after := by
  obtain ⟨before, hbefore, ht⟩ := exists_blanks t
  obtain ⟨after, hafter, hfront⟩ := exists_dropBlanks_eq t
  refine ⟨before, after, hbefore, hafter, ?_⟩
  rw [List.append_assoc, ← hfront]
  exact ht

theorem bare_trim (t : Text) : Bare (trim t) where
  first u hu := by
    obtain ⟨after, -, hfront⟩ := exists_dropBlanks_eq t
    -- The first unit of what is kept is the first one behind the blanks in front.
    refine head?_dropBlanks t u ?_
    rw [hfront, List.head?_append, hu]
    rfl
  last u hu := by
    rw [trim, List.getLast?_reverse] at hu
    exact head?_dropBlanks _ u hu

theorem mem_of_mem_trim {t : Text} {u : CodeUnit} (h : u ∈ trim t) : u ∈ t := by
  obtain ⟨before, after, -, -, ht⟩ := exists_trim t
  rw [ht]
  simp [h]

theorem trim_eq {before t after : Text} (hbefore : Blanks before) (h : Bare t) (hafter : Blanks after) :
    trim (before ++ t ++ after) = t := by
  by_cases hnil : t = []
  · subst hnil
    have hblanks : dropBlanks (before ++ [] ++ after) = [] := by
      rw [List.append_nil, ← List.append_nil (before ++ after), dropBlanks_append (hbefore.append hafter)]
      rfl
    rw [trim, hblanks]
    rfl
  · have hfirst : ∀ u ∈ (t ++ after).head?, u.isBlank = false := by
      obtain ⟨u, rest, rfl⟩ := List.exists_cons_of_ne_nil hnil
      exact h.first
    have hreverse : Blanks after.reverse := fun u hu => hafter u (List.mem_reverse.1 hu)
    have hlast : ∀ u ∈ t.reverse.head?, u.isBlank = false := by
      rw [List.head?_reverse]
      exact h.last
    rw [trim, List.append_assoc, dropBlanks_append hbefore, dropBlanks_eq_self hfirst, List.reverse_append,
      dropBlanks_append hreverse, dropBlanks_eq_self hlast, List.reverse_reverse]

theorem trim_eq_self {t : Text} (h : Bare t) : trim t = t := by
  simpa using trim_eq blanks_nil h blanks_nil

end Bytecode.Text
