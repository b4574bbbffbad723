import Bytecode.Arguments
import Bytecode.Proofs.Grammar
import Bytecode.Proofs.Lookup
import Mathlib.Data.List.Induction
import Mathlib.Data.List.TakeDrop
/-!
# Reading argument texts

A reader `Reads` a rule of the grammar if it takes from the front of a text,
behind blanks, exactly what the rule derives, and answers with the value that is
spelled. `readScalar` and the reader of array elements are proved to do so, then
lists of whatever is read (`readUntil_sound`, `readUntil_complete`), arrays and
values. `reads_exactly_grammar` says that whole texts are read by the grammar and
by nothing else.
-/
namespace Bytecode.Arguments

open Text

/-! ## Numbers -/

theorem decimal_concat (t : Text) (u : CodeUnit) : decimal (t ++ [u]) = decimal t * 10 + u.digit := by
  rw [decimal, List.reverse_append, List.reverse_singleton, List.singleton_append, List.map_cons, Nat.ofDigits_cons,
    decimal]
  omega

theorem digitsValue_eq (t : Text) : digitsValue t = decimal t := by
  induction t using List.reverseRecOn with
  | nil => rfl
  | append_singleton t u ih =>
    rw [decimal_concat, ← ih, digitsValue, List.foldl_append]
    rfl

/-- The digits in front of what is no digit are found. -/
theorem span_digits {t rest : Text} (h : ∀ u ∈ t, u.isDigit = true) (hrest : NoDigit rest) :
    (t ++ rest).takeWhile CodeUnit.isDigit = t ∧ (t ++ rest).dropWhile CodeUnit.isDigit = rest := by
  rw [List.takeWhile_append_of_pos h, List.dropWhile_append_of_pos h]
  cases rest with
  | nil => simp
  | cons u tail => simp [hrest u rfl]

theorem spanNumber_natural {t rest : Text} (h : Digits t) (hrest : NoDigit rest) :
    spanNumber (t ++ rest) = some (t, rest) := by
  obtain ⟨htake, hdrop⟩ := span_digits h.digits hrest
  have hne := h.ne_nil
  obtain ⟨u, tail, rfl⟩ := List.exists_cons_of_ne_nil hne
  have hminus : u ≠ CodeUnit.ofChar '-' := ne_of_isDigit (h.digits u List.mem_cons_self) (by decide)
  rw [List.cons_append] at htake hdrop ⊢
  simp [spanNumber, hminus, htake, hdrop]

theorem spanNumber_negative {t rest : Text} (h : Digits t) (hrest : NoDigit rest) :
    spanNumber (CodeUnit.ofChar '-' :: t ++ rest) = some (CodeUnit.ofChar '-' :: t, rest) := by
  obtain ⟨htake, hdrop⟩ := span_digits h.digits hrest
  simp [spanNumber, htake, hdrop, h.ne_nil]

theorem spanNumber_eq_some {t number rest : Text} (h : spanNumber t = some (number, rest)) :
    t = number ++ rest ∧ ∃ digits, Digits digits ∧ (number = digits ∨ number = CodeUnit.ofChar '-' :: digits) := by
  have htaken (t : Text) : ∀ u ∈ t.takeWhile CodeUnit.isDigit, u.isDigit = true :=
    List.all_eq_true.1 List.all_takeWhile
  unfold spanNumber at h
  cases t with
  | nil => simp at h
  | cons u tail =>
    simp only [List.span_eq_takeWhile_dropWhile] at h
    by_cases hminus : u = CodeUnit.ofChar '-'
    · simp only [if_pos hminus, Option.ite_none_left_eq_some, List.isEmpty_iff] at h
      obtain ⟨hne, hhalves⟩ := h
      cases hhalves
      exact ⟨by simp [hminus], _, ⟨hne, htaken tail⟩, .inr (by rw [hminus]; rfl)⟩
    · simp only [if_neg hminus, Option.ite_none_left_eq_some, List.isEmpty_iff] at h
      obtain ⟨hne, hhalves⟩ := h
      cases hhalves
      exact ⟨List.takeWhile_append_dropWhile.symm, _, ⟨hne, htaken _⟩, .inl rfl⟩

/-- Nothing but a digit or a minus sign begins a number. -/
theorem spanNumber_eq_none {u : CodeUnit} (hminus : u ≠ CodeUnit.ofChar '-') (hu : u.isDigit = false) (rest : Text) :
    spanNumber (u :: rest) = none := by
  simp [spanNumber, hminus, hu]

theorem integerValue_natural {t : Text} (h : Digits t) : integerValue t = decimal t := by
  obtain ⟨u, tail, rfl⟩ := List.exists_cons_of_ne_nil h.ne_nil
  have hminus : u ≠ CodeUnit.ofChar '-' := ne_of_isDigit (h.digits u List.mem_cons_self) (by decide)
  rw [integerValue, if_neg hminus, digitsValue_eq]

theorem integerValue_negative (t : Text) : integerValue (CodeUnit.ofChar '-' :: t) = -(decimal t : Int) := by
  rw [integerValue, if_pos rfl, digitsValue_eq]

/-! ## Tokens -/

/-- Accepting a token in one equation. -/
theorem accept_apply (token : CodeUnit) (s : Text) :
    accept token s = match dropBlanks s with
      | [] => .ok false []
      | u :: rest => if u = token then .ok true rest else .ok false (u :: rest) := by
  change (match dropBlanks s with
    | [] => pure false
    | u :: rest => if u = token then (do set rest; return true) else return false : Reader Bool) (dropBlanks s) = _
  cases dropBlanks s with
  | nil => rfl
  | cons u rest =>
    by_cases h : u = token
    · simp only [if_pos h]
      rfl
    · simp only [if_neg h]
      rfl

theorem accept_of_eq {token : CodeUnit} {s rest : Text} (h : dropBlanks s = token :: rest) :
    accept token s = .ok true rest := by
  simp [accept_apply, h]

theorem accept_of_ne {token u : CodeUnit} {s rest : Text} (h : dropBlanks s = u :: rest) (hne : u ≠ token) :
    accept token s = .ok false (u :: rest) := by
  simp [accept_apply, h, hne]

theorem accept_eq_true {token : CodeUnit} {s rest : Text} (h : accept token s = .ok true rest) :
    dropBlanks s = token :: rest := by
  rw [accept_apply] at h
  split at h
  · cases h
  · rename_i u tail hs
    split at h
    · rename_i htoken
      cases h
      exact htoken ▸ hs
    · cases h

theorem accept_eq_false {token : CodeUnit} {s rest : Text} (h : accept token s = .ok false rest) :
    dropBlanks s = rest := by
  rw [accept_apply] at h
  split at h
  · rename_i hs
    cases h
    exact hs
  · rename_i u tail hs
    split at h
    · cases h
    · cases h
      exact hs

theorem expect_eq_ok {token : CodeUnit} {s rest : Text} :
    expect token s = .ok () rest ↔ dropBlanks s = token :: rest := by
  constructor
  · intro h
    obtain ⟨accepted, s', haccept, h⟩ := bind_eq_ok.1 h
    cases accepted with
    | true =>
      cases h
      exact accept_eq_true haccept
    | false => cases h
  · intro h
    exact bind_of_ok (accept_of_eq h)

/-! ## Scalars -/

theorem readChar_eq_ok {literal s rest : Text} {v : Value} :
    readChar literal s = .ok v rest ↔
      ∃ u : CodeUnit, literal = u :: CodeUnit.ofChar '\'' :: rest ∧ v = .char u.toNat := by
  unfold readChar
  split
  · rename_i u quote after
    split
    · rename_i hquote
      constructor
      · intro h
        cases h
        exact ⟨u, by rw [hquote], rfl⟩
      · rintro ⟨w, heq, rfl⟩
        cases heq
        rfl
    · rename_i hquote
      constructor
      · intro h
        cases h
      · rintro ⟨w, heq, -⟩
        cases heq
        exact absurd rfl hquote
  · rename_i hshort
    constructor
    · intro h
      cases h
    · rintro ⟨w, rfl, -⟩
      exact absurd rfl (hshort w _ rest)

/-- Reading a scalar in one equation. -/
theorem readScalar_apply (s : Text) :
    readScalar s = match dropLead? "'" (dropBlanks s) with
      | some literal => readChar literal (dropBlanks s)
      | none =>
        match spanNumber (dropBlanks s) with
        | some (number, rest) =>
          if -2147483648 ≤ integerValue number ∧ integerValue number ≤ 2147483647 then
            .ok (.int (integerValue number)) rest
          else .error (.outOfRange number) rest
        | none =>
          match dropLead? "true" (dropBlanks s) with
          | some rest => .ok (.boolean true) rest
          | none =>
            match dropLead? "false" (dropBlanks s) with
            | some rest => .ok (.boolean false) rest
            | none => .error .noValue (dropBlanks s) := by
  unfold readScalar
  rw [bind_of_ok (show skipBlanks s = .ok () (dropBlanks s) from rfl),
    bind_of_ok (show (get : Reader Text) (dropBlanks s) = .ok (dropBlanks s) (dropBlanks s) from rfl)]
  cases dropLead? "'" (dropBlanks s) with
  | some literal => rfl
  | none =>
    cases spanNumber (dropBlanks s) with
    | some halves =>
      obtain ⟨number, rest⟩ := halves
      by_cases hrange : -2147483648 ≤ integerValue number ∧ integerValue number ≤ 2147483647
      · simp only [bind_apply, hrange.1, hrange.2, decide_true, Bool.and_self, if_true]
        rfl
      · have hrange' : (decide (-2147483648 ≤ integerValue number) &&
            decide (integerValue number ≤ 2147483647)) = false := by simpa using hrange
        simp only [if_neg hrange, bind_apply, hrange']
        rfl
    | none =>
      cases dropLead? "true" (dropBlanks s) with
      | some rest => rfl
      | none => cases dropLead? "false" (dropBlanks s) <;> rfl

/-- A scalar that is read is spelled by what was taken behind the blanks. -/
theorem readScalar_sound {s rest : Text} {v : Value} (h : readScalar s = .ok v rest) :
    ∃ t, dropBlanks s = t ++ rest ∧ SpellsScalar t v := by
  rw [readScalar_apply] at h
  split at h
  · rename_i literal hliteral
    obtain ⟨u, rfl, rfl⟩ := readChar_eq_ok.1 h
    have hquote : ofString "'" = [CodeUnit.ofChar '\''] := by decide
    have hs := dropLead?_eq_some_iff.1 hliteral
    rw [hquote] at hs
    exact ⟨[_, u, _], hs, .char u⟩
  · split at h
    · rename_i number after hnumber
      obtain ⟨hs, digits, hdigits, hsign⟩ := spanNumber_eq_some hnumber
      split at h
      · rename_i hrange
        cases h
        refine ⟨number, hs, ?_⟩
        rcases hsign with rfl | rfl
        · rw [integerValue_natural hdigits] at hrange ⊢
          exact .natural hdigits hrange.2
        · rw [integerValue_negative] at hrange ⊢
          exact .negative hdigits hrange.1
      · cases h
    · split at h
      · rename_i after hword
        cases h
        exact ⟨_, dropLead?_eq_some_iff.1 hword, .true⟩
      · split at h
        · rename_i after hword
          cases h
          exact ⟨_, dropLead?_eq_some_iff.1 hword, .false⟩
        · cases h

/-- A spelled scalar is read wherever no digit follows. -/
theorem readScalar_complete {t s rest : Text} {v : Value} (h : SpellsScalar t v) (hs : dropBlanks s = t ++ rest)
    (hrest : NoDigit rest) : readScalar s = .ok v rest := by
  have hquote : ofString "'" = [CodeUnit.ofChar '\''] := by decide
  rw [readScalar_apply, hs, hquote]
  cases h with
  | char u =>
    have hlead : dropLead? [CodeUnit.ofChar '\''] ([CodeUnit.ofChar '\'', u, CodeUnit.ofChar '\''] ++ rest) =
        some (u :: CodeUnit.ofChar '\'' :: rest) := dropLead?_eq_some_iff.2 rfl
    rw [hlead]
    exact readChar_eq_ok.2 ⟨u, rfl, rfl⟩
  | true =>
    have hword : ofString "true" = CodeUnit.ofChar 't' :: ofString "rue" := by decide
    have hlead : dropLead? (ofString "true") (ofString "true" ++ rest) = some rest := dropLead?_eq_some_iff.2 rfl
    rw [hlead, hword, List.cons_append, dropLead?_of_ne (by decide), spanNumber_eq_none (by decide) (by decide)]
  | false =>
    have hword : ofString "false" = CodeUnit.ofChar 'f' :: ofString "alse" := by decide
    have htrue : ofString "true" = CodeUnit.ofChar 't' :: ofString "rue" := by decide
    have hlead : dropLead? (ofString "false") (ofString "false" ++ rest) = some rest := dropLead?_eq_some_iff.2 rfl
    rw [hlead, hword, List.cons_append, dropLead?_of_ne (by decide), spanNumber_eq_none (by decide) (by decide), htrue,
      dropLead?_of_ne (by decide)]
  | natural hdigits hrange =>
    have hlead : dropLead? [CodeUnit.ofChar '\''] (t ++ rest) = none := by
      obtain ⟨u, tail, rfl⟩ := List.exists_cons_of_ne_nil hdigits.ne_nil
      exact dropLead?_of_ne (ne_of_isDigit (hdigits.digits u List.mem_cons_self) (by decide)).symm _ _
    rw [hlead, spanNumber_natural hdigits hrest]
    simp only [integerValue_natural hdigits]
    rw [if_pos ⟨by omega, hrange⟩]
  | negative hdigits hrange =>
    rw [List.cons_append, dropLead?_of_ne (by decide), ← List.cons_append, spanNumber_negative hdigits hrest]
    simp only [integerValue_negative]
    rw [if_pos ⟨hrange, by omega⟩]

/-! ## Lists -/

/-- The reader takes from the front, behind blanks, exactly what the rule derives. -/
structure Reads (rule : Text → Value → Prop) (item : Reader Value) : Prop where
  sound {s rest : Text} {v : Value} : item s = .ok v rest → ∃ t, dropBlanks s = t ++ rest ∧ rule t v
  complete {t s rest : Text} {v : Value} : rule t v → dropBlanks s = t ++ rest → NoDigit rest → item s = .ok v rest
  lead {t : Text} {v : Value} : rule t v → ∃ u tail, t = u :: tail ∧ Opens u

theorem reads_readScalar : Reads SpellsScalar readScalar where
  sound := readScalar_sound
  complete := readScalar_complete
  lead h := by
    obtain ⟨u, tail, ht, hu, -⟩ := h.lead
    exact ⟨u, tail, ht, hu⟩

theorem reads_readElement (type : Primitive) : Reads (SpellsElement type) (readElement type) where
  sound h := by
    obtain ⟨v, s', hscalar, h⟩ := bind_eq_ok.1 h
    obtain ⟨t, hs, ht⟩ := readScalar_sound hscalar
    split at h
    · rename_i hkind
      cases h
      exact ⟨t, hs, ht, hkind⟩
    · cases h
  complete h hs hrest := by
    rw [readElement, bind_of_ok (readScalar_complete h.1 hs hrest), if_pos h.2]
    rfl
  lead h := reads_readScalar.lead h.1

section Lists

variable {rule : Text → Value → Prop} {item : Reader Value}

variable (hitem : Reads rule item)

include hitem

theorem Reads.dropBlanks_eq {blanks t : Text} {v : Value} (hblanks : Blanks blanks) (ht : rule t v) (rest : Text) :
    dropBlanks (blanks ++ t ++ rest) = t ++ rest := by
  obtain ⟨u, tail, rfl, hu⟩ := hitem.lead ht
  rw [List.append_assoc, dropBlanks_append hblanks]
  exact dropBlanks_cons hu.isBlank _

theorem readItems_sound {bound : Nat} {s rest : Text} {values : List Value}
    (h : readItems item bound s = .ok values rest) :
    ∃ t blanks, SpellsItems rule t values ∧ Blanks blanks ∧ s = t ++ blanks ++ rest := by
  induction bound generalizing s values with
  | zero => cases h
  | succ bound ih =>
    obtain ⟨first, s₁, hfirst, h⟩ := bind_eq_ok.1 h
    obtain ⟨more, s₂, haccept, h⟩ := bind_eq_ok.1 h
    obtain ⟨t, hs, ht⟩ := hitem.sound hfirst
    obtain ⟨before, hbefore, hs'⟩ := exists_blanks s
    obtain ⟨between, hbetween, hs₁⟩ := exists_blanks s₁
    cases more with
    | true =>
      obtain ⟨later, s₃, hlater, h⟩ := bind_eq_ok.1 h
      cases h
      obtain ⟨t', blanks, hitems, hblanks, rfl⟩ := ih hlater
      refine ⟨_, blanks, .more hbefore ht hbetween hitems, hblanks, ?_⟩
      rw [hs', hs, hs₁, accept_eq_true haccept]
      simp
    | false =>
      cases h
      refine ⟨_, between, .one hbefore ht, hbetween, ?_⟩
      rw [hs', hs, hs₁, accept_eq_false haccept]
      simp

/-- Spelled items are read up to a closing unit, which stays. -/
theorem readItems_complete {t blanks : Text} {values : List Value} (h : SpellsItems rule t values)
    (hblanks : Blanks blanks) {close : CodeUnit} (hclose : Closes close) {bound : Nat} (hbound : values.length ≤ bound)
    {s rest : Text} (hs : dropBlanks s = dropBlanks (t ++ blanks ++ close :: rest)) :
    readItems item bound s = .ok values (close :: rest) := by
  induction h generalizing bound s with
  | @one before t v hbefore ht =>
    obtain ⟨bound, rfl⟩ := Nat.exists_eq_add_one_of_ne_zero (Nat.one_le_iff_ne_zero.1 hbound)
    rw [List.append_assoc, hitem.dropBlanks_eq hbefore ht] at hs
    have hfirst := hitem.complete ht hs (noDigit_blanks hblanks hclose.isDigit rest)
    have hend : dropBlanks (blanks ++ close :: rest) = close :: rest := by
      rw [dropBlanks_append hblanks, dropBlanks_cons hclose.isBlank]
    rw [readItems, bind_of_ok hfirst, bind_of_ok (accept_of_ne hend hclose.ne_comma)]
    rfl
  | @more before t between later v values hbefore ht hbetween hlater ih =>
    obtain ⟨bound, rfl⟩ := Nat.exists_eq_add_one_of_ne_zero (Nat.ne_of_gt (Nat.lt_of_lt_of_le (Nat.succ_pos _) hbound))
    have hsplit : before ++ t ++ between ++ CodeUnit.ofChar ',' :: later ++ blanks ++ close :: rest =
        before ++ t ++ (between ++ CodeUnit.ofChar ',' :: (later ++ blanks ++ close :: rest)) := by simp
    rw [hsplit, hitem.dropBlanks_eq hbefore ht] at hs
    have hfirst := hitem.complete ht hs (noDigit_blanks hbetween (by decide) _)
    have hcomma : dropBlanks (between ++ CodeUnit.ofChar ',' :: (later ++ blanks ++ close :: rest)) =
        CodeUnit.ofChar ',' :: (later ++ blanks ++ close :: rest) := by
      rw [dropBlanks_append hbetween, dropBlanks_cons (by decide)]
    rw [readItems, bind_of_ok hfirst, bind_of_ok (accept_of_eq hcomma), if_pos rfl,
      bind_of_ok (ih (Nat.le_of_succ_le_succ hbound) rfl)]
    rfl

theorem readUntil_sound {close : CodeUnit} {s rest : Text} {values : List Value}
    (h : readUntil close item s = .ok values rest) : ∃ t, SpellsUntil rule close t values ∧ s = t ++ rest := by
  obtain ⟨before, hbefore, hs⟩ := exists_blanks s
  obtain ⟨closed, s₁, haccept, h⟩ := bind_eq_ok.1 h
  cases closed with
  | true =>
    cases h
    refine ⟨_, .empty hbefore, ?_⟩
    rw [hs, accept_eq_true haccept]
    simp
  | false =>
    obtain ⟨s₁', s₁'', hget, h⟩ := bind_eq_ok.1 h
    cases hget
    obtain ⟨items, s₂, hread, h⟩ := bind_eq_ok.1 h
    obtain ⟨done, s₃, hexpect, h⟩ := bind_eq_ok.1 h
    cases h
    obtain ⟨t, blanks, hitems, hblanks, hs₁⟩ := readItems_sound hitem hread
    obtain ⟨after, hafter, hs₂⟩ := exists_blanks s₂
    refine ⟨_, .items (hitems.append_blanks hbefore) (hblanks.append hafter), ?_⟩
    rw [hs, accept_eq_false haccept, hs₁, hs₂, expect_eq_ok.1 hexpect]
    simp

theorem readUntil_complete {close : CodeUnit} (hclose : Closes close) {t : Text} {values : List Value}
    (h : SpellsUntil rule close t values) (rest : Text) : readUntil close item (t ++ rest) = .ok values rest := by
  cases h with
  | @empty blanks hblanks =>
    have hend : dropBlanks (blanks ++ [close] ++ rest) = close :: rest := by
      rw [List.append_assoc, dropBlanks_append hblanks]
      exact dropBlanks_cons hclose.isBlank rest
    rw [readUntil, bind_of_ok (accept_of_eq hend)]
    rfl
  | @items t blanks _ hitems hblanks =>
    obtain ⟨before, u, tail, hbefore, rfl, hu, hlength⟩ := hitems.lead hitem.lead
    have hsplit : before ++ u :: tail ++ blanks ++ [close] ++ rest =
        before ++ u :: (tail ++ blanks ++ close :: rest) := by simp
    have hopen : dropBlanks (before ++ u :: tail ++ blanks ++ [close] ++ rest) =
        u :: (tail ++ blanks ++ close :: rest) := by
      rw [hsplit, dropBlanks_append hbefore, dropBlanks_cons hu.isBlank]
    have hne : u ≠ close := fun heq => hu.not_closes (heq ▸ hclose)
    have hread : readItems item ((u :: (tail ++ blanks ++ close :: rest)).length + 1)
        (u :: (tail ++ blanks ++ close :: rest)) = .ok values (close :: rest) := by
      refine readItems_complete hitem hitems hblanks hclose (Nat.le_trans hlength (by simp; omega)) ?_
      rw [← hopen, dropBlanks_dropBlanks, List.append_assoc _ [close]]
      rfl
    rw [readUntil, bind_of_ok (accept_of_ne hopen hne), if_neg Bool.false_ne_true]
    rw [bind_of_ok (show (get : Reader Text) _ = .ok _ _ from rfl), bind_of_ok hread,
      bind_of_ok (expect_eq_ok.2 (dropBlanks_cons hclose.isBlank rest))]
    rfl

end Lists

/-! ## Values and whole texts -/

theorem elementType?_eq_some {letter : CodeUnit} {type : Primitive} :
    elementType? letter = some type ↔ (letter, type) ∈ elementLetters := by
  constructor
  · intro h
    have hletter : type.letter = letter := by simpa using List.find?_some h
    have htype := List.mem_of_find?_eq_some h
    simp only [List.mem_cons, List.not_mem_nil, or_false] at htype
    rcases htype with rfl | rfl | rfl <;> simp [← hletter, elementLetters, Primitive.letter]
  · intro h
    simp only [elementLetters, List.mem_cons, Prod.mk.injEq, List.not_mem_nil, or_false] at h
    rcases h with ⟨rfl, rfl⟩ | ⟨rfl, rfl⟩ | ⟨rfl, rfl⟩ <;> decide

/-- An array behind its opening bracket. -/
theorem readArray_sound {s rest : Text} {v : Value} (h : readArray s = .ok v rest) :
    ∃ t, s = t ++ rest ∧ SpellsValue (CodeUnit.ofChar '[' :: t) v := by
  obtain ⟨s', s'', hget, h⟩ := bind_eq_ok.1 h
  cases hget
  cases s with
  | nil => cases h
  | cons letter tail =>
    simp only at h
    cases htype : elementType? letter with
    | none =>
      rw [htype] at h
      cases h
    | some type =>
      rw [htype] at h
      obtain ⟨_, s₁, hset, h⟩ := bind_eq_ok.1 h
      cases hset
      obtain ⟨_, s₂, hcolon, h⟩ := bind_eq_ok.1 h
      obtain ⟨items, s₃, hitems, h⟩ := bind_eq_ok.1 h
      cases h
      obtain ⟨blanks, hblanks, hs⟩ := exists_blanks tail
      obtain ⟨t, ht, hs₂⟩ := readUntil_sound (reads_readElement type) hitems
      refine ⟨letter :: (blanks ++ CodeUnit.ofChar ':' :: t), ?_, .array (elementType?_eq_some.1 htype) hblanks ht⟩
      rw [hs, expect_eq_ok.1 hcolon, hs₂]
      simp

theorem readArray_complete {letter : CodeUnit} {type : Primitive} {blanks t : Text} {items : List Value}
    (hletter : (letter, type) ∈ elementLetters) (hblanks : Blanks blanks)
    (h : SpellsUntil (SpellsElement type) (CodeUnit.ofChar ']') t items) (rest : Text) :
    readArray (letter :: (blanks ++ CodeUnit.ofChar ':' :: t) ++ rest) = .ok (.array (.primitive type) items) rest := by
  have hcolon : dropBlanks (blanks ++ CodeUnit.ofChar ':' :: t ++ rest) = CodeUnit.ofChar ':' :: (t ++ rest) := by
    rw [List.append_assoc, dropBlanks_append hblanks]
    exact dropBlanks_cons (by decide) _
  rw [readArray, bind_of_ok (show (get : Reader Text) _ = .ok _ _ from rfl)]
  simp only [List.cons_append, elementType?_eq_some.2 hletter]
  rw [bind_of_ok (show (set (blanks ++ CodeUnit.ofChar ':' :: t ++ rest) : Reader PUnit) _ = .ok _ _ from rfl),
    bind_of_ok (expect_eq_ok.2 hcolon), bind_of_ok (readUntil_complete (reads_readElement type) (.inr rfl) h rest)]
  rfl

theorem reads_readValue : Reads SpellsValue readValue where
  sound {s rest v} h := by
    obtain ⟨isArray, s₁, haccept, h⟩ := bind_eq_ok.1 h
    cases isArray with
    | true =>
      obtain ⟨t, rfl, ht⟩ := readArray_sound h
      exact ⟨_, accept_eq_true haccept, ht⟩
    | false =>
      obtain ⟨t, hs, ht⟩ := readScalar_sound h
      rw [← accept_eq_false haccept, dropBlanks_dropBlanks] at hs
      exact ⟨t, hs, .scalar ht⟩
  complete {t s rest v} h hs hrest := by
    cases h with
    | scalar h =>
      obtain ⟨u, tail, rfl, hu, hne⟩ := h.lead
      rw [readValue, bind_of_ok (accept_of_ne hs hne), if_neg Bool.false_ne_true]
      exact readScalar_complete h (dropBlanks_cons hu.isBlank _) hrest
    | array hletter hblanks h =>
      rw [readValue, bind_of_ok (accept_of_eq hs), if_pos rfl]
      exact readArray_complete hletter hblanks h rest
  lead h := by
    cases h with
    | scalar h => exact reads_readScalar.lead h
    | array _ _ _ => exact ⟨_, _, rfl, by decide, by decide⟩

theorem readAll_sound {s rest : Text} {values : List Value} (h : readAll s = .ok values rest) : Spells s values := by
  obtain ⟨_, s₁, hopen, h⟩ := bind_eq_ok.1 h
  obtain ⟨items, s₂, hitems, h⟩ := bind_eq_ok.1 h
  obtain ⟨_, s₃, hskip, h⟩ := bind_eq_ok.1 h
  cases hskip
  obtain ⟨_, _, hget, h⟩ := bind_eq_ok.1 h
  cases hget
  split at h
  · rename_i hempty
    cases h
    obtain ⟨before, hbefore, hs⟩ := exists_blanks s
    obtain ⟨after, hafter, hs₂⟩ := exists_blanks s₂
    obtain ⟨t, ht, hs₁⟩ := readUntil_sound reads_readValue hitems
    rw [List.isEmpty_iff.1 hempty, List.append_nil] at hs₂
    rw [hs, expect_eq_ok.1 hopen, hs₁, hs₂, ← List.cons_append, ← List.append_assoc]
    exact .intro hbefore ht hafter
  · cases h

theorem readAll_complete {t : Text} {values : List Value} (h : SpellsUntil SpellsValue (CodeUnit.ofChar ')') t values) :
    readAll (CodeUnit.ofChar '(' :: t) = .ok values [] := by
  have hopen : expect (CodeUnit.ofChar '(') (CodeUnit.ofChar '(' :: t) = .ok () t :=
    expect_eq_ok.2 (dropBlanks_cons (by decide) t)
  have hitems := readUntil_complete reads_readValue (.inl rfl) h []
  rw [List.append_nil] at hitems
  rw [readAll, bind_of_ok hopen, bind_of_ok hitems]
  rfl

/-! ## Whole texts -/

theorem spells_of_parse {t : Text} {values : List Value} (h : parse t = .ok values) : Spells t values := by
  unfold parse at h
  simp only at h
  split at h
  · rename_i hread
    cases h
    obtain ⟨before, after, hbefore, hafter, ht⟩ := exists_trim t
    rw [ht]
    exact (readAll_sound hread).surround hbefore hafter
  · cases h

theorem label_of_parse {t : Text} {fault : Fault} (h : parse t = .error fault) : fault.label = "InputParseError" := by
  unfold parse at h
  simp only at h
  split at h
  · cases h
  · cases h
    rfl

theorem parse_of_spells {t : Text} {values : List Value} (h : Spells t values) : parse t = .ok values := by
  cases h with
  | @intro before t after values hbefore ht hafter =>
    have hbare : Bare (CodeUnit.ofChar '(' :: t) := by
      constructor
      · intro u hu
        cases hu
        decide
      · intro u hu
        rw [List.getLast?_cons, ht.getLast?_eq] at hu
        cases hu
        decide
    unfold parse
    rw [trim_eq hbefore hbare hafter]
    simp only [readAll_complete ht]

/-- A text is accepted with the values that the grammar says it lists, and every text that lists none is refused as
an input that cannot be read. -/
theorem reads_exactly_grammar (t : Text) :
    (∀ values, parse t = .ok values ↔ Spells t values) ∧
      ((∀ values, ¬Spells t values) ↔ ∃ fault, parse t = .error fault ∧ fault.label = "InputParseError") := by
  refine ⟨fun values => ⟨spells_of_parse, parse_of_spells⟩, ?_⟩
  constructor
  · intro hnone
    cases hparse : parse t with
    | ok values => exact absurd (spells_of_parse hparse) (hnone values)
    | error fault => exact ⟨fault, rfl, label_of_parse hparse⟩
  · rintro ⟨fault, hfault, -⟩ values hspells
    rw [parse_of_spells hspells] at hfault
    cases hfault

end Bytecode.Arguments
