import Bytecode.Proofs.Texts
import Bytecode.Value
import Mathlib.Data.Nat.Digits.Defs
/-!
# The grammar of argument texts

`Spells t values` says that `t` lists the values by the rules of the grammar:
`SpellsScalar` for a char, a boolean or a number, `SpellsItems` for items with
commas between them, `SpellsUntil` for a list up to its closing unit and
`SpellsValue` for a scalar or an array. Every item begins with a unit that is no
blank and closes no list (`SpellsScalar.lead`, `SpellsItems.lead`).
-/
namespace Bytecode.Arguments

open Text

/-! ## Rules -/

/-- One or more decimal digits. -/
structure Digits (t : Text) : Prop where
  ne_nil : t ≠ []
  digits : ∀ u ∈ t, u.isDigit = true

/-- The number that decimal digits denote. -/
def decimal (t : Text) : Nat := Nat.ofDigits 10 (t.reverse.map CodeUnit.digit)

/-- How a scalar is written. Where a number stands in a whole text no digit can follow it, so its digits are as
many as there are. -/
inductive SpellsScalar : Text → Value → Prop
  | char (u : CodeUnit) : SpellsScalar ['\'', u, '\''] (.char u.toNat)
  | true : SpellsScalar "true" (.boolean true)
  | false : SpellsScalar "false" (.boolean false)
  | natural {t : Text} : Digits t → (decimal t : Int) ≤ 2147483647 → SpellsScalar t (.int (decimal t))
  | negative {t : Text} : Digits t → -2147483648 ≤ -(decimal t : Int) →
      SpellsScalar (CodeUnit.ofChar '-' :: t) (.int (-(decimal t : Int)))

section Lists

variable (item : Text → Value → Prop)

/-- One item or more, with blanks allowed before every item and every comma. -/
inductive SpellsItems : Text → List Value → Prop
  | one {blanks t : Text} {v : Value} : Blanks blanks → item t v → SpellsItems (blanks ++ t) [v]
  | more {blanks t blanks' rest : Text} {v : Value} {values : List Value} : Blanks blanks → item t v →
      Blanks blanks' → SpellsItems rest values →
      SpellsItems (blanks ++ t ++ blanks' ++ CodeUnit.ofChar ',' :: rest) (v :: values)

/-- No items, or some, and then the closing unit, with blanks allowed before it. -/
inductive SpellsUntil (close : CodeUnit) : Text → List Value → Prop
  | empty {blanks : Text} : Blanks blanks → SpellsUntil close (blanks ++ [close]) []
  | items {t blanks : Text} {values : List Value} : SpellsItems item t values → Blanks blanks →
      SpellsUntil close (t ++ blanks ++ [close]) values

end Lists

/-- The letters that name the type of an array's elements. -/
def elementLetters : List (CodeUnit × Primitive) := [('I', .int), ('C', .char), ('Z', .boolean)]

/-- A scalar of a type. -/
def SpellsElement (type : Primitive) (t : Text) (v : Value) : Prop := SpellsScalar t v ∧ v.kind = type.name

/-- A scalar, or an array: its letter directly behind the bracket, a colon, and elements of the letter's type. -/
inductive SpellsValue : Text → Value → Prop
  | scalar {t : Text} {v : Value} : SpellsScalar t v → SpellsValue t v
  | array {letter : CodeUnit} {type : Primitive} {blanks t : Text} {items : List Value} :
      (letter, type) ∈ elementLetters → Blanks blanks → SpellsUntil (SpellsElement type) ']' t items →
      SpellsValue (CodeUnit.ofChar '[' :: letter :: (blanks ++ CodeUnit.ofChar ':' :: t))
        (.array (.primitive type) items)

/-- A list of values in parentheses, between blanks. -/
inductive Spells : Text → List Value → Prop
  | intro {before t after : Text} {values : List Value} : Blanks before → SpellsUntil SpellsValue ')' t values →
      Blanks after → Spells (before ++ CodeUnit.ofChar '(' :: t ++ after) values

/-! ## First units -/

/-- The units that close a list. -/
def Closes (u : CodeUnit) : Prop := u = CodeUnit.ofChar ')' ∨ u = CodeUnit.ofChar ']'

/-- A unit that an item can begin with. -/
structure Opens (u : CodeUnit) : Prop where
  isBlank : u.isBlank = false
  not_closes : ¬Closes u

/-- No digit stands in front. -/
def NoDigit (t : Text) : Prop := ∀ u ∈ t.head?, u.isDigit = false

instance (u : CodeUnit) : Decidable (Closes u) := inferInstanceAs (Decidable (_ ∨ _))

theorem Closes.isBlank {u : CodeUnit} (h : Closes u) : u.isBlank = false := by
  rcases h with rfl | rfl <;> decide

theorem Closes.isDigit {u : CodeUnit} (h : Closes u) : u.isDigit = false := by
  rcases h with rfl | rfl <;> decide

theorem Closes.ne_comma {u : CodeUnit} (h : Closes u) : u ≠ CodeUnit.ofChar ',' := by
  rcases h with rfl | rfl <;> decide

theorem isDigit_iff {u : CodeUnit} : u.isDigit = true ↔ 48 ≤ u.toNat ∧ u.toNat ≤ 57 := by
  simp [CodeUnit.isDigit, UInt16.le_iff_toNat_le]

theorem ne_of_isDigit {u other : CodeUnit} (h : u.isDigit = true) (hother : other.isDigit = false) : u ≠ other := by
  rintro rfl
  rw [h] at hother
  cases hother

theorem opens_digit {u : CodeUnit} (h : u.isDigit = true) : Opens u := by
  constructor
  · have hbounds := isDigit_iff.1 h
    simp [CodeUnit.isBlank, UInt16.le_iff_toNat_le, ← UInt16.toNat_inj]
    omega
  · rintro (hclose | hclose)
    · exact ne_of_isDigit h (by decide) hclose
    · exact ne_of_isDigit h (by decide) hclose

theorem noDigit_blanks {blanks : Text} (hblanks : Blanks blanks) {u : CodeUnit} (hu : u.isDigit = false) (rest : Text) :
    NoDigit (blanks ++ u :: rest) := by
  cases blanks with
  | nil =>
    intro w hw
    cases hw
    exact hu
  | cons blank tail =>
    intro w hw
    cases hw
    -- A digit is no blank.
    by_contra hdigit
    have hblank := (opens_digit (Bool.eq_true_of_not_eq_false hdigit)).isBlank
    rw [hblanks blank List.mem_cons_self] at hblank
    cases hblank

/-- A scalar begins with a unit that opens an item and no array. -/
theorem SpellsScalar.lead {t : Text} {v : Value} (h : SpellsScalar t v) :
    ∃ u tail, t = u :: tail ∧ Opens u ∧ u ≠ CodeUnit.ofChar '[' := by
  cases h with
  | char u => exact ⟨_, _, rfl, ⟨by decide, by decide⟩, by decide⟩
  | true => exact ⟨_, _, rfl, ⟨by decide, by decide⟩, by decide⟩
  | false => exact ⟨_, _, rfl, ⟨by decide, by decide⟩, by decide⟩
  | natural hdigits _ =>
    obtain ⟨u, tail, rfl⟩ := List.exists_cons_of_ne_nil hdigits.ne_nil
    have hu := hdigits.digits u List.mem_cons_self
    exact ⟨u, tail, rfl, opens_digit hu, ne_of_isDigit hu (by decide)⟩
  | negative _ _ => exact ⟨_, _, rfl, ⟨by decide, by decide⟩, by decide⟩

/-! ## Items -/

section Items

variable {item : Text → Value → Prop} {t : Text} {values : List Value}

theorem SpellsItems.append_blanks {blanks : Text} (hblanks : Blanks blanks)
    (h : SpellsItems item t values) : SpellsItems item (blanks ++ t) values := by
  cases h with
  | one hbefore ht =>
    rw [← List.append_assoc]
    exact .one (hblanks.append hbefore) ht
  | more hbefore ht hbetween hrest =>
    simp only [← List.append_assoc]
    exact .more (hblanks.append hbefore) ht hbetween hrest

/-- Behind blanks, items begin with a unit that opens one, and they are not more than the units. -/
theorem SpellsItems.lead (hlead : ∀ {t : Text} {v : Value}, item t v → ∃ u tail, t = u :: tail ∧ Opens u)
    (h : SpellsItems item t values) :
    ∃ blanks u tail, Blanks blanks ∧ t = blanks ++ u :: tail ∧ Opens u ∧ values.length ≤ tail.length + 1 := by
  induction h with
  | one hblanks ht =>
    obtain ⟨u, tail, rfl, hu⟩ := hlead ht
    exact ⟨_, u, tail, hblanks, rfl, hu, by simp⟩
  | @more blanks t between rest v values hblanks ht hbetween hrest ih =>
    obtain ⟨u, tail, rfl, hu⟩ := hlead ht
    obtain ⟨before, w, tail', -, hrest, -, hlength⟩ := ih
    refine ⟨blanks, u, tail ++ between ++ CodeUnit.ofChar ',' :: rest, hblanks, by simp, hu, ?_⟩
    simp [hrest]
    omega

end Items

/-! ## Whole texts -/

theorem Spells.surround {before t after : Text} {values : List Value} (hbefore : Blanks before) (h : Spells t values)
    (hafter : Blanks after) : Spells (before ++ t ++ after) values := by
  cases h with
  | @intro before' t after' values hbefore' ht hafter' =>
    have hsplit : before ++ (before' ++ CodeUnit.ofChar '(' :: t ++ after') ++ after =
        before ++ before' ++ CodeUnit.ofChar '(' :: t ++ (after' ++ after) := by simp
    rw [hsplit]
    exact .intro (hbefore.append hbefore') ht (hafter'.append hafter)

theorem SpellsUntil.getLast?_eq {item : Text → Value → Prop} {close : CodeUnit} {t : Text} {values : List Value}
    (h : SpellsUntil item close t values) : t.getLast? = some close := by
  cases h with
  | empty _ => simp
  | items _ _ => simp

end Bytecode.Arguments
