import Bytecode.Proofs.Reading
/-!
# Printing argument texts

The values that can be arguments are written by `Value.text` as the grammar of
argument texts spells them (`spellsScalar_text`, `spellsValue_text`), so a list of
them, with commas between the texts and parentheses around, is read back as it was
(`parse_printed`). What a text spells can be an argument (`argument_of_parse`), so
nothing else is read back, and every accepted text has a printed form with the same
values (`reads_back_printed`).
-/
namespace Bytecode.Arguments

open Text

/-! ## Arguments -/

/-- An integer of 32 bits, a boolean, or a char, which is any unit. -/
inductive ScalarArgument : Value → Prop
  | int {n : Int} : -2147483648 ≤ n → n ≤ 2147483647 → ScalarArgument (.int n)
  | boolean (b : Bool) : ScalarArgument (.boolean b)
  | char (u : CodeUnit) : ScalarArgument (.char u.toNat)

/-- A scalar, or an array of integers, chars or booleans whose items are of its element type. -/
inductive Argument : Value → Prop
  | scalar {v : Value} : ScalarArgument v → Argument v
  | array {type : Primitive} {items : List Value} : type ∈ [Primitive.int, .char, .boolean] →
      (∀ v ∈ items, ScalarArgument v ∧ v.kind = type.name) → Argument (.array (.primitive type) items)

/-- The values' texts with the separator between them, in parentheses. -/
def printed (sep : Text) (values : List Value) : Text :=
  Text.ofString "(" ++ join sep (values.map Value.text) ++ ")"

/-! ## Numbers -/

theorem toNat_digit {d : Nat} (h : d < 10) : (UInt16.ofNat (48 + d)).toNat = 48 + d := by
  rw [UInt16.toNat_ofNat']
  omega

theorem isDigit_digit {d : Nat} (h : d < 10) : CodeUnit.isDigit (UInt16.ofNat (48 + d)) = true := by
  rw [isDigit_iff, toNat_digit h]
  omega

theorem digit_digit {d : Nat} (h : d < 10) : CodeUnit.digit (UInt16.ofNat (48 + d)) = d := by
  rw [CodeUnit.digit, toNat_digit h]
  omega

theorem digits_ofNat (n : Nat) : Digits (ofNat n) := by
  induction n using Nat.strong_induction_on with
  | _ n ih =>
    rw [ofNat]
    split
    · rename_i hsmall
      exact ⟨List.cons_ne_nil _ _, fun u hu => List.mem_singleton.1 hu ▸ isDigit_digit hsmall⟩
    · have hlast := isDigit_digit (Nat.mod_lt n (show 0 < 10 by omega))
      refine ⟨by simp, fun u hu => ?_⟩
      rcases List.mem_append.1 hu with hu | hu
      · exact (ih (n / 10) (by omega)).digits u hu
      · exact List.mem_singleton.1 hu ▸ hlast

theorem decimal_ofNat (n : Nat) : decimal (ofNat n) = n := by
  induction n using Nat.strong_induction_on with
  | _ n ih =>
    rw [ofNat]
    split
    · rename_i hsmall
      rw [← List.nil_append [_], decimal_concat, digit_digit hsmall]
      exact Nat.zero_add n
    · rw [decimal_concat, ih (n / 10) (by omega), digit_digit (Nat.mod_lt n (by omega))]
      omega

/-! ## Scalars -/

theorem spellsScalar_ofInt {n : Int} (hmin : -2147483648 ≤ n) (hmax : n ≤ 2147483647) :
    SpellsScalar (ofInt n) (.int n) := by
  have hdecimal := decimal_ofNat n.natAbs
  unfold ofInt
  split
  · rename_i hnegative
    have hn : -(decimal (ofNat n.natAbs) : Int) = n := by omega
    have hspells := SpellsScalar.negative (digits_ofNat n.natAbs) (by omega)
    rwa [hn] at hspells
  · have hn : (decimal (ofNat n.natAbs) : Int) = n := by omega
    have hspells := SpellsScalar.natural (digits_ofNat n.natAbs) (by omega)
    rwa [hn] at hspells

theorem spellsScalar_text {v : Value} (h : ScalarArgument v) : SpellsScalar v.text v := by
  cases h with
  | int hmin hmax => exact spellsScalar_ofInt hmin hmax
  | boolean b =>
    cases b with
    | true => exact .true
    | false => exact .false
  | char u =>
    -- A unit is its number modulo the width of a char.
    have hunit : UInt16.ofNat ((u.toNat : Int) % pow2 16).toNat = u := by
      have hlt := u.toNat_lt
      have hwidth : (pow2 16 : Int) = 65536 := rfl
      rw [hwidth, show ((u.toNat : Int) % 65536).toNat = u.toNat by omega, UInt16.ofNat_toNat]
    rw [Value.text, Value.charText, hunit]
    exact .char u

/-! ## Lists -/

section Lists

variable {item : Text → Value → Prop} {values : List Value}

/-- Items with a comma between each two, and blanks behind it, spell the list. -/
theorem spellsItems_join {blanks : Text} (hblanks : Blanks blanks) (hne : values ≠ [])
    (h : ∀ v ∈ values, item v.text v) :
    SpellsItems item (join (CodeUnit.ofChar ',' :: blanks) (values.map Value.text)) values := by
  induction values with
  | nil => exact absurd rfl hne
  | cons v values ih =>
    have hv := h v List.mem_cons_self
    by_cases hvalues : values = []
    · subst hvalues
      simpa [join] using SpellsItems.one blanks_nil hv
    · have hrest := ih hvalues fun w hw => h w (List.mem_cons_of_mem v hw)
      have hspells := SpellsItems.more blanks_nil hv blanks_nil (hrest.append_blanks hblanks)
      rw [List.map_cons, join_cons _ _ (by simp [hvalues])]
      simpa using hspells

theorem spellsUntil_join {blanks : Text} (hblanks : Blanks blanks) (close : CodeUnit)
    (h : ∀ v ∈ values, item v.text v) :
    SpellsUntil item close (join (CodeUnit.ofChar ',' :: blanks) (values.map Value.text) ++ [close]) values := by
  by_cases hvalues : values = []
  · subst hvalues
    exact .empty blanks_nil
  · rw [← List.append_nil (join _ _)]
    exact .items (spellsItems_join hblanks hvalues h) blanks_nil

end Lists

/-! ## Arrays -/

theorem itemTexts_eq (items : List Value) : Value.itemTexts items = items.map Value.text := by
  induction items with
  | nil => rfl
  | cons v items ih => rw [Value.itemTexts, ih, List.map_cons]

theorem mem_elementLetters {type : Primitive} (h : type ∈ [Primitive.int, .char, .boolean]) :
    (type.letter, type) ∈ elementLetters := by
  simp only [List.mem_cons, List.not_mem_nil, or_false] at h
  rcases h with rfl | rfl | rfl <;> decide

theorem spellsValue_text {v : Value} (h : Argument v) : SpellsValue v.text v := by
  cases h with
  | scalar h => exact .scalar (spellsScalar_text h)
  | @array type items htype hitems =>
    have htext : (Value.array (.primitive type) items).text = CodeUnit.ofChar '[' :: type.letter ::
        ([] ++ CodeUnit.ofChar ':' ::
          (join [CodeUnit.ofChar ','] (items.map Value.text) ++ [CodeUnit.ofChar ']'])) := by
      have hopen : Text.ofString "[" = [CodeUnit.ofChar '['] := by decide
      have hcolon : Text.ofString ":" = [CodeUnit.ofChar ':'] := by decide
      have hcomma : Text.ofString "," = [CodeUnit.ofChar ','] := by decide
      have hclose : Text.ofString "]" = [CodeUnit.ofChar ']'] := by decide
      simp [Value.text, itemTexts_eq, Ty.descriptor, hopen, hcolon, hcomma, hclose]
    rw [htext]
    refine .array (mem_elementLetters htype) blanks_nil (spellsUntil_join blanks_nil _ fun v hv => ?_)
    exact ⟨spellsScalar_text (hitems v hv).1, (hitems v hv).2⟩

/-! ## Spelled values -/

theorem scalarArgument_of_spells {t : Text} {v : Value} (h : SpellsScalar t v) : ScalarArgument v := by
  cases h with
  | char u => exact .char u
  | true => exact .boolean true
  | false => exact .boolean false
  | natural _ hmax => exact .int (by omega) hmax
  | negative _ hmin => exact .int hmin (by omega)

theorem SpellsItems.all {item : Text → Value → Prop} {P : Value → Prop} (hitem : ∀ t v, item t v → P v) {t : Text}
    {values : List Value} (h : SpellsItems item t values) : ∀ v ∈ values, P v := by
  induction h with
  | one _ ht => simpa using hitem _ _ ht
  | more _ ht _ _ ih => simpa using ⟨hitem _ _ ht, ih⟩

theorem SpellsUntil.all {item : Text → Value → Prop} {P : Value → Prop} (hitem : ∀ t v, item t v → P v)
    {close : CodeUnit} {t : Text} {values : List Value} (h : SpellsUntil item close t values) : ∀ v ∈ values, P v := by
  cases h with
  | empty _ => exact List.forall_mem_nil _
  | items hitems _ => exact hitems.all hitem

theorem argument_of_spells {t : Text} {v : Value} (h : SpellsValue t v) : Argument v := by
  cases h with
  | scalar h => exact .scalar (scalarArgument_of_spells h)
  | @array letter type _ _ _ hletter _ h =>
    have htype : type ∈ [Primitive.int, .char, .boolean] := List.mem_map_of_mem (f := Prod.snd) hletter
    exact .array htype (h.all fun _ _ hv => ⟨scalarArgument_of_spells hv.1, hv.2⟩)

/-! ## Whole texts -/

theorem spells_printed {blanks : Text} (hblanks : Blanks blanks) {values : List Value}
    (h : ∀ v ∈ values, Argument v) : Spells (printed (CodeUnit.ofChar ',' :: blanks) values) values := by
  have hopen : Text.ofString "(" = [CodeUnit.ofChar '('] := by decide
  have hclose : Text.ofString ")" = [CodeUnit.ofChar ')'] := by decide
  have hspells := Spells.intro blanks_nil
    (spellsUntil_join hblanks (CodeUnit.ofChar ')') fun v hv => spellsValue_text (h v hv)) blanks_nil
  simpa [printed, hopen, hclose] using hspells

/-- The least integer, and chars that look like what stands around them. -/
def marks : List Value :=
  [.int (-2147483648), .char 39, .array (.primitive .char) [.char 44, .char 93, .char 0xD800],
    .array (.primitive .boolean) []]

/-- Arguments are read back from their printed text. -/
theorem parse_printed {values : List Value} (h : ∀ v ∈ values, Argument v) {sep : Text}
    (hsep : sep = "," ∨ sep = ", ") : parse (printed sep values) = .ok values := by
  have hcomma : Text.ofString "," = CodeUnit.ofChar ',' :: [] := by decide
  have hspace : Text.ofString ", " = CodeUnit.ofChar ',' :: [CodeUnit.ofChar ' '] := by decide
  rcases hsep with rfl | rfl
  · rw [hcomma]
    exact parse_of_spells (spells_printed blanks_nil h)
  · rw [hspace]
    exact parse_of_spells (spells_printed (by simp [Blanks]; decide) h)

/-- All values that a text lists can be arguments. -/
theorem argument_of_parse {t : Text} {values : List Value} (h : parse t = .ok values) : ∀ v ∈ values, Argument v := by
  cases spells_of_parse h with
  | intro _ hvalues _ => exact hvalues.all fun _ _ hv => argument_of_spells hv

/-- Values that are written with commas between them, bare or with a space behind each, are read back as they
were if and only if they can be arguments. Whatever text values were read from, their printed text has the
same ones. -/
theorem reads_back_printed {sep : Text} (hsep : sep = "," ∨ sep = ", ") :
    (∀ values, parse (printed sep values) = .ok values ↔ ∀ v ∈ values, Argument v) ∧
      ∀ t values, parse t = .ok values → parse (printed sep values) = .ok values := by
  refine ⟨fun values => ⟨argument_of_parse, fun h => parse_printed h hsep⟩, fun t values h => ?_⟩
  exact parse_printed (argument_of_parse h) hsep

/-- Chars that look like the marks around them, and the least integer. -/
theorem reads_back_marks :
    (∀ v ∈ marks, Argument v) ∧ parse (printed "," marks) = .ok marks ∧ parse (printed ", " marks) = .ok marks := by
  have hmarks : ∀ v ∈ marks, Argument v := by
    simp only [marks, List.forall_mem_cons]
    refine ⟨.scalar (.int (by decide) (by decide)), .scalar (.char '\''), .array (by decide) ?_,
      .array (by decide) ?_, ?_⟩
    · simp only [List.forall_mem_cons]
      exact ⟨⟨.char ',', rfl⟩, ⟨.char ']', rfl⟩, ⟨.char 0xD800, rfl⟩, List.forall_mem_nil _⟩
    · exact List.forall_mem_nil _
    · exact List.forall_mem_nil _
  exact ⟨hmarks, ((reads_back_printed (.inl rfl)).1 marks).2 hmarks, ((reads_back_printed (.inr rfl)).1 marks).2 hmarks⟩

end Bytecode.Arguments
