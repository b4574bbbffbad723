import Bytecode.Proofs.Encodings
/-!
# The rows of the instruction table

`Instruction.Encodes` is the table of instruction records: for each word, the members
that must be there and what they may be. The decoder accepts the records of the table
and no others, and gives the instruction of their row (`Instruction.accepts_exactly_rows`).
-/
namespace Bytecode

theorem Operator.vocabulary : Vocabulary Operator.all Operator.name :=
  ⟨fun operator => by cases operator <;> decide, by decide⟩

theorem Condition.vocabulary : Vocabulary Condition.all Condition.name :=
  ⟨fun condition => by cases condition <;> decide, by decide⟩

theorem Access.vocabulary : Vocabulary Access.all Access.name :=
  ⟨fun access => by cases access <;> decide, by decide⟩

theorem Opcode.vocabulary : Vocabulary Opcode.all Opcode.name :=
  ⟨fun opcode => by cases opcode <;> decide, by decide⟩

/-! ## The table -/

/-- The element type of an array, where `ref` stands for any object. -/
inductive Ty.EncodesElement : Json → Ty → Prop
  | reference : EncodesElement (.string "ref") (.object MethodId.objectClass)
  | type {json type} : Encodes json type → EncodesElement json type

/-- The category of the type that a value names: every primitive type is a scalar one. -/
inductive Category.Names : Json → Category → Prop
  | reference : Names (.string "ref") .ref
  | scalar (p : Primitive) : Names (.string p.name) .int

/-- A raw constant: a number, a boolean or a text. -/
inductive Constant.Raw : Json → Constant → Prop
  | number (n : Number) : Raw (.number n) (.number n)
  | boolean (b : Bool) : Raw (.bool b) (.boolean b)
  | text (t : Text) : Raw (.string t) (.text t)

/-- A constant that is pushed: `null`, or a primitive type and a raw constant. -/
inductive Value.Encodes : Json → Value → Prop
  | null : Encodes .null .null
  | scalar {record name p raw c} : record.get? "type" = some name → Primitive.Names name p →
      record.get? "value" = some raw → Constant.Raw raw c → Encodes record (.ofConstant p c)

namespace Instruction

/-- A record's `type` is `int`, if there is one. -/
def OnlyInt (record : Json) : Prop := ∀ json ∈ record.get? "type", Primitive.Names json .int

/-- A member of a record is 1, if there is one. -/
def OnlyOne (key : Text) (record : Json) : Prop := ∀ json ∈ record.get? key, json = .number (.int 1)

/-- What the members of a record say of an instruction's operands. -/
def Operands (record : Json) : Instruction → Prop
  | push v => ∃ json ∈ record.get? "value", Value.Encodes json v
  | load category slot | store category slot =>
    (∃ json ∈ record.get? "type", Category.Names json category) ∧ record.get? "index" = some (.number (.int slot))
  | binary operator => OnlyInt record ∧ record.get? "operant" = some (.string operator.name)
  | negate => OnlyInt record
  | incr slot amount =>
    record.get? "index" = some (.number (.int slot)) ∧ record.get? "amount" = some (.number (.int amount))
  | dup | pop => OnlyOne "words" record
  | branch condition target | branchZero condition target =>
    record.get? "condition" = some (.string condition.name) ∧ record.get? "target" = some (.number (.int target))
  | goto target => record.get? "target" = some (.number (.int target))
  | get isStatic field | put isStatic field =>
    (isStatic = true ↔ record.get? "static" = some (.bool true)) ∧ ∃ json ∈ record.get? "field", field.Encodes json
  | new className => record.get? "class" = some (.string className)
  | newArray element => OnlyOne "dim" record ∧ ∃ json ∈ record.get? "type", Ty.EncodesElement json element
  | arrayLoad element | arrayStore element => ∃ json ∈ record.get? "type", Ty.EncodesElement json element
  | arrayLength => True
  | invoke access method =>
    record.get? "access" = some (.string access.name) ∧ ∃ json ∈ record.get? "method", method.Encodes json
  | .return category => Json.Optionally Category.Names (record.get? "type") category
  | cast target =>
    (∃ json ∈ record.get? "from", Primitive.Names json .int) ∧
      ∃ json ∈ record.get? "to", Primitive.Names json target.type

/-- The instruction that a record encodes: `opr` is its word, and the other members are its operands. -/
structure Encodes (record : Json) (instruction : Instruction) : Prop where
  opcode : record.get? "opr" = some (.string instruction.opcode.name)
  operands : Operands record instruction

end Instruction

/-! ## Operands -/

theorem Category.names_string_iff {t : Text} {category : Category} :
    Names (.string t) category ↔
      if t = "ref" then category = .ref else (Primitive.ofName? t).isSome = true ∧ category = .int := by
  constructor
  · rintro (_ | p)
    · rfl
    · have hname : Primitive.ofName? p.name = some p := Primitive.vocabulary.find?_eq_some_iff.2 rfl
      have hne : p.name ≠ "ref" := by cases p <;> decide
      rw [if_neg hne, hname]
      exact ⟨rfl, rfl⟩
  · intro h
    split at h
    · rename_i href
      subst href h
      exact .reference
    · obtain ⟨hname, rfl⟩ := h
      obtain ⟨p, hp⟩ := Option.isSome_iff_exists.1 hname
      rw [← Primitive.vocabulary.find?_eq_some_iff.1 hp]
      exact .scalar p

namespace Ty

theorem encodesElement_iff {json : Json} {type : Ty} :
    EncodesElement json type ↔ json = .string "ref" ∧ type = .object MethodId.objectClass ∨ Encodes json type := by
  constructor
  · rintro (_ | h)
    · exact .inl ⟨rfl, rfl⟩
    · exact .inr h
  · rintro (⟨rfl, rfl⟩ | h)
    · exact .reference
    · exact .type h

/-- `ref` is not the name of a type. -/
theorem not_encodes_ref (type : Ty) : ¬Encodes (.string "ref") type := by
  rw [encodes_string_iff]
  rintro ⟨p, hp, -⟩
  rcases Primitive.names_string_iff.1 hp with hname | ⟨hinteger, -⟩
  · have hnone : Primitive.ofName? "ref" = none := by decide
    cases hname.symm.trans hnone
  · exact absurd hinteger (by decide)

end Ty

namespace Record

theorem recognizes_condition (record : Json) :
    Recognizes (fun c => record.get? "condition" = some (.string (Condition.name c))) (condition record) :=
  recognizes_word Condition.vocabulary _ _

theorem recognizes_category (json : Option Json) :
    Recognizes (fun category => ∃ found ∈ json, Category.Names found category) (category json) := by
  unfold category
  split
  · rename_i t
    split
    · rename_i href
      exact (recognizes_ok Category.ref).congr fun category => by simp [Category.names_string_iff, href, eq_comm]
    · rename_i href
      split
      · rename_i hname
        exact (recognizes_ok Category.int).congr fun category => by
          simp [Category.names_string_iff, href, hname, eq_comm (a := category)]
      · rename_i hname
        exact recognizes_error trivial fun category => by simp [Category.names_string_iff, href, hname]
  · rename_i hother
    refine recognizes_error trivial ?_
    rintro category ⟨found, rfl, hfound⟩
    cases hfound with
    | reference => exact hother _ rfl
    | scalar => exact hother _ rfl

theorem recognizes_returnCategory (json : Option Json) :
    Recognizes (Json.Optionally Category.Names json) (returnCategory json) := by
  unfold returnCategory
  split
  · exact recognizes_missing (fun _ h => by cases h) (.inl rfl)
  · exact recognizes_missing (fun _ h => by cases h) (.inr rfl)
  · rename_i hnone hnull
    exact recognizes_given hnone hnull (recognizes_category json)

theorem recognizes_elementType (json : Option Json) :
    Recognizes (fun type => ∃ found ∈ json, Ty.EncodesElement found type) (elementType json) := by
  unfold elementType
  split
  · rename_i t
    split
    · rename_i href
      subst href
      exact (recognizes_ok _).congr fun type => by
        simp [Ty.encodesElement_iff, Ty.not_encodes_ref, eq_comm (a := type)]
    · rename_i href
      exact (Ty.recognizes_ofJson (.string t)).congr fun type => by simp [Ty.encodesElement_iff, href]
  · rename_i hother
    refine (recognizes_type json).congr fun type => ?_
    constructor
    · rintro ⟨found, hfound, h⟩
      exact ⟨found, hfound, .type h⟩
    · rintro ⟨found, hfound, h⟩
      cases h with
      | reference => exact absurd hfound (hother _)
      | type h => exact ⟨found, hfound, h⟩

theorem recognizes_onlyInt (record : Json) :
    Recognizes (fun _ => Instruction.OnlyInt record) (onlyInt record) := by
  unfold onlyInt
  split
  · rename_i hnone
    exact (recognizes_ok ()).congr fun _ => by simp [Instruction.OnlyInt, hnone]
  · rename_i hsome
    refine ((Primitive.recognizes_ofJson _).bind fun p _ => recognizes_guard _).congr fun _ => ?_
    constructor
    · rintro ⟨p, ⟨found, hfound, hp⟩, rfl⟩ json hjson
      cases hfound.symm.trans hjson
      exact hp
    · intro h
      obtain ⟨json, hjson⟩ := Option.ne_none_iff_exists'.1 hsome
      exact ⟨.int, ⟨json, hjson, h json hjson⟩, rfl⟩

theorem recognizes_intOr (fallback : Int) (key : Text) (record : Json) :
    Recognizes (fun n => record.get? key = none ∧ fallback = n ∨ record.get? key = some (.number (.int n)))
      (intOr fallback key record) := by
  unfold intOr
  split
  · rename_i hnone
    exact (recognizes_ok fallback).congr fun n => by simp [hnone]
  · rename_i hsome
    exact (recognizes_int key record).congr fun n => by simp [hsome]

theorem recognizes_onlyOne (key : Text) (record : Json) :
    Recognizes (fun _ => Instruction.OnlyOne key record) (onlyOne key record) := by
  refine ((recognizes_intOr 1 key record).bind fun n _ => recognizes_guard _).congr fun _ => ?_
  unfold Instruction.OnlyOne
  cases hget : record.get? key with
  | none => simp
  | some json => simp

theorem rawConstant?_eq_some_iff {json : Option Json} {c : Constant} :
    rawConstant? json = some c ↔ ∃ found ∈ json, Constant.Raw found c := by
  constructor
  · intro h
    unfold rawConstant? at h
    split at h
    · cases h; exact ⟨_, rfl, .number _⟩
    · cases h; exact ⟨_, rfl, .boolean _⟩
    · cases h; exact ⟨_, rfl, .text _⟩
    · cases h
  · rintro ⟨found, rfl, hfound⟩
    cases hfound <;> rfl

theorem recognizes_scalar (record : Json) (p : Primitive) :
    Recognizes (fun v => ∃ c, (∃ found ∈ record.get? "value", Constant.Raw found c) ∧ Value.ofConstant p c = v)
      (match rawConstant? (record.get? "value") with
        | some raw => .ok (Value.ofConstant p raw)
        | none => .error (.malformed (.badConstant record))) := by
  split
  · rename_i raw hraw
    refine (recognizes_ok _).congr fun v => ?_
    simp only [← rawConstant?_eq_some_iff, hraw]
    simp
  · rename_i hnone
    refine recognizes_error trivial fun v => ?_
    simp only [← rawConstant?_eq_some_iff, hnone]
    simp

theorem recognizes_constant (json : Option Json) :
    Recognizes (fun v => ∃ found ∈ json, Value.Encodes found v) (constant json) := by
  unfold constant
  split
  · refine (recognizes_ok Value.null).congr fun v => ?_
    constructor
    · rintro rfl
      exact ⟨_, rfl, .null⟩
    · rintro ⟨found, hfound, h⟩
      cases hfound
      cases h with
      | null => rfl
      | scalar htype => cases htype
  · rename_i hnull
    refine ((recognizes_object _ json).bind fun record _ => (Primitive.recognizes_ofJson (record.get? "type")).bind
      fun p _ => recognizes_scalar record p).congr fun v => ?_
    constructor
    · rintro ⟨record, ⟨hrecord, -⟩, p, ⟨name, hname, hp⟩, c, ⟨raw, hvalue, hc⟩, rfl⟩
      exact ⟨record, hrecord, .scalar hname hp hvalue hc⟩
    · rintro ⟨record, hrecord, h⟩
      cases h with
      | null => exact absurd hrecord hnull
      | scalar htype hp hvalue hc =>
        exact ⟨record, ⟨hrecord, Json.isObject_of_get? htype⟩, _, ⟨_, htype, hp⟩, _, ⟨_, hvalue, hc⟩, rfl⟩

theorem recognizes_narrowing (source target : Primitive) :
    Recognizes (fun c : CastTarget => source = .int ∧ target = c.type)
      (match source, target with
        | .int, .short => .ok .short
        | .int, .byte => .ok .byte
        | .int, .char => .ok .char
        | _, _ => .error (.unsupported (.cast source target))) := by
  split
  · exact (recognizes_ok _).congr fun c => by cases c <;> simp [CastTarget.type]
  · exact (recognizes_ok _).congr fun c => by cases c <;> simp [CastTarget.type]
  · exact (recognizes_ok _).congr fun c => by cases c <;> simp [CastTarget.type]
  · rename_i hshort hbyte hchar
    refine recognizes_error trivial ?_
    rintro c ⟨rfl, rfl⟩
    cases c with
    | short => exact hshort rfl rfl
    | byte => exact hbyte rfl rfl
    | char => exact hchar rfl rfl

theorem recognizes_castTarget (record : Json) :
    Recognizes (fun target => (∃ json ∈ record.get? "from", Primitive.Names json .int) ∧
      ∃ json ∈ record.get? "to", Primitive.Names json target.type) (castTarget record) := by
  refine ((Primitive.recognizes_ofJson _).bind fun source _ => (Primitive.recognizes_ofJson _).bind
    fun target _ => recognizes_narrowing source target).congr fun c => ?_
  constructor
  · rintro ⟨source, hsource, target, htarget, rfl, rfl⟩
    exact ⟨hsource, htarget⟩
  · rintro ⟨hsource, htarget⟩
    exact ⟨_, hsource, _, htarget, rfl, rfl⟩

end Record

/-! ## Instructions -/

namespace Instruction

open Record

section Operands

variable {α β : Type} {P : α → Prop} {Q : β → Prop} {x : Except Fault α} {y : Except Fault β}
  {record : Json} {op : Opcode}

/-- A row with one operand to read. -/
theorem recognizes_operand (make : α → Instruction) (hx : Recognizes P x)
    (hmake : ∀ a, P a → (make a).opcode = op ∧ Operands record (make a))
    (hmade : ∀ i, i.opcode = op → Operands record i → ∃ a, P a ∧ make a = i) :
    Recognizes (fun i => i.opcode = op ∧ Operands record i) (x >>= fun a => .ok (make a)) := by
  refine (hx.bind fun a _ => recognizes_ok (make a)).congr fun i => ⟨?_, fun h => hmade i h.1 h.2⟩
  rintro ⟨a, ha, rfl⟩
  exact hmake a ha

/-- A row with two operands to read. -/
theorem recognizes_operands (make : α → β → Instruction) (hx : Recognizes P x) (hy : Recognizes Q y)
    (hmake : ∀ a b, P a → Q b → (make a b).opcode = op ∧ Operands record (make a b))
    (hmade : ∀ i, i.opcode = op → Operands record i → ∃ a b, P a ∧ Q b ∧ make a b = i) :
    Recognizes (fun i => i.opcode = op ∧ Operands record i) (x >>= fun a => y >>= fun b => .ok (make a b)) := by
  refine (hx.bind fun a _ => hy.bind fun b _ => recognizes_ok (make a b)).congr fun i => ⟨?_, fun h => ?_⟩
  · rintro ⟨a, ha, b, hb, rfl⟩
    exact hmake a b ha hb
  · obtain ⟨a, b, ha, hb, hi⟩ := hmade i h.1 h.2
    exact ⟨a, ha, b, hb, hi⟩

end Operands

theorem recognizes_ofRecord (record : Json) (op : Opcode) :
    Recognizes (fun i => i.opcode = op ∧ Operands record i) (ofRecord record op) := by
  -- Backward, the opcode leaves one constructor, and its operands are the ones that were read.
  cases op with
  | push =>
    refine recognizes_operand push (recognizes_constant _) (fun _ h => ⟨rfl, h⟩) fun i hop h => ?_
    cases i <;> cases hop
    exact ⟨_, h, rfl⟩
  | load =>
    refine recognizes_operands load (recognizes_category _) (recognizes_int _ _) (fun _ _ h h' => ⟨rfl, h, h'⟩)
      fun i hop h => ?_
    cases i <;> cases hop
    exact ⟨_, _, h.1, h.2, rfl⟩
  | store =>
    refine recognizes_operands store (recognizes_category _) (recognizes_int _ _) (fun _ _ h h' => ⟨rfl, h, h'⟩)
      fun i hop h => ?_
    cases i <;> cases hop
    exact ⟨_, _, h.1, h.2, rfl⟩
  | binary =>
    refine recognizes_operands (fun _ => binary) (recognizes_onlyInt _) (recognizes_word Operator.vocabulary _ _)
      (fun _ _ h h' => ⟨rfl, h, h'⟩) fun i hop h => ?_
    cases i <;> cases hop
    exact ⟨(), _, h.1, h.2, rfl⟩
  | negate =>
    refine recognizes_operand (fun _ => negate) (recognizes_onlyInt _) (fun _ h => ⟨rfl, h⟩) fun i hop h => ?_
    cases i <;> cases hop
    exact ⟨(), h, rfl⟩
  | incr =>
    refine recognizes_operands incr (recognizes_int _ _) (recognizes_int _ _) (fun _ _ h h' => ⟨rfl, h, h'⟩)
      fun i hop h => ?_
    cases i <;> cases hop
    exact ⟨_, _, h.1, h.2, rfl⟩
  | dup =>
    refine recognizes_operand (fun _ => dup) (recognizes_onlyOne _ _) (fun _ h => ⟨rfl, h⟩) fun i hop h => ?_
    cases i <;> cases hop
    exact ⟨(), h, rfl⟩
  | pop =>
    refine recognizes_operand (fun _ => pop) (recognizes_onlyOne _ _) (fun _ h => ⟨rfl, h⟩) fun i hop h => ?_
    cases i <;> cases hop
    exact ⟨(), h, rfl⟩
  | branch =>
    refine recognizes_operands branch (recognizes_condition _) (recognizes_int _ _) (fun _ _ h h' => ⟨rfl, h, h'⟩)
      fun i hop h => ?_
    cases i <;> cases hop
    exact ⟨_, _, h.1, h.2, rfl⟩
  | branchZero =>
    refine recognizes_operands branchZero (recognizes_condition _) (recognizes_int _ _)
      (fun _ _ h h' => ⟨rfl, h, h'⟩) fun i hop h => ?_
    cases i <;> cases hop
    exact ⟨_, _, h.1, h.2, rfl⟩
  | goto =>
    refine recognizes_operand goto (recognizes_int _ _) (fun _ h => ⟨rfl, h⟩) fun i hop h => ?_
    cases i <;> cases hop
    exact ⟨_, h, rfl⟩
  | get =>
    refine recognizes_operand (get (flag "static" record)) (FieldRef.recognizes_ofJson _)
      (fun _ h => ⟨rfl, flag_eq_true_iff _ _, h⟩) fun i hop h => ?_
    cases i <;> cases hop
    exact ⟨_, h.2, by rw [Bool.eq_iff_iff.2 ((flag_eq_true_iff _ _).trans h.1.symm)]⟩
  | put =>
    refine recognizes_operand (put (flag "static" record)) (FieldRef.recognizes_ofJson _)
      (fun _ h => ⟨rfl, flag_eq_true_iff _ _, h⟩) fun i hop h => ?_
    cases i <;> cases hop
    exact ⟨_, h.2, by rw [Bool.eq_iff_iff.2 ((flag_eq_true_iff _ _).trans h.1.symm)]⟩
  | new =>
    refine recognizes_operand new (recognizes_string _ _) (fun _ h => ⟨rfl, h⟩) fun i hop h => ?_
    cases i <;> cases hop
    exact ⟨_, h, rfl⟩
  | newArray =>
    refine recognizes_operands (fun _ => newArray) (recognizes_onlyOne _ _) (recognizes_elementType _)
      (fun _ _ h h' => ⟨rfl, h, h'⟩) fun i hop h => ?_
    cases i <;> cases hop
    exact ⟨(), _, h.1, h.2, rfl⟩
  | arrayLoad =>
    refine recognizes_operand arrayLoad (recognizes_elementType _) (fun _ h => ⟨rfl, h⟩) fun i hop h => ?_
    cases i <;> cases hop
    exact ⟨_, h, rfl⟩
  | arrayStore =>
    refine recognizes_operand arrayStore (recognizes_elementType _) (fun _ h => ⟨rfl, h⟩) fun i hop h => ?_
    cases i <;> cases hop
    exact ⟨_, h, rfl⟩
  | arrayLength =>
    refine (recognizes_ok arrayLength).congr fun i => ⟨?_, fun h => ?_⟩
    · rintro rfl
      exact ⟨rfl, trivial⟩
    · have hop := h.1
      cases i <;> cases hop
      rfl
  | invoke =>
    refine recognizes_operands invoke (recognizes_word Access.vocabulary _ _) (MethodId.recognizes_ofJson _)
      (fun _ _ h h' => ⟨rfl, h, h'⟩) fun i hop h => ?_
    cases i <;> cases hop
    exact ⟨_, _, h.1, h.2, rfl⟩
  | «return» =>
    refine recognizes_operand .return (recognizes_returnCategory _) (fun _ h => ⟨rfl, h⟩) fun i hop h => ?_
    cases i <;> cases hop
    exact ⟨_, h, rfl⟩
  | cast =>
    refine recognizes_operand cast (recognizes_castTarget _) (fun _ h => ⟨rfl, h⟩) fun i hop h => ?_
    cases i <;> cases hop
    exact ⟨_, h, rfl⟩

theorem recognizes_ofJson (json : Json) : Recognizes (Encodes json) (ofJson json) := by
  refine ((recognizes_object _ _).bind fun record _ => (recognizes_word Opcode.vocabulary _ (record.get? "opr")).bind
    fun opcode _ => recognizes_ofRecord record opcode).congr fun i => ?_
  constructor
  · rintro ⟨record, ⟨hrecord, -⟩, opcode, hopcode, rfl, hoperands⟩
    cases hrecord
    exact ⟨hopcode, hoperands⟩
  · rintro ⟨hopcode, hoperands⟩
    exact ⟨json, ⟨rfl, Json.isObject_of_get? hopcode⟩, _, hopcode, rfl, hoperands⟩

end Instruction

theorem Code.recognizes_ofJson (records : List Json) :
    Recognizes (fun code => ∃ instructions, List.Forall₂ Instruction.Encodes records instructions ∧
      instructions.toArray = code) (ofJson records) :=
  (recognizes_mapM Instruction.recognizes_ofJson records).map List.toArray

theorem Fault.OfRecord.label {fault : Fault} (h : fault.OfRecord) :
    fault.label = "UnsupportedInstructionError" ∨ fault.label = "MalformedBytecodeError" := by
  cases fault with
  | unsupported => exact .inl rfl
  | malformed => exact .inr rfl
  | _ => exact h.elim

/-- Of every JSON value the decoder makes an instruction if and only if the value encodes it. It refuses what
encodes no instruction, as unsupported or as malformed, and nothing else. -/
theorem Instruction.accepts_exactly_rows (json : Json) :
    (∀ i, ofJson json = .ok i ↔ Encodes json i) ∧
      ((∃ fault, ofJson json = .error fault) ↔ ∀ i, ¬Encodes json i) ∧
      ∀ fault, ofJson json = .error fault →
        fault.label = "UnsupportedInstructionError" ∨ fault.label = "MalformedBytecodeError" := by
  have h := recognizes_ofJson json
  refine ⟨h.ok_iff, ?_, fun fault hfault => (h.blames fault hfault).label⟩
  rw [← h.error_iff]
  exact ⟨fun ⟨fault, hfault⟩ => ⟨fault, hfault, h.blames fault hfault⟩, fun ⟨fault, hfault, _⟩ => ⟨fault, hfault⟩⟩

/-- `integer` and a boolean are read as an `int`, and members that do not count are passed over. -/
example : (Instruction.ofJson (.object [("offset", .null), ("opr", .string "push"),
      ("value", .object [("type", .string "integer"), ("value", .bool true)])])).toOption =
    some (.push (.int 1)) := by
  rfl

end Bytecode
