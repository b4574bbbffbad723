import Bytecode.Instruction.Record
import Mathlib.Data.List.Forall2
import Mathlib.Data.List.Nodup
/-!
# What records encode

The encodings of types and of references to fields and methods, as relations between
JSON values and what they stand for. A relation speaks of the members that count, so a
record may have others. `Recognizes P x` says that a reader answers exactly what has
the property `P`, and that it blames the record where there is nothing to answer. It is
proved of one reader after the other, from the members of a record to a method
reference.
-/
namespace Bytecode

/-- Records of the wrong shape. -/
def Malformation.OfRecord : Malformation → Prop
  | .notAnObject .. | .notAString .. | .notAnInteger .. | .notAnArray .. | .unknownType .. | .badConstant .. => True
  | _ => False

/-- What a reader of records can report: a record has the wrong shape, or stands for what the machine does not do. -/
def Fault.OfRecord : Fault → Prop
  | .unsupported _ => True
  | .malformed cause => cause.OfRecord
  | _ => False

/-- The reader answers what has the property and nothing else, and where there is nothing it reports a fault of a
record. -/
structure Recognizes {α : Type} (P : α → Prop) (x : Except Fault α) : Prop where
  ok_iff : ∀ a, x = .ok a ↔ P a
  blames : ∀ fault, x = .error fault → fault.OfRecord

section Combining

variable {α β : Type} {P : α → Prop} {x : Except Fault α}

theorem recognizes_ok (a : α) : Recognizes (a = ·) (.ok a) where
  ok_iff b := by rw [Except.ok.injEq]
  blames _ h := by cases h

theorem recognizes_error {fault : Fault} (hfault : fault.OfRecord) (h : ∀ a, ¬P a) :
    Recognizes P (.error fault) where
  ok_iff a := by simp [h a]
  blames _ heq := by cases heq; exact hfault

theorem recognizes_guard {q : Prop} [Decidable q] (cause : Unsupported) :
    Recognizes (fun _ : Unit => q) (if q then .ok () else .error (.unsupported cause)) := by
  split
  · rename_i hq
    exact ⟨fun _ => by simp [hq], fun _ h => by cases h⟩
  · rename_i hq
    exact recognizes_error trivial fun _ => hq

theorem Recognizes.congr {Q : α → Prop} (hx : Recognizes P x) (h : ∀ a, P a ↔ Q a) : Recognizes Q x where
  ok_iff a := (hx.ok_iff a).trans (h a)
  blames := hx.blames

theorem Recognizes.error_iff (hx : Recognizes P x) :
    (∃ fault, x = .error fault ∧ fault.OfRecord) ↔ ∀ a, ¬P a := by
  constructor
  · rintro ⟨fault, rfl, -⟩ a ha
    cases (hx.ok_iff a).2 ha
  · intro h
    cases hanswer : x with
    | ok a => exact absurd ((hx.ok_iff a).1 hanswer) (h a)
    | error fault => exact ⟨fault, rfl, hx.blames fault hanswer⟩

theorem Recognizes.bind {Q : α → β → Prop} {f : α → Except Fault β} (hx : Recognizes P x)
    (hf : ∀ a, P a → Recognizes (Q a) (f a)) : Recognizes (fun b => ∃ a, P a ∧ Q a b) (x >>= f) := by
  cases hanswer : x with
  | ok a =>
    have ha := (hx.ok_iff a).1 hanswer
    refine ⟨fun b => ((hf a ha).ok_iff b).trans ⟨fun hb => ⟨a, ha, hb⟩, ?_⟩, (hf a ha).blames⟩
    rintro ⟨a', ha', hb⟩
    cases hanswer.symm.trans ((hx.ok_iff a').2 ha')
    exact hb
  | error fault =>
    refine recognizes_error (hx.blames fault hanswer) ?_
    rintro b ⟨a, ha, -⟩
    cases hanswer.symm.trans ((hx.ok_iff a).2 ha)

theorem Recognizes.map (hx : Recognizes P x) (f : α → β) :
    Recognizes (fun b => ∃ a, P a ∧ f a = b) (x.map f) := by
  have hbind := hx.bind (f := fun a => .ok (f a)) fun a _ => recognizes_ok (f a)
  cases x <;> exact hbind

theorem recognizes_mapM {R : α → β → Prop} {f : α → Except Fault β} (h : ∀ a, Recognizes (R a) (f a))
    (items : List α) : Recognizes (List.Forall₂ R items) (items.mapM f) := by
  induction items with
  | nil => exact (recognizes_ok []).congr fun results => by simp [eq_comm]
  | cons item items ih =>
    rw [List.mapM_cons]
    refine ((h item).bind fun b _ => ih.bind fun bs _ => recognizes_ok (b :: bs)).congr fun results => ?_
    constructor
    · rintro ⟨b, hb, bs, hbs, rfl⟩
      exact .cons hb hbs
    · rintro (_ | ⟨hb, hbs⟩)
      exact ⟨_, hb, _, hbs, rfl⟩

end Combining

/-! ## Words -/

/-- A list of all members of a type that have different names. -/
structure Vocabulary {α : Type} (all : List α) (name : α → Text) : Prop where
  complete : ∀ a, a ∈ all
  distinct : (all.map name).Nodup

theorem Vocabulary.find?_eq_some_iff {α : Type} {all : List α} {name : α → Text} (h : Vocabulary all name)
    {t : Text} {a : α} : all.find? (fun b => name b = t) = some a ↔ name a = t := by
  constructor
  · intro hfind
    simpa using List.find?_some hfind
  · intro ha
    cases hfind : all.find? (fun b => name b = t) with
    | none => exact absurd ha (by simpa using List.find?_eq_none.1 hfind a (h.complete a))
    | some b =>
      have hb : name b = t := by simpa using List.find?_some hfind
      exact congrArg some (List.inj_on_of_nodup_map h.distinct (h.complete b) (h.complete a) (hb.trans ha.symm))

theorem Primitive.vocabulary : Vocabulary Primitive.all Primitive.name :=
  ⟨fun p => by cases p <;> decide, by decide⟩

/-! ## Members -/

namespace Record

theorem recognizes_object (what : Text) (json : Option Json) :
    Recognizes (fun record => json = some record ∧ record.isObject = true) (object what json) := by
  unfold object
  split
  · refine (recognizes_ok _).congr fun record => ?_
    constructor
    · rintro rfl
      exact ⟨rfl, rfl⟩
    · rintro ⟨heq, -⟩
      exact Option.some.inj heq
  · rename_i hother
    refine recognizes_error trivial fun record hrecord => ?_
    obtain ⟨rfl, hobject⟩ := hrecord
    cases record with
    | object members => exact hother members rfl
    | _ => cases hobject

theorem recognizes_string (key : Text) (record : Json) :
    Recognizes (fun t => record.get? key = some (.string t)) (string key record) := by
  unfold string
  split
  · rename_i t hget
    exact (recognizes_ok t).congr fun t' => by simp [hget]
  · rename_i hother
    exact recognizes_error trivial hother

theorem recognizes_int (key : Text) (record : Json) :
    Recognizes (fun n => record.get? key = some (.number (.int n))) (int key record) := by
  unfold int
  split
  · rename_i number hget
    cases number with
    | int n => exact (recognizes_ok n).congr fun n' => by simp [hget]
    | _ => exact recognizes_error trivial fun n hn => by simp [hget] at hn
  · rename_i hother
    exact recognizes_error trivial fun n => hother _

theorem recognizes_items (key : Text) (record : Json) :
    Recognizes (fun items => record.get? key = some (.array items)) (items key record) := by
  unfold items
  split
  · rename_i items hget
    exact (recognizes_ok items).congr fun items' => by simp [hget]
  · rename_i hother
    exact recognizes_error trivial hother

theorem flag_eq_true_iff (key : Text) (record : Json) :
    flag key record = true ↔ record.get? key = some (.bool true) := by
  unfold flag
  split
  · rename_i b hget
    simp [hget]
  · rename_i hother
    simpa using hother true

theorem recognizes_word {α : Type} {all : List α} {name : α → Text} (h : Vocabulary all name)
    (fault : Option Json → Unsupported) (json : Option Json) :
    Recognizes (fun a => json = some (.string (name a))) (word all name fault json) := by
  unfold word
  split
  · rename_i t
    cases hnamed : named? all name t with
    | some a =>
      refine (recognizes_ok a).congr fun b => ?_
      have hb := h.find?_eq_some_iff (t := t) (a := b)
      rw [← named?, hnamed] at hb
      simpa [eq_comm] using hb
    | none =>
      refine recognizes_error trivial fun a ha => ?_
      have hfound := h.find?_eq_some_iff.2 (Json.string.inj (Option.some.inj ha)).symm
      rw [← named?, hnamed] at hfound
      cases hfound
  · rename_i hother
    exact recognizes_error trivial fun a => hother _

end Record

/-! ## Types -/

/-- The primitive type that a value names; `integer` is a second name of `int`. -/
inductive Primitive.Names : Json → Primitive → Prop
  | name (p : Primitive) : Names (.string p.name) p
  | integer : Names (.string "integer") .int

/-- The type that a value encodes: the name of a primitive type, a record with such a name as its `base` and without a
`kind`, the record of an array type with the element's encoding in it, or the record of a class type. -/
inductive Ty.Encodes : Json → Ty → Prop
  | primitive {json p} : Primitive.Names json p → Encodes json (.primitive p)
  | base {record name p} : record.get? "kind" = none → record.get? "base" = some name → Primitive.Names name p →
      Encodes record (.primitive p)
  | array {record json element} : record.get? "kind" = some (.string "array") → record.get? "type" = some json →
      Encodes json element → Encodes record (.array element)
  | object {record className} : record.get? "kind" = some (.string "class") →
      record.get? "name" = some (.string className) → Encodes record (.object className)

theorem Primitive.names_string_iff {t : Text} {p : Primitive} :
    Names (.string t) p ↔ ofName? t = some p ∨ t = "integer" ∧ p = .int := by
  have hname : ofName? t = some p ↔ p.name = t := vocabulary.find?_eq_some_iff
  rw [hname]
  constructor
  · rintro (p | _)
    · exact .inl rfl
    · exact .inr ⟨rfl, rfl⟩
  · rintro (rfl | ⟨rfl, rfl⟩)
    · exact .name p
    · exact .integer

theorem Primitive.recognizes_ofJson (json : Option Json) :
    Recognizes (fun p => ∃ found ∈ json, Names found p) (ofJson json) := by
  unfold ofJson
  split
  · rename_i t
    split
    · rename_i p hp
      -- `integer` is not the name of a type.
      have hne : t ≠ "integer" := by
        rintro rfl
        have hnone : ofName? "integer" = none := by decide
        cases hp.symm.trans hnone
      exact (recognizes_ok p).congr fun q => by simp [names_string_iff, hp, hne]
    · rename_i hnone
      split
      · rename_i hinteger
        subst hinteger
        exact (recognizes_ok Primitive.int).congr fun q => by simp [names_string_iff, hnone, eq_comm (a := q)]
      · rename_i hne
        exact recognizes_error trivial fun q => by simp [names_string_iff, hnone, hne]
  · rename_i hother
    refine recognizes_error trivial ?_
    rintro p ⟨found, rfl, hfound⟩
    cases hfound with
    | name => exact hother _ rfl
    | integer => exact hother _ rfl

namespace Ty

theorem encodes_string_iff {t : Text} {type : Ty} :
    Encodes (.string t) type ↔ ∃ p, Primitive.Names (.string t) p ∧ primitive p = type := by
  constructor
  · rintro (⟨hp⟩ | ⟨-, hbase, -⟩ | ⟨hkind, -, -⟩ | ⟨hkind, -⟩)
    · exact ⟨_, hp, rfl⟩
    · cases hbase
    · cases hkind
    · cases hkind
  · rintro ⟨p, hp, rfl⟩
    exact .primitive hp

section Object

variable {record : Json} {type : Ty}

theorem encodes_base_iff {name : Json} (hkind : record.get? "kind" = none) (hbase : record.get? "base" = some name) :
    Encodes record type ↔ ∃ p, (∃ found ∈ some name, Primitive.Names found p) ∧ primitive p = type := by
  constructor
  · intro h
    cases h with
    | primitive hp => cases hp <;> cases hbase
    | base _ hbase' hp =>
      cases hbase.symm.trans hbase'
      exact ⟨_, ⟨_, rfl, hp⟩, rfl⟩
    | array hkind' => cases hkind.symm.trans hkind'
    | object hkind' => cases hkind.symm.trans hkind'
  · rintro ⟨p, ⟨found, hfound, hp⟩, rfl⟩
    cases hfound
    exact .base hkind hbase hp

theorem encodes_array_iff (hkind : record.get? "kind" = some (.string "array")) :
    Encodes record type ↔ ∃ element, (∃ json, record.get? "type" = some json ∧ Encodes json element) ∧
      array element = type := by
  constructor
  · intro h
    cases h with
    | primitive hp => cases hp <;> cases hkind
    | base hkind' => cases hkind.symm.trans hkind'
    | array _ htype helement => exact ⟨_, ⟨_, htype, helement⟩, rfl⟩
    | object hkind' => exact absurd (Json.string.inj (Option.some.inj (hkind.symm.trans hkind'))) (by decide)
  · rintro ⟨element, ⟨json, htype, helement⟩, rfl⟩
    exact .array hkind htype helement

theorem encodes_object_iff (hkind : record.get? "kind" = some (.string "class")) :
    Encodes record type ↔ ∃ className, record.get? "name" = some (.string className) ∧ object className = type := by
  constructor
  · intro h
    cases h with
    | primitive hp => cases hp <;> cases hkind
    | base hkind' => cases hkind.symm.trans hkind'
    | array hkind' => exact absurd (Json.string.inj (Option.some.inj (hkind.symm.trans hkind'))) (by decide)
    | object _ hname => exact ⟨_, hname, rfl⟩
  · rintro ⟨className, hname, rfl⟩
    exact .object hkind hname

end Object

/-- A value that is no text encodes a type only as a record with a `base` or with one of the two kinds. -/
theorem Encodes.kind {json : Json} {type : Ty} (h : Encodes json type) (hstring : ∀ t, json ≠ .string t) :
    json.get? "kind" = none ∧ (∃ name, json.get? "base" = some name) ∨ json.get? "kind" = some (.string "array") ∨
      json.get? "kind" = some (.string "class") := by
  cases h with
  | primitive hp =>
    cases hp with
    | name => exact absurd rfl (hstring _)
    | integer => exact absurd rfl (hstring _)
  | base hkind hbase => exact .inl ⟨hkind, _, hbase⟩
  | array hkind => exact .inr (.inl hkind)
  | object hkind => exact .inr (.inr hkind)

mutual

theorem recognizes_ofJson (json : Json) : Recognizes (Encodes json) (ofJson json) := by
  cases json with
  | string t =>
    unfold ofJson
    refine ((Primitive.recognizes_ofJson (some (.string t))).map primitive).congr fun type => ?_
    simp [encodes_string_iff]
  | object members =>
    unfold ofJson
    simp only []
    split
    · rename_i name hkind hbase
      exact ((Primitive.recognizes_ofJson (some name)).map primitive).congr fun type =>
        (encodes_base_iff hkind hbase).symm
    · rename_i kind hkind
      split
      · rename_i harray
        subst harray
        exact ((recognizes_ofMember "type" members).map array).congr fun type => (encodes_array_iff hkind).symm
      · rename_i harray
        split
        · rename_i hclass
          subst hclass
          exact ((Record.recognizes_string "name" (.object members)).map object).congr fun type =>
            (encodes_object_iff hkind).symm
        · rename_i hclass
          refine recognizes_error trivial fun type h => ?_
          rcases h.kind (by simp) with ⟨hnone, -⟩ | hsome | hsome
          · cases hkind.symm.trans hnone
          · exact harray (Json.string.inj (Option.some.inj (hkind.symm.trans hsome)))
          · exact hclass (Json.string.inj (Option.some.inj (hkind.symm.trans hsome)))
    · rename_i hkind hbase
      refine recognizes_error trivial fun type h => ?_
      rcases h.kind (by simp) with ⟨hnone, name, hname⟩ | hsome | hsome
      · exact hbase name hnone hname
      · exact hkind _ hsome
      · exact hkind _ hsome
  | _ =>
    unfold ofJson
    refine recognizes_error trivial fun type h => ?_
    rcases h.kind (by simp) with ⟨-, name, hname⟩ | hsome | hsome
    · cases hname
    · cases hsome
    · cases hsome

theorem recognizes_ofMember (key : Text) (members : List (Text × Json)) :
    Recognizes (fun type => ∃ json, Table.get? key members = some json ∧ Encodes json type) (ofMember key members) := by
  cases members with
  | nil =>
    unfold ofMember
    exact recognizes_error trivial fun type => by simp
  | cons member members =>
    unfold ofMember
    split
    · rename_i hkey
      exact (recognizes_ofJson member.2).congr fun type => by simp [Table.get?, hkey]
    · rename_i hkey
      exact (recognizes_ofMember key members).congr fun type => by simp [Table.get?, hkey]

end

end Ty

namespace Record

theorem recognizes_type (json : Option Json) :
    Recognizes (fun type => ∃ found ∈ json, Ty.Encodes found type) (type json) := by
  cases json with
  | some json => exact (Ty.recognizes_ofJson json).congr fun type => by simp
  | none => exact recognizes_error trivial fun type => by simp

theorem recognizes_types (items : List Json) : Recognizes (List.Forall₂ Ty.Encodes items) (types items) :=
  recognizes_mapM Ty.recognizes_ofJson items

end Record

/-- What may be missing or `null`, and else is encoded in some way. -/
def Json.Optionally {α : Type} (Encodes : Json → α → Prop) (json : Option Json) : Option α → Prop
  | none => json = none ∨ json = some .null
  | some a => ∃ found ∈ json, Encodes found a

/-- A value that encodes a type is not `null`. -/
theorem Ty.not_encodes_null (type : Ty) : ¬Encodes .null type := by
  intro h
  rcases h.kind (by simp) with ⟨-, name, hname⟩ | hsome | hsome
  · cases hname
  · cases hsome
  · cases hsome

namespace Record

theorem recognizes_given {α : Type} {Encodes : Json → α → Prop} {json : Option Json} {x : Except Fault α}
    (hnone : json ≠ none) (hnull : json ≠ some .null) (h : Recognizes (fun a => ∃ found ∈ json, Encodes found a) x) :
    Recognizes (Json.Optionally Encodes json) (x.map some) := by
  refine (h.map some).congr fun a => ?_
  cases a with
  | none => simp [Json.Optionally, hnone, hnull]
  | some a => simp [Json.Optionally]

theorem recognizes_missing {α : Type} {Encodes : Json → α → Prop} (hnull : ∀ a, ¬Encodes .null a)
    {json : Option Json} (h : json = none ∨ json = some .null) :
    Recognizes (Json.Optionally Encodes json) (.ok none) := by
  refine (recognizes_ok none).congr fun a => ?_
  cases a with
  | none => simp [Json.Optionally, h]
  | some a => rcases h with rfl | rfl <;> simp [Json.Optionally, hnull]

theorem recognizes_returnType (json : Option Json) :
    Recognizes (Json.Optionally Ty.Encodes json) (returnType json) := by
  unfold returnType
  split
  · exact recognizes_missing Ty.not_encodes_null (.inl rfl)
  · exact recognizes_missing Ty.not_encodes_null (.inr rfl)
  · rename_i found hne
    exact recognizes_given (by simp) (fun hnull => hne (Option.some.inj hnull)) (recognizes_type (some found))

end Record

/-! ## References -/

structure FieldRef.Encodes (record : Json) (field : FieldRef) : Prop where
  className : record.get? "class" = some (.string field.className)
  name : record.get? "name" = some (.string field.name)
  type : ∃ json ∈ record.get? "type", Ty.Encodes json field.type

structure MethodId.Encodes (record : Json) (method : MethodId) : Prop where
  className : record.get? "class" = some (.string method.className)
  name : record.get? "name" = some (.string method.name)
  params : ∃ items, record.get? "args" = some (.array items) ∧ List.Forall₂ Ty.Encodes items method.params
  returns : Json.Optionally Ty.Encodes (record.get? "returns") method.returns

theorem Json.isObject_of_get? {json value : Json} {key : Text} (h : json.get? key = some value) :
    json.isObject = true := by
  cases json with
  | object => rfl
  | _ => cases h

theorem FieldRef.recognizes_ofJson (json : Option Json) :
    Recognizes (fun field => ∃ record ∈ json, Encodes record field) (ofJson json) := by
  refine ((Record.recognizes_object _ json).bind fun record _ => (Record.recognizes_string "class" record).bind
    fun className _ => (Record.recognizes_string "name" record).bind fun name _ =>
      (Record.recognizes_type (record.get? "type")).bind fun type _ =>
        recognizes_ok (FieldRef.mk className name type)).congr fun field => ?_
  constructor
  · rintro ⟨record, ⟨hrecord, -⟩, className, hclass, name, hname, type, htype, rfl⟩
    exact ⟨record, hrecord, hclass, hname, htype⟩
  · rintro ⟨record, hrecord, h⟩
    exact ⟨record, ⟨hrecord, Json.isObject_of_get? h.className⟩, _, h.className, _, h.name, _, h.type, rfl⟩

theorem MethodId.recognizes_ofJson (json : Option Json) :
    Recognizes (fun method => ∃ record ∈ json, Encodes record method) (ofJson json) := by
  refine ((Record.recognizes_object _ json).bind fun record _ => (Record.recognizes_string "class" record).bind
    fun className _ => (Record.recognizes_string "name" record).bind fun name _ =>
      (Record.recognizes_items "args" record).bind fun items _ => (Record.recognizes_types items).bind
        fun params _ => (Record.recognizes_returnType (record.get? "returns")).bind fun returns _ =>
          recognizes_ok (MethodId.mk className name params returns)).congr fun method => ?_
  constructor
  · rintro ⟨record, ⟨hrecord, -⟩, className, hclass, name, hname, items, hitems, params, hparams, returns, hreturns,
      rfl⟩
    exact ⟨record, hrecord, hclass, hname, ⟨items, hitems, hparams⟩, hreturns⟩
  · rintro ⟨record, hrecord, h⟩
    obtain ⟨items, hitems, hparams⟩ := h.params
    exact ⟨record, ⟨hrecord, Json.isObject_of_get? h.className⟩, _, h.className, _, h.name, items, hitems, _, hparams,
      _, h.returns, rfl⟩

end Bytecode
