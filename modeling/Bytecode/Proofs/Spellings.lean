import Bytecode.Proofs.Identifier
import Bytecode.Proofs.Rows
/-!
# Spellings of types

A type has a value of its own in JSON (`Ty.toJson`) and a descriptor. Class files may
write it in other ways too: with `integer` for `int`, as the `base` of a record, with
members that nothing reads. All of them come to the same type as its own value and its
descriptor, at every depth of arrays (`Ty.encodings_agree`), and nothing else is
taken for a type.
-/
namespace Bytecode

namespace Ty

/-- The value that stands for a type by itself. -/
def toJson : Ty → Json
  | primitive p => .string p.name
  | array element => .object [("kind", .string "array"), ("type", element.toJson)]
  | object className => .object [("kind", .string "class"), ("name", .string className)]

/-- The members of a record that can matter for the type that it encodes. -/
def memberNames : List Text := ["kind", "base", "type", "name"]

theorem encodes_toJson (type : Ty) : Encodes type.toJson type := by
  induction type with
  | primitive p => exact .primitive (.name p)
  | array element ih => exact .array rfl rfl ih
  | object className => exact .object rfl rfl

/-- Other members do not count. -/
theorem Encodes.of_members {record other : Json} {type : Ty} (h : Encodes record type)
    (hobject : record.isObject = true) (hmembers : ∀ key ∈ memberNames, other.get? key = record.get? key) :
    Encodes other type := by
  simp only [memberNames, List.forall_mem_cons] at hmembers
  obtain ⟨hkind, hbase, htype, hname, -⟩ := hmembers
  cases h with
  | primitive hp => cases hp <;> cases hobject
  | base hk hb hp => exact .base (hkind.trans hk) (hbase.trans hb) hp
  | array hk ht helement => exact .array (hkind.trans hk) (htype.trans ht) helement
  | object hk hn => exact .object (hkind.trans hk) (hname.trans hn)

variable {json : Json} {type : Ty}

theorem ofJson_eq_ok_iff : ofJson json = .ok type ↔ Encodes json type := (recognizes_ofJson json).ok_iff type

theorem ofJson_toJson (type : Ty) : ofJson type.toJson = .ok type := ofJson_eq_ok_iff.2 type.encodes_toJson

theorem label_of_ofJson {fault : Fault} (h : ofJson json = .error fault) :
    fault.label = "UnsupportedInstructionError" ∨ fault.label = "MalformedBytecodeError" :=
  ((recognizes_ofJson json).blames fault h).label

/-- What a type's own value encodes is the type. The descriptor of what a value encodes is read
back as the same type, if no class name holds a `;`, so values whose types have one descriptor
encode one type. A value is accepted if and only if it encodes a type, whatever other members its
record has, and every other value is refused as unsupported or as malformed. -/
theorem encodings_agree :
    (∀ type : Ty, ofJson type.toJson = .ok type) ∧
      (∀ json type, ofJson json = .ok type → type.Unambiguous → ofDescriptor type.descriptor = ofJson json) ∧
      (∀ json json' type type', ofJson json = .ok type → ofJson json' = .ok type' → type.Unambiguous →
        type'.Unambiguous → (type.descriptor = type'.descriptor ↔ ofJson json = ofJson json')) ∧
      (∀ json type, ofJson json = .ok type ↔ Encodes json type) ∧
      (∀ record other type, ofJson record = .ok type → record.isObject = true →
        (∀ key ∈ memberNames, other.get? key = record.get? key) → ofJson other = .ok type) ∧
      ∀ json, (∀ type, ¬Encodes json type) → ∃ fault, ofJson json = .error fault ∧
        (fault.label = "UnsupportedInstructionError" ∨ fault.label = "MalformedBytecodeError") := by
  refine ⟨ofJson_toJson, ?_, ?_, fun json type => ofJson_eq_ok_iff, ?_, ?_⟩
  · intro json type hjson h
    rw [hjson, ofDescriptor_descriptor h]
  · intro json json' type type' hjson hjson' h h'
    rw [hjson, hjson', Except.ok.injEq]
    exact ⟨descriptor_injective h h', congrArg descriptor⟩
  · intro record other type hrecord hobject hmembers
    exact ofJson_eq_ok_iff.2 ((ofJson_eq_ok_iff.1 hrecord).of_members hobject hmembers)
  · intro json hnone
    cases hanswer : ofJson json with
    | ok type => exact absurd (ofJson_eq_ok_iff.1 hanswer) (hnone type)
    | error fault => exact ⟨fault, rfl, label_of_ofJson hanswer⟩

end Ty

namespace Sample

/-- An array of arrays of `int`, with the element as a record with a `base`. -/
def integerArrays : List (Text × Json) :=
  [("kind", .string "array"),
    ("type", .object [("type", .object [("base", .string "integer"), ("name", .null)]), ("kind", .string "array")])]

end Sample

open Sample in
/-- The long spelling of a type, also with one more member, comes to what its own value and its descriptor come to. With
a kind that is `null` there is no `base`. -/
theorem integer_arrays_are_int_arrays :
    let type : Ty := .array (.array (.primitive .int))
    let json := Json.object integerArrays
    Ty.ofJson json = .ok type ∧ Ty.ofJson (.object (("dims", .null) :: integerArrays)) = .ok type ∧
      Ty.ofDescriptor "[[I" = Ty.ofJson json ∧ Ty.ofJson json = Ty.ofJson type.toJson ∧
      ∃ fault, Ty.ofJson (.object [("kind", .null), ("base", .string "int")]) = .error fault ∧
        (fault.label = "UnsupportedInstructionError" ∨ fault.label = "MalformedBytecodeError") := by
  intro type json
  obtain ⟨hown, hdescriptor, hagree, haccepted, hothers, hrefused⟩ := Ty.encodings_agree
  have hjson : Ty.ofJson json = .ok type := rfl
  have hdims : ∀ key ∈ Ty.memberNames, ("dims" : Text) ≠ key := by decide
  refine ⟨hjson, hothers _ _ _ hjson rfl fun key hkey => if_neg (hdims key hkey), hdescriptor _ _ hjson trivial,
    (hagree _ _ type type hjson (hown type) trivial trivial).1 rfl, ?_⟩
  refine hrefused _ fun found h => ?_
  have hanswer := (haccepted _ _).2 h
  cases hanswer

end Bytecode
