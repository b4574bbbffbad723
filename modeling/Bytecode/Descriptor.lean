import Bytecode.Fault
import Bytecode.Text.Blank
/-!
# Reading descriptors and method identifiers

`Ty.ofDescriptor` reads what `Ty.descriptor` writes and `MethodId.parse` what `MethodId.text` writes,
also with dots for the slashes of the class name and with blanks around the two halves.
-/
namespace Bytecode

/-- The type at the front of a descriptor, and what follows it. `whole` is quoted in messages. -/
def Ty.readDescriptor (whole : Text) : Text → Except Fault (Ty × Text)
  | [] => .error (.input (.truncatedDescriptor whole))
  | u :: rest =>
    match Primitive.ofLetter? u with
    | some p => .ok (.primitive p, rest)
    | none =>
      if u = '[' then
        (readDescriptor whole rest).map fun (element, after) => (.array element, after)
      else if u = 'L' then
        match Text.cutFirst ';' rest with
        | some (className, after) => .ok (.object className, after)
        | none => .error (.input (.unterminatedClass whole))
      else .error (.input (.unknownType u whole))

/-- A field descriptor is one type. -/
def Ty.ofDescriptor (t : Text) : Except Fault Ty := do
  let (type, after) ← Ty.readDescriptor t t
  if after.isEmpty then .ok type else .error (.input (.trailingCharacters t))

theorem Text.length_of_cutFirst {sep : CodeUnit} {t before after : Text}
    (h : Text.cutFirst sep t = some (before, after)) : after.length < t.length := by
  induction t generalizing before after with
  | nil => simp [Text.cutFirst] at h
  | cons u rest ih =>
    rw [Text.cutFirst] at h
    split at h
    · simp at h; simp [h]
    · simp only [Option.map_eq_some_iff] at h
      obtain ⟨⟨b, a⟩, hcut, heq⟩ := h
      have := ih hcut
      simp_all
      omega

theorem Ty.length_of_readDescriptor {whole t after : Text} {type : Ty}
    (h : Ty.readDescriptor whole t = .ok (type, after)) : after.length < t.length := by
  induction t generalizing type after with
  | nil => simp [Ty.readDescriptor] at h
  | cons u rest ih =>
    rw [Ty.readDescriptor] at h
    split at h
    · simp at h; simp [h]
    · split at h
      · cases hr : Ty.readDescriptor whole rest with
        | error f => simp [hr, Except.map] at h
        | ok r =>
          obtain ⟨element, rest'⟩ := r
          have := ih hr
          simp [hr, Except.map] at h
          simp_all
          omega
      · split at h
        · split at h
          · rename_i c a hcut
            have := Text.length_of_cutFirst hcut
            simp at h
            simp_all
            omega
          · simp at h
        · simp at h

/-- The parameters up to the closing parenthesis, and what follows it. -/
def readParams (whole t : Text) : Except Fault (List Ty × Text) :=
  if t.head? = some (CodeUnit.ofChar ')') then .ok ([], t.tail)
  else
    match h : Ty.readDescriptor whole t with
    | .error fault => .error fault
    | .ok (param, after) =>
      have : after.length < t.length := Ty.length_of_readDescriptor h
      (readParams whole after).map fun (params, rest) => (param :: params, rest)
termination_by t.length

/-- The parameters and the result that a method descriptor spells. -/
def parseSignature (t : Text) : Except Fault (List Ty × Option Ty) :=
  match Text.dropLead? "(" t with
  | none => .error (.input (.noParameterList t))
  | some inner => do
    let (params, result) ← readParams t inner
    if result = "V" then .ok (params, none)
    else .ok (params, some (← Ty.ofDescriptor result))

/-- A class name with slashes between its packages, given with dots or slashes. -/
def withSlashes (className : Text) : Text :=
  className.map fun (u : CodeUnit) => if u = '.' then CodeUnit.ofChar '/' else u

/-- A qualified name up to the first colon and a descriptor behind it. The name is what follows the
last dot before the colon. -/
def MethodId.parse (t : Text) : Except Fault MethodId :=
  match Text.cutFirst ':' t with
  | none => .error (.input (.noDescriptor t))
  | some (qualified, descriptor) =>
    match Text.cutLast '.' (Text.trim qualified) with
    | none => .error (.input (.notQualified t))
    | some (className, name) =>
      if className.isEmpty || name.isEmpty then .error (.input (.notQualified t))
      else do
        let (params, returns) ← parseSignature (Text.trim descriptor)
        .ok ⟨withSlashes className, name, params, returns⟩

end Bytecode
