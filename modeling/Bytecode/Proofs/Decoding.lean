import Bytecode.Proofs.Lookup
import Bytecode.Proofs.Rows
import Bytecode.Proofs.Values
/-!
# What decoding gives

Everything that a run learns of its program comes out of an image, and an image
that cannot answer reports one of few kinds of faults (`Fault.OfImage`): something
is not there, a record has the wrong shape, or it stands for something that the
machine does not do. `Decodes Q` says this of a decoder together with what holds
of its results. Of code it is that no instruction pushes anything but scalars
and null (`decodes_code`).
-/
namespace Bytecode

/-- What an image can report. -/
def Fault.OfImage : Fault → Prop
  | .unsupported _ | .image _ => True
  | .malformed cause => cause.OfRecord
  | _ => False

theorem Fault.OfRecord.ofImage {fault : Fault} (h : fault.OfRecord) : fault.OfImage := by
  cases fault with
  | unsupported => trivial
  | malformed => exact h
  | _ => exact h.elim

/-- A fault that an image can report, or a result of the given kind. -/
def Decodes {α : Type} (Q : α → Prop) : Except Fault α → Prop
  | .ok a => Q a
  | .error fault => fault.OfImage

/-- A decoder of which only the faults matter. -/
abbrev Reads {α : Type} (x : Except Fault α) : Prop := Decodes (fun _ => True) x

section Combining

variable {α β : Type} {P : α → Prop} {Q : β → Prop}

theorem Decodes.bind {x : Except Fault α} {f : α → Except Fault β} (hx : Decodes P x)
    (hf : ∀ a, P a → Decodes Q (f a)) : Decodes Q (x >>= f) := by
  cases x with
  | ok a => exact hf a hx
  | error fault => exact hx

theorem Decodes.map {x : Except Fault α} {f : α → β} (hx : Decodes P x) (hf : ∀ a, P a → Q (f a)) :
    Decodes Q (x.map f) := by
  cases x with
  | ok a => exact hf a hx
  | error fault => exact hx

theorem Decodes.mono {x : Except Fault α} {P' : α → Prop} (hx : Decodes P x) (h : ∀ a, P a → P' a) :
    Decodes P' x := by
  cases x with
  | ok a => exact h a hx
  | error fault => exact hx

theorem decodes_mapM {f : α → Except Fault β} (h : ∀ a, Decodes Q (f a)) (items : List α) :
    Decodes (fun results => ∀ b ∈ results, Q b) (items.mapM f) := by
  induction items with
  | nil =>
    intro b hb
    exact absurd hb List.not_mem_nil
  | cons a rest ih =>
    rw [List.mapM_cons]
    exact (h a).bind fun b hb => ih.bind fun bs hbs => List.forall_mem_cons.2 ⟨hb, hbs⟩

/-- What an exact reader of records answers has the property that it recognizes. -/
theorem Recognizes.decodes {x : Except Fault α} (hx : Recognizes P x) : Decodes P x := by
  cases hanswer : x with
  | ok a => exact (hx.ok_iff a).1 hanswer
  | error fault => exact (hx.blames fault hanswer).ofImage

theorem Recognizes.reads {x : Except Fault α} (hx : Recognizes P x) : Reads x :=
  hx.decodes.mono fun _ _ => trivial

end Combining

/-! ## Constants -/

namespace Value

theorem char_eq_narrow (u : CodeUnit) : char u.toNat = narrow .char u.toNat := by
  have hunit : (u.toNat : Int) < pow2 16 := by exact_mod_cast u.toNat_lt
  rw [narrow_char, Int.emod_eq_of_lt (Int.natCast_nonneg _) hunit]

theorem boolean_eq_narrow (b : Bool) : boolean b = narrow .boolean (if b then 1 else 0) := by
  cases b <;> rfl

/-- A constant stands for a scalar of its type. -/
theorem ofConstant_eq_narrow (p : Primitive) (c : Constant) : ∃ n, ofConstant p c = narrow p n := by
  unfold ofConstant
  split
  · exact ⟨_, boolean_eq_narrow _⟩
  · exact ⟨_, boolean_eq_narrow _⟩
  · exact ⟨_, rfl⟩
  · exact ⟨_, rfl⟩

theorem within_default (size : Nat) (type : Ty) : (default type).Within size := by
  cases type with
  | primitive p => exact .scalar p 0
  | _ => exact .null

theorem within_ofConstant (size : Nat) (p : Primitive) (c : Constant) : (ofConstant p c).Within size := by
  obtain ⟨n, hn⟩ := ofConstant_eq_narrow p c
  exact hn ▸ .scalar p n

end Value

/-! ## Instructions -/

/-- The instruction pushes nothing but scalars and null. -/
def Instruction.Plain : Instruction → Prop
  | .push v => v.Within 0
  | _ => True

theorem Value.Encodes.within {json : Json} {v : Value} (h : Encodes json v) : v.Within 0 := by
  cases h with
  | null => exact .null
  | scalar => exact within_ofConstant 0 _ _

theorem Instruction.Encodes.plain {record : Json} {i : Instruction} (h : Encodes record i) : i.Plain := by
  cases i with
  | push v =>
    obtain ⟨json, -, hv⟩ := h.operands
    exact hv.within
  | _ => trivial

/-- No instruction of decoded code pushes anything but scalars and null. -/
theorem decodes_code (records : List Json) : Decodes (fun code => ∀ i ∈ code, i.Plain) (Code.ofJson records) := by
  have hplain : ∀ json, Decodes Instruction.Plain (Instruction.ofJson json) := fun json =>
    (Instruction.recognizes_ofJson json).decodes.mono fun _ => Instruction.Encodes.plain
  refine (decodes_mapM hplain records).map fun instructions h i hi => ?_
  exact h i (List.mem_toArray.1 hi)

/-! ## Class files -/

/-- The code comes out of the decoder. -/
def Code.Decoded (code : Code) : Prop := ∃ records, Code.ofJson records = .ok code

theorem Code.Decoded.plain {code : Code} (h : code.Decoded) : ∀ i ∈ code, i.Plain := by
  obtain ⟨records, hrecords⟩ := h
  have hdecodes := decodes_code records
  rw [hrecords] at hdecodes
  exact hdecodes

namespace ClassFile

theorem reads_field (className : Text) (json : Json) : Reads (field className json) := by
  have hconstant : ∀ name json, Reads (constant className name json) := by
    intro name json
    unfold constant
    split
    · trivial
    · trivial
    · split <;> trivial
  refine (Record.recognizes_object _ _).reads.bind fun record _ => ?_
  refine (Record.recognizes_string _ _).reads.bind fun name _ => ?_
  exact (hconstant _ _).bind fun value _ => (Record.recognizes_type _).reads.bind fun type _ => trivial

theorem reads_optionalItems (key : Text) (record : Json) : Reads (optionalItems key record) := by
  unfold optionalItems
  split
  · trivial
  · exact (Record.recognizes_items key record).reads

theorem reads_ofJson (className : Text) (json : Json) : Reads (ofJson className json) := by
  refine (Record.recognizes_object _ _).reads.bind fun record _ => (reads_optionalItems _ _).bind fun fields _ => ?_
  refine (decodes_mapM (reads_field _) fields).bind fun infos _ => (reads_optionalItems _ _).bind fun methods _ => ?_
  exact (decodes_mapM (fun m => (Record.recognizes_object _ _).reads) methods).bind fun records _ => trivial

theorem reads_isFor (method : MethodId) (record : Json) : Reads (isFor method record) := by
  unfold isFor
  split
  · split
    · refine (Record.recognizes_items _ _).reads.bind fun params _ => ?_
      split
      · refine (Record.recognizes_types _).reads.bind fun params _ => ?_
        exact (Record.recognizes_returnType _).reads.bind fun returns _ => trivial
      · trivial
    · trivial
  · trivial

theorem reads_findMethod (method : MethodId) (records : List Json) : Reads (findMethod method records) := by
  induction records with
  | nil => trivial
  | cons record records ih =>
    refine (reads_isFor method record).bind fun found _ => ?_
    split
    · trivial
    · exact ih

theorem recognizes_body (record : Json) :
    Recognizes (fun items => record.get? "code" = some (.array items) ∨
      ∃ inner ∈ record.get? "code", inner.get? "bytecode" = some (.array items)) (body record) := by
  unfold body
  split
  · rename_i items hget
    have hnone : (Json.array items).get? "bytecode" = none := rfl
    exact (recognizes_ok items).congr fun items' => by simp [hget, hnone]
  · rename_i hother
    refine ((Record.recognizes_object _ _).bind fun inner _ => Record.recognizes_items _ inner).congr fun items => ?_
    constructor
    · rintro ⟨inner, ⟨hinner, -⟩, hitems⟩
      exact .inr ⟨inner, hinner, hitems⟩
    · rintro (harray | ⟨inner, hinner, hitems⟩)
      · exact absurd harray (hother items)
      · exact ⟨inner, ⟨hinner, Json.isObject_of_get? hitems⟩, hitems⟩

theorem decodes_code (method : MethodId) (file : ClassFile) : Decodes Code.Decoded (file.code method) := by
  refine (reads_findMethod method file.methods).bind fun found _ => ?_
  split
  · refine (recognizes_body _).reads.bind fun records _ => ?_
    -- These are records of instructions, so a fault in them is one of the image.
    have hreads := (Bytecode.decodes_code records).mono fun _ _ => trivial
    cases hcode : Code.ofJson records with
    | ok code => exact ⟨records, hcode⟩
    | error fault =>
      rw [hcode] at hreads
      exact hreads
  · trivial

end ClassFile

/-! ## Images -/

theorem Directory.reads_load (className : Text) (directory : Directory) :
    Reads (answer (load className directory)) := by
  rw [answer_load]
  split
  · trivial
  · unfold read
    simp only []
    split
    · trivial
    · split
      · trivial
      · exact ClassFile.reads_ofJson _ _

theorem Registry.reads_find (className : Text) (registry : Registry) : Reads (registry.find className) := by
  unfold find
  split <;> trivial

theorem Registry.reads_code (method : MethodId) (registry : Registry) : Reads (registry.code method) := by
  refine (reads_find _ registry).bind fun known _ => ?_
  split <;> trivial

namespace Image

/-- All code that the image answers with comes out of the decoder. -/
def Decoded (image : Image) : Prop := ∀ method code, answer (Image.code method image) = .ok code → code.Decoded

/-- A directory decodes what it answers with. -/
theorem decoded_directory (directory : Directory) : Decoded (.directory directory) := by
  intro method code hcode
  have hdecodes := (Directory.reads_load method.className directory).bind fun file _ =>
    ClassFile.decodes_code method file
  rw [Image.code, (answer_ofDirectory _).1, (Directory.code_eq method directory).1] at hcode
  change Decodes Code.Decoded ((answer (Directory.load method.className directory)).bind _) at hdecodes
  rw [hcode] at hdecodes
  exact hdecodes

/-- A registry has decoded code if all that was registered is. -/
theorem decoded_registry {registry : Registry} (h : ∀ code ∈ registry.bodies, code.Decoded) :
    Decoded (.registry registry) := by
  intro method code hcode
  rw [Image.code, answer_ofRegistry] at hcode
  exact h code (Registry.mem_bodies hcode)

/-- All code that was registered comes out of the decoder. Where code is read from class files, nothing
was registered. -/
def RegistersDecoded : Image → Prop
  | registry r => Decoded (registry r)
  | directory _ => True

theorem RegistersDecoded.decoded {image : Image} (h : image.RegistersDecoded) : image.Decoded := by
  cases image with
  | registry r => exact h
  | directory d => exact decoded_directory d

theorem Decoded.of_agrees {image image' : Image} (h : image.Decoded) (hagree : Agrees image image') : image'.Decoded :=
  fun method code hcode => h method code ((hagree.code method).symm.trans hcode)

theorem reads_code (method : MethodId) (image : Image) : Reads (answer (Image.code method image)) := by
  cases image with
  | registry r =>
    rw [Image.code, answer_ofRegistry]
    exact Registry.reads_code method r
  | directory d =>
    rw [Image.code, (answer_ofDirectory _).1, (Directory.code_eq method d).1]
    refine (Directory.reads_load method.className d).bind fun file _ => ?_
    exact (ClassFile.decodes_code method file).mono fun _ _ => trivial

theorem reads_classInfo (className : Text) (image : Image) : Reads (answer (Image.classInfo className image)) := by
  cases image with
  | registry r =>
    rw [Image.classInfo, answer_ofRegistry]
    exact (Registry.reads_find className r).bind fun known _ => trivial
  | directory d =>
    rw [Image.classInfo, (answer_ofDirectory _).1, (Directory.classInfo_eq className d).1]
    exact (Directory.reads_load className d).map fun file _ => trivial

end Image

/-! ## Stores -/

/-- All code that the store keeps or can get comes out of the decoder. -/
structure Store.Decoded (store : Store) : Prop where
  image : store.image.Decoded
  methods : Table.All Code.Decoded store.methods

namespace Store

variable {store : Store}

theorem decoded_ofImage {image : Image} (h : image.Decoded) : Decoded (ofImage image) :=
  ⟨h, fun _ hentry => absurd hentry List.not_mem_nil⟩

theorem Decoded.code (h : store.Decoded) (method : MethodId) :
    Decodes Code.Decoded (answer (Store.code method store)) ∧ Decoded (final (Store.code method store)) := by
  rw [code_apply]
  cases hget : Table.get? method.text store.methods with
  | some code => exact ⟨h.methods.get? hget, h⟩
  | none =>
    have hreads := Image.reads_code method store.image
    have himage := h.image.of_agrees (Image.agrees_code method store.image)
    cases hcode : Image.code method store.image with
    | error fault image =>
      rw [hcode] at hreads himage
      exact ⟨hreads, himage, h.methods⟩
    | ok code image =>
      have hdecoded : code.Decoded := h.image method code (by rw [hcode]; rfl)
      rw [hcode] at himage
      exact ⟨hdecoded, himage, h.methods.insert _ hdecoded⟩

theorem Decoded.fetch (h : store.Decoded) (pc : ProgramCounter) : Decoded (final (Store.fetch pc store)) := by
  rw [(fetch_eq pc store).2]
  exact (h.code pc.method).2

theorem Decoded.plain_of_fetch (h : store.Decoded) {pc : ProgramCounter} {i : Instruction} {store' : Store}
    (hfetch : Store.fetch pc store = .ok i store') : i.Plain := by
  obtain ⟨body, hbody, hinstruction⟩ := fetch_eq_ok.1 hfetch
  have hdecodes := (h.code pc.method).1
  rw [hbody] at hdecodes
  exact Code.Decoded.plain hdecodes i (mem_of_instruction? hinstruction)

/-- A fetch fails with what the image reports, or because there is no such instruction. -/
theorem Decoded.fault_of_fetch (h : store.Decoded) {pc : ProgramCounter} {fault : Fault} {store' : Store}
    (hfetch : Store.fetch pc store = .error fault store') :
    fault.OfImage ∨ ∃ length, fault = .malformed (.offTheEnd pc length) := by
  rcases fetch_eq_error.1 hfetch with hcode | ⟨body, -, -, rfl⟩
  · have hdecodes := (h.code pc.method).1
    rw [hcode] at hdecodes
    exact .inl hdecodes
  · exact .inr ⟨_, rfl⟩

theorem reads_classInfo (className : Text) (store : Store) : Reads (answer (classInfo className store)) := by
  rw [classInfo_apply]
  cases Table.get? className store.classes with
  | some info => trivial
  | none =>
    have hreads := Image.reads_classInfo className store.image
    cases hinfo : Image.classInfo className store.image with
    | error fault image => rw [hinfo] at hreads; exact hreads
    | ok info image => trivial

theorem Decoded.classInfo (h : store.Decoded) (className : Text) :
    Decoded (final (Store.classInfo className store)) := by
  rw [classInfo_apply]
  cases Table.get? className store.classes with
  | some info => exact h
  | none =>
    have himage := h.image.of_agrees (Image.agrees_classInfo className store.image)
    cases hinfo : Image.classInfo className store.image with
    | error fault image => rw [hinfo] at himage; exact ⟨himage, h.methods⟩
    | ok info image => rw [hinfo] at himage; exact ⟨himage, h.methods⟩

/-- What a static field holds before it is written is a scalar or null. -/
theorem decodes_staticValue (field : FieldRef) (store : Store) :
    Decodes (Value.Within 0) (answer (staticValue field store)) := by
  rw [(staticValue_eq field store).1]
  refine (reads_classInfo field.className store).bind fun info _ => ?_
  unfold initialStatic
  split
  · trivial
  · split
    · exact Value.within_default 0 _
    · exact Value.within_default 0 _
    · exact Value.within_ofConstant 0 _ _
    · trivial

end Store

end Bytecode
