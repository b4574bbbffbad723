import Bytecode.Proofs.Encodings
import Bytecode.Proofs.Paths
import Bytecode.Proofs.Registrations
/-!
# Two images of one program

A program can be given as class files in a directory and as registered classes. A
`ClassSource` is a class in both forms, a document and what decoding it gives, and of
`Proper` classes both images have the same: for every method and every class with proper
names, one image answers as the other (`matches_sources`). The directory finds a method by
the first record that fits, the registry by its key.
-/
namespace Bytecode

/-! ## Names -/

/-- The names and types of a method under which both images find it. -/
structure MethodId.Proper (method : MethodId) : Prop where
  className : Path.Proper method.className
  name : CodeUnit.ofChar ':' ∉ method.name
  signature : UnambiguousSignature method.params method.returns

theorem Registry.methodKey_eq (method : MethodId) :
    methodKey method = method.name ++ CodeUnit.ofChar ':' :: method.descriptor := by
  have hcolon : Text.ofString ":" = [CodeUnit.ofChar ':'] := by decide
  simp [methodKey, hcolon]

/-- A key is a name and a descriptor. -/
theorem Registry.methodKey_eq_iff {method other : MethodId} (h : CodeUnit.ofChar ':' ∉ method.name)
    (hother : CodeUnit.ofChar ':' ∉ other.name) :
    methodKey method = methodKey other ↔ method.name = other.name ∧ method.descriptor = other.descriptor := by
  constructor
  · intro heq
    rw [methodKey_eq, methodKey_eq] at heq
    exact Text.append_sep_inj h hother heq
  · rintro ⟨hname, hdescriptor⟩
    rw [methodKey, methodKey, hname, hdescriptor]

/-- Methods with equal descriptors have equally many parameters. -/
theorem MethodId.params_length_eq {method other : MethodId} (h : method.Proper) (hother : other.Proper)
    (heq : method.descriptor = other.descriptor) : method.params.length = other.params.length :=
  congrArg List.length (signatureText_injective h.signature hother.signature heq).1

/-! ## Classes in both forms -/

/-- A value that stands for no constant. -/
def Constant.IsNone (value : Option Constant) : Prop := value = none ∨ value = some .null

/-- Fields that differ at most in how they say that there is no constant. -/
structure FieldInfo.SameAs (field other : FieldInfo) : Prop where
  name : field.name = other.name
  type : field.type = other.type
  isStatic : field.isStatic = other.isStatic
  value : field.value = other.value ∨ Constant.IsNone field.value ∧ Constant.IsNone other.value

/-- The record of a method, with its code in either form. -/
structure MethodId.RecordedBy (record : Json) (method : MethodId) (code : Code) : Prop where
  name : record.get? "name" = some (.string method.name)
  params : ∃ items, Record.items "params" record = .ok items ∧ Record.types items = .ok method.params
  returns : Record.returnType (record.get? "returns") = .ok method.returns
  code : (ClassFile.body record).bind Code.ofJson = .ok code

/-- A class as a document, and the fields and methods that it has. -/
structure ClassSource where
  name : Text
  document : Document
  fields : List FieldInfo
  methods : List (MethodId × Code)

namespace ClassSource

/-- The document is the class file of a class with these fields and methods. -/
structure Decodes (source : ClassSource) (file : ClassFile) : Prop where
  document : ∃ json, source.document.value? = some json ∧ ClassFile.ofJson source.name json = .ok file
  fields : List.Forall₂ FieldInfo.SameAs file.info.fields source.fields
  methods : List.Forall₂ (fun record m => MethodId.RecordedBy record m.1 m.2) file.methods source.methods

/-- A class that decodes, with methods under their proper names and no two of one name and descriptor. -/
structure Proper (source : ClassSource) : Prop where
  name : Path.Proper source.name
  decodes : ∃ file, source.Decodes file
  className : ∀ m ∈ source.methods, m.1.className = source.name
  methods : ∀ m ∈ source.methods, m.1.Proper
  distinct : (source.methods.map fun m => (m.1.name, m.1.descriptor)).Nodup

/-- The class as it is registered. -/
def registrations (source : ClassSource) : List Registration :=
  .fields source.name source.fields :: source.methods.map fun m => .method m.1 m.2

/-- The bodies of the class by the keys of their methods. -/
def bodies (source : ClassSource) : Table Text Code := source.methods.map fun m => (Registry.methodKey m.1, m.2)

end ClassSource

/-- The directory with the classes' documents at their places. -/
def Directory.ofSources (root : Text) (sources : List ClassSource) : Directory :=
  .ofFiles root (sources.map fun source => ((ofFiles root []).classFilePath source.name, source.document))

/-- Proper classes of different names. -/
structure ProperSources (sources : List ClassSource) : Prop where
  proper : ∀ source ∈ sources, source.Proper
  distinct : (sources.map (·.name)).Nodup

/-! ## Records of methods -/

namespace ClassFile

variable {record : Json} {found method : MethodId} {code : Code}

/-- A record fits a method if and only if they have one key. -/
theorem isFor_eq (hrecord : MethodId.RecordedBy record found code) (hfound : found.Proper) (hmethod : method.Proper) :
    isFor method record = .ok (decide (Registry.methodKey found = Registry.methodKey method)) := by
  obtain ⟨items, hitems, htypes⟩ := hrecord.params
  have hlength := ((Record.recognizes_types items).ok_iff _).1 htypes |>.length_eq
  have hkey := Registry.methodKey_eq_iff hfound.name hmethod.name
  unfold isFor
  rw [hrecord.name]
  simp only []
  by_cases hname : found.name = method.name
  · rw [if_pos hname, hitems]
    simp only [bind, Except.bind]
    by_cases hcount : items.length = method.params.length
    · rw [if_pos hcount, htypes, hrecord.returns]
      simp only [hkey, hname, true_and]
      rfl
    · -- Then the descriptors differ too.
      have hdescriptor : found.descriptor ≠ method.descriptor := by
        intro heq
        exact hcount (hlength.trans (MethodId.params_length_eq hfound hmethod heq))
      rw [if_neg hcount]
      simp [hkey, hdescriptor, pure, Except.pure]
  · rw [if_neg hname]
    simp [hkey, hname, pure, Except.pure]

/-- A class file has the body that the class has under the method's key, if there is one. -/
theorem code_eq {file : ClassFile} {methods : List (MethodId × Code)}
    (hrecords : List.Forall₂ (fun record m => MethodId.RecordedBy record m.1 m.2) file.methods methods)
    (hmethods : ∀ m ∈ methods, m.1.Proper) (hmethod : method.Proper) :
    file.code method =
      match Table.get? (Registry.methodKey method) (methods.map fun m => (Registry.methodKey m.1, m.2)) with
        | some code => .ok code
        | none => .error (.image (.methodNotFound method)) := by
  unfold ClassFile.code
  generalize file.methods = records at hrecords ⊢
  induction hrecords with
  | nil => rfl
  | @cons record m records methods hrecord hrest ih =>
    obtain ⟨hm, hrestMethods⟩ := List.forall_mem_cons.1 hmethods
    rw [findMethod, isFor_eq hrecord hm hmethod, List.map_cons, Table.get?]
    by_cases hkey : Registry.methodKey m.1 = Registry.methodKey method
    · simp only [hkey, decide_true, if_true]
      exact hrecord.code
    · simp only [hkey, decide_false, if_false]
      exact ih hrestMethods

end ClassFile

/-! ## Answers of the directory -/

section Answers

variable (root : Text) {sources : List ClassSource}

/-- The file of a proper name is there if and only if a class has the name. -/
theorem Directory.get?_ofSources (h : ProperSources sources) {className : Text} (hname : Path.Proper className)
    (document : Document) :
    Table.get? ((ofSources root sources).classFilePath className) (ofSources root sources).files = some document ↔
      ∃ source ∈ sources, source.name = className ∧ source.document = document := by
  have hinjective : ∀ source ∈ sources, ∀ name, Path.Proper name →
      (ofSources root sources).classFilePath source.name = (ofSources root sources).classFilePath name →
        source.name = name :=
    fun source hsource name hproper heq => classFilePath_injective _ (h.proper source hsource).name hproper heq
  have hkeys : ((ofSources root sources).files.map (·.1)).Nodup := by
    have hpaths : (ofSources root sources).files.map (·.1) =
        (sources.map (·.name)).map fun name => (ofSources root sources).classFilePath name := by
      simp [ofSources, ofFiles, classFilePath]
    rw [hpaths]
    refine List.Nodup.map_on ?_ h.distinct
    rintro _ hone _ htwo heq
    obtain ⟨source, hsource, rfl⟩ := List.mem_map.1 hone
    obtain ⟨other, hother, rfl⟩ := List.mem_map.1 htwo
    exact hinjective source hsource _ (h.proper other hother).name heq
  rw [Table.get?_eq_some_iff hkeys]
  constructor
  · intro hmem
    obtain ⟨source, hsource, heq⟩ := List.mem_map.1 hmem
    obtain ⟨hpath, hdocument⟩ := Prod.mk.inj heq
    exact ⟨source, hsource, hinjective source hsource className hname hpath, hdocument⟩
  · rintro ⟨source, hsource, rfl, rfl⟩
    exact List.mem_map.2 ⟨source, hsource, rfl⟩

/-- A directory without loaded classes answers with the class file of a class that is there. -/
theorem Directory.answer_load_ofSources (h : ProperSources sources) {source : ClassSource} (hsource : source ∈ sources)
    {file : ClassFile} (hfile : source.Decodes file) :
    answer (load source.name (ofSources root sources)) = .ok file := by
  obtain ⟨json, hjson, hread⟩ := hfile.document
  have hget := (get?_ofSources root h (h.proper source hsource).name source.document).2 ⟨source, hsource, rfl, rfl⟩
  rw [answer_load]
  change read source.name (ofSources root sources) = _
  unfold read
  simp only [hget, hjson]
  exact hread

theorem Directory.answer_load_missing (h : ProperSources sources) {className : Text} (hname : Path.Proper className)
    (hmissing : ∀ source ∈ sources, source.name ≠ className) :
    ∃ path, answer (load className (ofSources root sources)) = .error (.image (.classFileNotFound className path)) := by
  have hget : Table.get? ((ofSources root sources).classFilePath className) (ofSources root sources).files = none := by
    cases hsome : Table.get? ((ofSources root sources).classFilePath className) (ofSources root sources).files with
    | none => rfl
    | some document =>
      obtain ⟨source, hsource, heq, -⟩ := (get?_ofSources root h hname document).1 hsome
      exact absurd heq (hmissing source hsource)
  refine ⟨(ofSources root sources).classFilePath className, ?_⟩
  rw [answer_load]
  change read className (ofSources root sources) = _
  unfold read
  simp only [hget]

end Answers

/-! ## Answers of the registry -/

namespace ClassSource

variable {sources : List ClassSource} {source : ClassSource}

/-- Of classes with different names only one tells of a name. -/
theorem flatMap_eq {α : Type} (h : (sources.map (·.name)).Nodup) (hsource : source ∈ sources)
    {f : ClassSource → List α} (hf : ∀ other ∈ sources, other.name ≠ source.name → f other = []) :
    sources.flatMap f = f source := by
  induction sources with
  | nil => cases hsource
  | cons head rest ih =>
    rw [List.map_cons, List.nodup_cons] at h
    rw [List.flatMap_cons]
    rcases List.mem_cons.1 hsource with rfl | hrest
    · -- The others have other names.
      have hnone : rest.flatMap f = [] := by
        refine List.flatMap_eq_nil_iff.2 fun other hother => hf other (List.mem_cons_of_mem _ hother) fun heq => ?_
        exact h.1 (heq ▸ List.mem_map.2 ⟨other, hother, rfl⟩)
      rw [hnone, List.append_nil]
    · have hne : head.name ≠ source.name := by
        intro heq
        exact h.1 (heq ▸ List.mem_map.2 ⟨source, hrest, rfl⟩)
      rw [hf head List.mem_cons_self hne, ih h.2 hrest fun other hother => hf other (List.mem_cons_of_mem _ hother)]
      rfl

theorem className_of_mem_registrations (h : source.Proper) {registration : Registration}
    (hmem : registration ∈ source.registrations) : registration.className = source.name := by
  rcases List.mem_cons.1 hmem with rfl | hmethod
  · rfl
  · obtain ⟨m, hm, rfl⟩ := List.mem_map.1 hmethod
    exact h.className m hm

theorem filterMap_fieldsOf? (source : ClassSource) :
    source.registrations.filterMap (Registration.fieldsOf? source.name) = [source.fields] := by
  have hmethods : (source.methods.map fun m => Registration.method m.1 m.2).filterMap
      (Registration.fieldsOf? source.name) = [] := by
    simp [Registration.fieldsOf?]
  rw [registrations, List.filterMap_cons, hmethods]
  simp [Registration.fieldsOf?]

theorem filterMap_bodyOf? (h : source.Proper) :
    source.registrations.filterMap (Registration.bodyOf? source.name) = source.bodies := by
  have hbodies : source.bodies = source.methods.filterMap (some ∘ fun m => (Registry.methodKey m.1, m.2)) := by
    rw [List.filterMap_eq_map]
    rfl
  rw [registrations, List.filterMap_cons, List.filterMap_map, hbodies]
  refine List.filterMap_congr fun m hm => ?_
  simp [Registration.bodyOf?, h.className m hm]

/-- The methods of a class have different keys. -/
theorem nodup_bodies (h : source.Proper) : (source.bodies.map (·.1)).Nodup := by
  have hkeys : source.bodies.map (·.1) = source.methods.map fun m => Registry.methodKey m.1 := by
    simp [bodies]
  rw [hkeys]
  refine List.Nodup.map_on (fun m hm other hother heq => ?_) (List.Nodup.of_map _ h.distinct)
  obtain ⟨hname, hdescriptor⟩ := (Registry.methodKey_eq_iff (h.methods m hm).name (h.methods other hother).name).1 heq
  exact List.inj_on_of_nodup_map h.distinct hm hother (Prod.ext hname hdescriptor)

/-- What classes of different names register for one of them is its own. -/
theorem filterMap_flatMap_registrations {α : Type} (h : ProperSources sources) (hsource : source ∈ sources)
    {f : Registration → Option α}
    (hf : ∀ registration, registration.className ≠ source.name → f registration = none) :
    (sources.flatMap registrations).filterMap f = source.registrations.filterMap f := by
  rw [List.filterMap_flatMap]
  refine flatMap_eq h.distinct hsource fun other hother hne => ?_
  refine List.filterMap_eq_nil_iff.2 fun registration hregistration => hf registration ?_
  rw [className_of_mem_registrations (h.proper other hother) hregistration]
  exact hne

end ClassSource

section Registered

variable {sources : List ClassSource} {source : ClassSource} {registrations : List Registration}

theorem Registration.fieldsOf?_of_ne {registration : Registration} {className : Text}
    (h : registration.className ≠ className) : registration.fieldsOf? className = none := by
  cases registration with
  | fields other declared => exact if_neg h
  | method m code => rfl

theorem Registration.bodyOf?_of_ne {registration : Registration} {className : Text}
    (h : registration.className ≠ className) : registration.bodyOf? className = none := by
  cases registration with
  | fields other declared => rfl
  | method m code => exact if_neg h

/-- In whatever order classes are registered, one of them has its fields and its bodies. -/
theorem Registry.find_ofRegistrations (h : ProperSources sources)
    (hperm : registrations.Perm (sources.flatMap ClassSource.registrations)) (hsource : source ∈ sources) :
    ∃ known, Registry.find source.name (ofRegistrations registrations) = .ok known ∧ known.fields = source.fields ∧
      ∀ key, Table.get? key known.methods = Table.get? key source.bodies := by
  have hproper := h.proper source hsource
  have hfields : registrations.filterMap (Registration.fieldsOf? source.name) = [source.fields] := by
    have hsame := hperm.filterMap (Registration.fieldsOf? source.name)
    rw [ClassSource.filterMap_flatMap_registrations h hsource fun _ => Registration.fieldsOf?_of_ne,
      source.filterMap_fieldsOf?] at hsame
    exact List.perm_singleton.1 hsame
  have hbodies : (registrations.filterMap (Registration.bodyOf? source.name)).Perm source.bodies := by
    have hsame := hperm.filterMap (Registration.bodyOf? source.name)
    rwa [ClassSource.filterMap_flatMap_registrations h hsource fun _ => Registration.bodyOf?_of_ne,
      ClassSource.filterMap_bodyOf? hproper] at hsame
  have hknown : Registration.Known source.name registrations := by
    refine ⟨.fields source.name source.fields, ?_, rfl⟩
    exact hperm.mem_iff.2 (List.mem_flatMap.2 ⟨source, hsource, List.mem_cons_self⟩)
  refine ⟨_, find_of_known hknown, ?_, fun key => ?_⟩
  · simp [registered_ofRegistrations, hfields]
  · rw [registered_ofRegistrations]
    exact Table.get?_ofEntries_of_perm hbodies (ClassSource.nodup_bodies hproper) key

theorem Registry.find_missing (h : ProperSources sources)
    (hperm : registrations.Perm (sources.flatMap ClassSource.registrations)) {className : Text}
    (hmissing : ∀ source ∈ sources, source.name ≠ className) :
    Registry.find className (ofRegistrations registrations) = .error (.image (.classNotFound className)) := by
  refine find_of_unknown ?_
  rintro ⟨registration, hmem, rfl⟩
  obtain ⟨source, hsource, hregistration⟩ := List.mem_flatMap.1 (hperm.mem_iff.1 hmem)
  exact hmissing source hsource (ClassSource.className_of_mem_registrations (h.proper source hsource) hregistration).symm

end Registered

/-! ## Both -/

/-- Both answered, with like answers, or both failed, with faults of one family. -/
def Alike {α : Type} (V : α → α → Prop) : Except Fault α → Except Fault α → Prop
  | .ok a, .ok b => V a b
  | .error fault, .error fault' => fault.label = fault'.label
  | _, _ => False

/-- Declarations of the same fields. -/
def ClassInfo.SameAs (info other : ClassInfo) : Prop := List.Forall₂ FieldInfo.SameAs info.fields other.fields

/-- Images that answer alike for proper names. -/
structure Image.Matches (image other : Image) : Prop where
  code : ∀ method : MethodId, method.Proper →
    Alike Eq (answer (Image.code method image)) (answer (Image.code method other))
  classInfo : ∀ className, Path.Proper className →
    Alike ClassInfo.SameAs (answer (Image.classInfo className image)) (answer (Image.classInfo className other))

/-- A directory of proper classes and a registry of the same classes answer alike. -/
theorem Image.matches_sources (root : Text) {sources : List ClassSource} (h : ProperSources sources)
    {registrations : List Registration} (hperm : registrations.Perm (sources.flatMap ClassSource.registrations)) :
    Matches (.directory (.ofSources root sources)) (.registry (.ofRegistrations registrations)) where
  code method hmethod := by
    rw [Image.code, Image.code, answer_ofRegistry, (answer_ofDirectory _).1, (Directory.code_eq method _).1]
    by_cases hthere : ∃ source ∈ sources, source.name = method.className
    · obtain ⟨source, hsource, hname⟩ := hthere
      have hproper := h.proper source hsource
      obtain ⟨file, hfile⟩ := hproper.decodes
      obtain ⟨known, hfind, -, hbodies⟩ := Registry.find_ofRegistrations h hperm hsource
      have hload : answer (Directory.load method.className (.ofSources root sources)) = .ok file :=
        hname ▸ Directory.answer_load_ofSources root h hsource hfile
      rw [hload]
      simp only [Except.bind, Registry.code, ← hname, hfind, bind, hbodies,
        ClassFile.code_eq hfile.methods hproper.methods hmethod]
      change Alike Eq (match Table.get? (Registry.methodKey method) source.bodies with
        | some code => .ok code
        | none => .error (.image (.methodNotFound method))) _
      cases Table.get? (Registry.methodKey method) source.bodies <;> rfl
    · have hmissing : ∀ source ∈ sources, source.name ≠ method.className :=
        fun source hsource heq => hthere ⟨source, hsource, heq⟩
      obtain ⟨path, hload⟩ := Directory.answer_load_missing root h hmethod.className hmissing
      rw [hload, Registry.code, Registry.find_missing h hperm hmissing]
      rfl
  classInfo className hname := by
    rw [Image.classInfo, Image.classInfo, answer_ofRegistry, (answer_ofDirectory _).1,
      (Directory.classInfo_eq className _).1]
    by_cases hthere : ∃ source ∈ sources, source.name = className
    · obtain ⟨source, hsource, rfl⟩ := hthere
      obtain ⟨file, hfile⟩ := (h.proper source hsource).decodes
      obtain ⟨known, hfind, hfields, -⟩ := Registry.find_ofRegistrations h hperm hsource
      rw [Directory.answer_load_ofSources root h hsource hfile, Registry.classInfo, hfind]
      change List.Forall₂ FieldInfo.SameAs file.info.fields known.fields
      exact hfields ▸ hfile.fields
    · have hmissing : ∀ source ∈ sources, source.name ≠ className :=
        fun source hsource heq => hthere ⟨source, hsource, heq⟩
      obtain ⟨path, hload⟩ := Directory.answer_load_missing root h hname hmissing
      rw [hload, Registry.classInfo, Registry.find_missing h hperm hmissing]
      rfl

end Bytecode
