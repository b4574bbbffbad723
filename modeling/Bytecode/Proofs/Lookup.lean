import Bytecode.Proofs.Identifier
import Bytecode.Store
/-!
# Lookups do not change what is looked up

Images and stores keep what they found. We prove that this shows in no answer:
an image answers the same question alike before and after any other
(`Image.agrees_code`, `Image.agrees_classInfo`), and a store that is `Faithful`
to an image answers as the image does and stays faithful. A store that fetched
nothing is faithful to its image. Method bodies are kept by the texts of their
identifiers, so the statements about them ask for unambiguous ones.
-/
namespace Bytecode

section Results

variable {ε σ α β : Type}

/-- What an action answers, whatever state it leaves. -/
def answer : EStateM.Result ε σ α → Except ε α
  | .ok a _ => .ok a
  | .error e _ => .error e

/-- The state an action leaves, whatever it answers. -/
def final : EStateM.Result ε σ α → σ
  | .ok _ s => s
  | .error _ s => s

theorem bind_apply (x : EStateM ε σ α) (f : α → EStateM ε σ β) (s : σ) :
    (x >>= f) s = match x s with
      | .ok a s' => f a s'
      | .error e s' => .error e s' := rfl

theorem bind_eq_ok {x : EStateM ε σ α} {f : α → EStateM ε σ β} {s s'' : σ} {b : β} :
    (x >>= f) s = .ok b s'' ↔ ∃ a s', x s = .ok a s' ∧ f a s' = .ok b s'' := by
  rw [bind_apply]
  cases x s with
  | ok a s' =>
    constructor
    · intro h
      exact ⟨a, s', rfl, h⟩
    · rintro ⟨_, _, ⟨rfl, rfl⟩, h⟩
      exact h
  | error e s' => simp

theorem bind_of_ok {x : EStateM ε σ α} {f : α → EStateM ε σ β} {s s' : σ} {a : α} (h : x s = .ok a s') :
    (x >>= f) s = f a s' := by
  rw [bind_apply, h]

theorem answer_eq_ok {r : EStateM.Result ε σ α} {a : α} (h : answer r = .ok a) : ∃ s, r = .ok a s := by
  cases r with
  | ok b s => cases h; exact ⟨s, rfl⟩
  | error e s => cases h

end Results

/-! ## Directories -/

theorem ClassFile.mem_of_findMethod {method : MethodId} {records : List Json} {record : Json}
    (h : findMethod method records = .ok (some record)) : record ∈ records := by
  induction records with
  | nil => cases h
  | cons head rest ih =>
    unfold findMethod at h
    cases hfor : isFor method head with
    | error fault => rw [hfor] at h; cases h
    | ok found =>
      rw [hfor] at h
      cases found with
      | true => cases h; exact List.mem_cons_self
      | false => exact List.mem_cons_of_mem _ (ih h)

namespace Directory

theorem answer_load (className : Text) (directory : Directory) :
    answer (load className directory) =
      match Table.get? className directory.loaded with
        | some file => .ok file
        | none => directory.read className := by
  unfold load
  cases Table.get? className directory.loaded with
  | some file => rfl
  | none => cases directory.read className <;> rfl

/-- Loading a class changes nothing but that a class read for the first time is kept. -/
theorem final_load (className : Text) (directory : Directory) :
    final (load className directory) = directory ∨
      ∃ file, Table.get? className directory.loaded = none ∧ directory.read className = .ok file ∧
        final (load className directory) =
          { directory with loaded := Table.insert className file directory.loaded } := by
  unfold load
  cases hget : Table.get? className directory.loaded with
  | some file => exact .inl rfl
  | none =>
    cases hread : directory.read className with
    | ok file => exact .inr ⟨file, rfl, rfl, rfl⟩
    | error fault => exact .inl rfl

/-- Loading a class changes the answer for no class, also not for its own. -/
theorem answer_load_final (className other : Text) (directory : Directory) :
    answer (load other (final (load className directory))) = answer (load other directory) := by
  rcases final_load className directory with h | ⟨file, hget, hread, h⟩ <;> rw [h]
  rw [answer_load, answer_load]
  by_cases hsame : other = className
  · subst hsame
    simp [hget, hread]
  · simp only [Table.get?_insert_of_ne hsame]
    rfl

theorem code_eq (method : MethodId) (directory : Directory) :
    answer (code method directory) = (answer (load method.className directory)).bind (·.code method) ∧
      final (code method directory) = final (load method.className directory) := by
  unfold code
  rw [bind_apply]
  cases load method.className directory with
  | error fault d => exact ⟨rfl, rfl⟩
  | ok file d =>
    simp only [answer, Except.bind]
    cases file.code method <;> exact ⟨rfl, rfl⟩

theorem classInfo_eq (className : Text) (directory : Directory) :
    answer (classInfo className directory) = (answer (load className directory)).map (·.info) ∧
      final (classInfo className directory) = final (load className directory) := by
  unfold classInfo
  rw [bind_apply]
  cases load className directory <;> exact ⟨rfl, rfl⟩

end Directory

/-! ## Registries -/

/-- All bodies that are registered. -/
def Registry.bodies (registry : Registry) : List Code :=
  registry.classes.flatMap fun known => known.2.methods.map (·.2)

theorem Registry.mem_bodies {registry : Registry} {method : MethodId} {code : Code}
    (h : registry.code method = .ok code) : code ∈ registry.bodies := by
  unfold Registry.code Registry.find at h
  cases hclass : Table.get? method.className registry.classes with
  | none => rw [hclass] at h; cases h
  | some known =>
    rw [hclass] at h
    simp only [bind, Except.bind] at h
    cases hmethod : Table.get? (methodKey method) known.methods with
    | none => rw [hmethod] at h; cases h
    | some found =>
      rw [hmethod] at h
      cases h
      exact List.mem_flatMap.2 ⟨_, Table.mem_of_get? hclass, List.mem_map.2 ⟨_, Table.mem_of_get? hmethod, rfl⟩⟩

/-! ## Images -/

/-- Two images that answer every question alike. -/
structure Image.Agrees (image other : Image) : Prop where
  code : ∀ method, answer (Image.code method other) = answer (Image.code method image)
  classInfo : ∀ className, answer (Image.classInfo className other) = answer (Image.classInfo className image)

namespace Image

theorem agrees_refl (image : Image) : Agrees image image := ⟨fun _ => rfl, fun _ => rfl⟩

theorem Agrees.trans {image image' image'' : Image} (h : Agrees image image') (h' : Agrees image' image'') :
    Agrees image image'' :=
  ⟨fun method => (h'.code method).trans (h.code method),
    fun className => (h'.classInfo className).trans (h.classInfo className)⟩

theorem Agrees.symm {image image' : Image} (h : Agrees image image') : Agrees image' image :=
  ⟨fun method => (h.code method).symm, fun className => (h.classInfo className).symm⟩

/-- Images that agree with images that agree do so themselves. -/
theorem Agrees.of_agrees {image image' other other' : Image} (h : Agrees image other) (himage : Agrees image image')
    (hother : Agrees other other') : Agrees image' other' :=
  himage.symm.trans (h.trans hother)

theorem answer_ofDirectory {α : Type} (result : EStateM.Result Fault Directory α) :
    answer (ofDirectory result) = answer result ∧ final (ofDirectory result) = .directory (final result) := by
  cases result <;> exact ⟨rfl, rfl⟩

theorem answer_ofRegistry {α : Type} (r : Registry) (result : Except Fault α) :
    answer (ofRegistry r result) = result := by
  cases result <;> rfl

theorem final_ofRegistry {α : Type} (r : Registry) (result : Except Fault α) :
    final (ofRegistry r result) = .registry r := by
  cases result <;> rfl

/-- Directories whose loading answers alike are images that agree. -/
theorem agrees_of_load {d d' : Directory}
    (h : ∀ className, answer (Directory.load className d') = answer (Directory.load className d)) :
    Agrees (.directory d) (.directory d') where
  code method := by
    simp only [Image.code, answer_ofDirectory, Directory.code_eq, h]
  classInfo className := by
    simp only [Image.classInfo, answer_ofDirectory, Directory.classInfo_eq, h]

/-- Fetching a body leaves an image that answers as before. -/
theorem agrees_code (method : MethodId) (image : Image) : Agrees image (final (Image.code method image)) := by
  cases image with
  | registry r =>
    simp only [Image.code, final_ofRegistry]
    exact agrees_refl _
  | directory d =>
    simp only [Image.code, answer_ofDirectory, Directory.code_eq]
    exact agrees_of_load fun className => Directory.answer_load_final _ className d

/-- Fetching a declaration leaves an image that answers as before. -/
theorem agrees_classInfo (className : Text) (image : Image) :
    Agrees image (final (Image.classInfo className image)) := by
  cases image with
  | registry r =>
    simp only [Image.classInfo, final_ofRegistry]
    exact agrees_refl _
  | directory d =>
    simp only [Image.classInfo, answer_ofDirectory, Directory.classInfo_eq]
    exact agrees_of_load fun other => Directory.answer_load_final className other d

/-- A body comes out of a method's record in one of the files. -/
theorem code_ofFiles {root : Text} {files : Table Text Document} {method : MethodId} {code : Code}
    (h : answer (Image.code method (.directory (.ofFiles root files))) = .ok code) :
    ∃ entry ∈ files, ∃ json file record, entry.2.value? = some json ∧
      ClassFile.ofJson method.className json = .ok file ∧ record ∈ file.methods ∧
      (ClassFile.body record).bind Code.ofJson = .ok code := by
  rw [Image.code, (answer_ofDirectory _).1, (Directory.code_eq method _).1, Directory.answer_load] at h
  simp only [Directory.ofFiles, Table.get?_nil] at h
  unfold Directory.read at h
  simp only [] at h
  split at h
  · cases h
  · rename_i document hfile
    split at h
    · cases h
    · rename_i json hjson
      cases hread : ClassFile.ofJson method.className json with
      | error fault => rw [hread] at h; cases h
      | ok file =>
        rw [hread] at h
        simp only [Except.bind, ClassFile.code] at h
        cases hfind : ClassFile.findMethod method file.methods with
        | error fault => rw [hfind] at h; cases h
        | ok found =>
          rw [hfind] at h
          cases found with
          | none => cases h
          | some record =>
            exact ⟨_, Table.mem_of_get? hfile, json, file, record, hjson, hread, ClassFile.mem_of_findMethod hfind, h⟩

end Image

/-! ## Stores -/

/-- A store over an image that agrees with a given one, all that it keeps being
answers of that image. -/
structure Store.Faithful (image : Image) (store : Store) : Prop where
  agrees : Image.Agrees image store.image
  methods : ∀ method code, method.Unambiguous → Table.get? method.text store.methods = some code →
    answer (Image.code method image) = .ok code
  classes : ∀ className info, Table.get? className store.classes = some info →
    answer (Image.classInfo className image) = .ok info

/-- What a faithful store is where only declarations matter: its image agrees with
a given one, and all declarations that it keeps are answers of that image. -/
structure Store.Knows (image : Image) (store : Store) : Prop where
  agrees : Image.Agrees image store.image
  classes : ∀ className info, Table.get? className store.classes = some info →
    answer (Image.classInfo className image) = .ok info

namespace Store

variable {image : Image} {store : Store}

theorem Faithful.knows (h : Faithful image store) : Knows image store := ⟨h.agrees, h.classes⟩

theorem faithful_ofImage (image : Image) : Faithful image (ofImage image) where
  agrees := Image.agrees_refl image
  methods _ _ _ h := by simp [ofImage] at h
  classes _ _ h := by simp [ofImage] at h

/-- Images that agree have the same faithful stores. -/
theorem Faithful.of_agrees {image' : Image} (h : Faithful image' store) (hagree : Image.Agrees image image') :
    Faithful image store where
  agrees := hagree.trans h.agrees
  methods method code hm hget := (hagree.code method).symm.trans (h.methods method code hm hget)
  classes className info hget := (hagree.classInfo className).symm.trans (h.classes className info hget)

/-! ### Fetching bodies -/

theorem code_apply (method : MethodId) (store : Store) :
    code method store =
      match Table.get? method.text store.methods with
        | some code => .ok code store
        | none =>
          match Image.code method store.image with
            | .ok code image =>
              .ok code { store with image, methods := Table.insert method.text code store.methods }
            | .error fault image => .error fault { store with image } := by
  unfold code
  rw [bind_apply]
  change (match Table.get? method.text store.methods with
    | some code => pure code
    | none => _ : EStateM Fault Store Code) store = _
  cases Table.get? method.text store.methods with
  | some code => rfl
  | none =>
    simp only [bind_apply, onImage]
    cases Image.code method store.image <;> rfl

/-- A faithful store answers for a method's body as the image does, and stays faithful. -/
theorem Faithful.code (h : Faithful image store) {method : MethodId} (hm : method.Unambiguous) :
    answer (Store.code method store) = answer (Image.code method image) ∧
      Faithful image (final (Store.code method store)) := by
  rw [code_apply]
  cases hget : Table.get? method.text store.methods with
  | some code => exact ⟨(h.methods method code hm hget).symm, h⟩
  | none =>
    have hsame := h.agrees.code method
    have hagrees := h.agrees.trans (Image.agrees_code method store.image)
    cases himage : Image.code method store.image with
    | error fault image' =>
      rw [himage] at hsame hagrees
      exact ⟨hsame, hagrees, h.methods, h.classes⟩
    | ok code image' =>
      rw [himage] at hsame hagrees
      refine ⟨hsame, hagrees, fun other code' hother hget' => ?_, h.classes⟩
      change Table.get? other.text (Table.insert method.text code store.methods) = some code' at hget'
      by_cases htext : other.text = method.text
      · -- Only the method itself has its text.
        obtain rfl := MethodId.text_injective hother hm htext
        simp only [Table.get?_insert_self, Option.some.injEq] at hget'
        exact hget' ▸ hsame.symm
      · rw [Table.get?_insert_of_ne htext] at hget'
        exact h.methods other code' hother hget'

theorem mem_of_instruction? {code : Code} {offset : Number} {instruction : Instruction}
    (h : instruction? code offset = some instruction) : instruction ∈ code := by
  unfold instruction? at h
  split at h
  · split at h
    · exact Array.mem_of_getElem? h
    · cases h
  · cases h

theorem fetch_apply (pc : ProgramCounter) (store : Store) :
    fetch pc store =
      match code pc.method store with
        | .ok code store' =>
          match instruction? code pc.offset with
            | some instruction => .ok instruction store'
            | none => .error (.malformed (.offTheEnd pc code.size)) store'
        | .error fault store' => .error fault store' := by
  unfold fetch
  rw [bind_apply]
  cases code pc.method store with
  | error fault store' => rfl
  | ok code store' =>
    simp only []
    cases instruction? code pc.offset <;> rfl

theorem fetch_eq_ok {pc : ProgramCounter} {store store' : Store} {instruction : Instruction} :
    fetch pc store = .ok instruction store' ↔
      ∃ body, code pc.method store = .ok body store' ∧ instruction? body pc.offset = some instruction := by
  rw [fetch_apply]
  cases code pc.method store with
  | error fault s => simp
  | ok body s => cases hinstruction : instruction? body pc.offset <;> grind

theorem fetch_eq_error {pc : ProgramCounter} {store store' : Store} {fault : Fault} :
    fetch pc store = .error fault store' ↔
      code pc.method store = .error fault store' ∨
        ∃ body, code pc.method store = .ok body store' ∧ instruction? body pc.offset = none ∧
          fault = .malformed (.offTheEnd pc body.size) := by
  rw [fetch_apply]
  cases code pc.method store with
  | error f s => simp
  | ok body s => cases hinstruction : instruction? body pc.offset <;> grind

theorem fetch_eq (pc : ProgramCounter) (store : Store) :
    answer (fetch pc store) = (answer (code pc.method store)).bind (fun code =>
        match instruction? code pc.offset with
          | some instruction => .ok instruction
          | none => .error (.malformed (.offTheEnd pc code.size))) ∧
      final (fetch pc store) = final (code pc.method store) := by
  rw [fetch_apply]
  cases code pc.method store with
  | error fault store' => exact ⟨rfl, rfl⟩
  | ok code store' =>
    simp only [answer, Except.bind]
    cases instruction? code pc.offset <;> exact ⟨rfl, rfl⟩

/-- A faithful store fetches what a fresh one does, and stays faithful. -/
theorem Faithful.fetch (h : Faithful image store) {pc : ProgramCounter} (hm : pc.method.Unambiguous) :
    answer (Store.fetch pc store) = answer (Store.fetch pc (ofImage image)) ∧
      Faithful image (final (Store.fetch pc store)) := by
  simp only [fetch_eq, h.code hm, (faithful_ofImage image).code hm, true_and]

/-! ### Fetching declarations -/

theorem classInfo_apply (className : Text) (store : Store) :
    classInfo className store =
      match Table.get? className store.classes with
        | some info => .ok info store
        | none =>
          match Image.classInfo className store.image with
            | .ok info image =>
              .ok info { store with image, classes := Table.insert className info store.classes }
            | .error fault image => .error fault { store with image } := by
  unfold classInfo
  rw [bind_apply]
  change (match Table.get? className store.classes with
    | some info => pure info
    | none => _ : EStateM Fault Store ClassInfo) store = _
  cases Table.get? className store.classes with
  | some info => rfl
  | none =>
    simp only [bind_apply, onImage]
    cases Image.classInfo className store.image <;> rfl

/-- A store that knows an image's declarations answers for one as the image does, and
knows them still. -/
theorem Knows.classInfo (h : Knows image store) (className : Text) :
    answer (Store.classInfo className store) = answer (Image.classInfo className image) ∧
      Knows image (final (Store.classInfo className store)) := by
  rw [classInfo_apply]
  cases hget : Table.get? className store.classes with
  | some info => exact ⟨(h.classes className info hget).symm, h⟩
  | none =>
    have hsame := h.agrees.classInfo className
    have hagrees := h.agrees.trans (Image.agrees_classInfo className store.image)
    cases himage : Image.classInfo className store.image with
    | error fault image' =>
      rw [himage] at hsame hagrees
      exact ⟨hsame, hagrees, h.classes⟩
    | ok info image' =>
      rw [himage] at hsame hagrees
      refine ⟨hsame, hagrees, fun other info' hget' => ?_⟩
      change Table.get? other (Table.insert className info store.classes) = some info' at hget'
      by_cases hsame' : other = className
      · subst hsame'
        simp only [Table.get?_insert_self, Option.some.injEq] at hget'
        exact hget' ▸ hsame.symm
      · rw [Table.get?_insert_of_ne hsame'] at hget'
        exact h.classes other info' hget'

theorem methods_classInfo (className : Text) (store : Store) :
    (final (classInfo className store)).methods = store.methods := by
  rw [classInfo_apply]
  cases Table.get? className store.classes with
  | some info => rfl
  | none => cases Image.classInfo className store.image <;> rfl

/-- A faithful store answers for a declaration as the image does, and stays faithful. -/
theorem Faithful.classInfo (h : Faithful image store) (className : Text) :
    answer (Store.classInfo className store) = answer (Image.classInfo className image) ∧
      Faithful image (final (Store.classInfo className store)) := by
  obtain ⟨hanswer, hknows⟩ := h.knows.classInfo className
  refine ⟨hanswer, hknows.agrees, ?_, hknows.classes⟩
  rw [methods_classInfo]
  exact h.methods

theorem classes_code (method : MethodId) (store : Store) :
    (final (code method store)).classes = store.classes := by
  rw [code_apply]
  cases Table.get? method.text store.methods with
  | some code => rfl
  | none => cases Image.code method store.image <;> rfl

/-- Fetching a body either does not ask the image or leaves the image that was asked. -/
theorem final_image_code (method : MethodId) (store : Store) :
    (final (code method store)).image = store.image ∨
      (final (code method store)).image = final (Image.code method store.image) := by
  rw [code_apply]
  cases Table.get? method.text store.methods with
  | some code => exact .inl rfl
  | none => cases Image.code method store.image <;> exact .inr rfl

theorem final_image_classInfo (className : Text) (store : Store) :
    (final (classInfo className store)).image = store.image ∨
      (final (classInfo className store)).image = final (Image.classInfo className store.image) := by
  rw [classInfo_apply]
  cases Table.get? className store.classes with
  | some info => exact .inl rfl
  | none => cases Image.classInfo className store.image <;> exact .inr rfl

theorem image_code (method : MethodId) (store : Store) :
    Image.Agrees store.image (final (code method store)).image := by
  rcases final_image_code method store with h | h <;> rw [h]
  · exact Image.agrees_refl _
  · exact Image.agrees_code method store.image

/-- Fetching an instruction teaches a store nothing about declarations. -/
theorem Knows.fetch (h : Knows image store) (pc : ProgramCounter) : Knows image (final (Store.fetch pc store)) := by
  rw [(fetch_eq pc store).2]
  refine ⟨h.agrees.trans (image_code pc.method store), ?_⟩
  rw [classes_code]
  exact h.classes

theorem staticValue_eq (field : FieldRef) (store : Store) :
    answer (staticValue field store) =
        (answer (classInfo field.className store)).bind (initialStatic field) ∧
      final (staticValue field store) = final (classInfo field.className store) := by
  unfold staticValue
  rw [bind_apply]
  cases classInfo field.className store with
  | error fault store' => exact ⟨rfl, rfl⟩
  | ok info store' =>
    simp only [answer, Except.bind]
    cases initialStatic field info <;> exact ⟨rfl, rfl⟩

end Store

end Bytecode
