import Bytecode.Proofs.Reference
import Bytecode.Proofs.Sources
/-!
# Runs over two images of one program

Stores that keep the same bodies and the same declarations, over images that answer alike for
proper names, answer alike and keep doing so (`Store.Matches`). So machines with such
stores go in lockstep as long as the instructions name nothing but proper
names, and a program gives the same report whether it is run from a directory of
class files or from registered classes (`images_give_same_report`).
-/
namespace Bytecode

/-- Faults that are reported as of one family. -/
def Fault.SameLabel (fault other : Fault) : Prop := fault.label = other.label

/-! ## Declarations -/

section Declarations

variable {info other : ClassInfo}

theorem FieldInfo.SameAs.select {field other : FieldInfo} (h : field.SameAs other) (name : Text) :
    (field.isStatic && field.name = name) = (other.isStatic && other.name = name) := by
  rw [h.isStatic, h.name]

/-- Objects are made with the same fields by either declaration. -/
theorem ClassInfo.SameAs.freshFields (h : info.SameAs other) : Exec.freshFields info = Exec.freshFields other := by
  have hfields : (info.fields.filter (!·.isStatic)).map (fun f => (f.name, Value.default f.type)) =
      (other.fields.filter (!·.isStatic)).map fun f => (f.name, Value.default f.type) := by
    unfold ClassInfo.SameAs at h
    generalize info.fields = fields, other.fields = fields' at h
    induction h with
    | nil => rfl
    | @cons field field' fields fields' hfield hrest ih =>
      rw [List.filter_cons, List.filter_cons, hfield.isStatic]
      split
      · rw [List.map_cons, List.map_cons, ih, hfield.name, hfield.type]
      · exact ih
  rw [Exec.freshFields, Exec.freshFields, hfields]

/-- Static fields start with the same values by either declaration. -/
theorem ClassInfo.SameAs.initialStatic (h : info.SameAs other) (field : FieldRef) :
    Store.initialStatic field info = Store.initialStatic field other := by
  have hfind : Option.Rel FieldInfo.SameAs (info.fields.find? fun f => f.isStatic && f.name = field.name)
      (other.fields.find? fun f => f.isStatic && f.name = field.name) := by
    unfold ClassInfo.SameAs at h
    generalize info.fields = fields, other.fields = fields' at h
    induction h with
    | nil => exact .none
    | @cons f f' fields fields' hf hrest ih =>
      rw [List.find?_cons, List.find?_cons, hf.select]
      split
      · exact .some hf
      · exact ih
  unfold Store.initialStatic
  generalize info.fields.find? _ = found at hfind ⊢
  generalize other.fields.find? _ = found' at hfind ⊢
  cases hfind with
  | none => rfl
  | some hf =>
    rename_i f f'
    obtain ⟨-, htype, -, hvalue⟩ := hf
    simp only [htype]
    -- No constant is no constant, however it is said.
    rcases hvalue with hsame | ⟨hnone, hnone'⟩
    · rw [hsame]
    · rcases hnone with hnone | hnone <;> rcases hnone' with hnone' | hnone' <;> rw [hnone, hnone']

end Declarations

/-! ## Stores -/

theorem Image.Matches.of_agrees {image image' other other' : Image} (h : Matches image other)
    (himage : Agrees image image') (hother : Agrees other other') : Matches image' other' where
  code method hmethod := by
    rw [himage.code, hother.code]
    exact h.code method hmethod
  classInfo className hname := by
    rw [himage.classInfo, hother.classInfo]
    exact h.classInfo className hname

/-- What one image answers, the other answers alike. -/
theorem Alike.matched {α : Type} {V : α → α → Prop} {S : Image → Image → Prop}
    {r r' : EStateM.Result Fault Image α} (h : Alike V (answer r) (answer r')) (hfinal : S (final r) (final r')) :
    Matched S Fault.SameLabel V r r' := by
  cases r with
  | ok a s => cases r' with
    | ok b s' => exact ⟨h, hfinal⟩
    | error e s' => exact h.elim
  | error e s => cases r' with
    | ok b s' => exact h.elim
    | error e' s' => exact ⟨h, hfinal⟩

/-- Stores that keep the same bodies and the same declarations of classes with proper names, over images that
answer alike for proper names. -/
structure Store.Matches (store other : Store) : Prop where
  image : Image.Matches store.image other.image
  methods : store.methods = other.methods
  classes : ∀ className, Path.Proper className →
    Option.Rel ClassInfo.SameAs (Table.get? className store.classes) (Table.get? className other.classes)

namespace Store

variable {store other : Store}

theorem matches_ofImage {image image' : Image} (h : Image.Matches image image') :
    Matches (ofImage image) (ofImage image') :=
  ⟨h, rfl, fun _ _ => .none⟩

theorem Matches.code (h : Matches store other) {method : MethodId} (hmethod : method.Proper) :
    Matched Matches Fault.SameLabel Eq (Store.code method store) (Store.code method other) := by
  have himage := Alike.matched (S := Image.Matches) (h.image.code method hmethod)
    (h.image.of_agrees (Image.agrees_code method _) (Image.agrees_code method _))
  rw [code_apply, code_apply, ← h.methods]
  cases Table.get? method.text store.methods with
  | some code => exact ⟨rfl, h⟩
  | none =>
    rcases himage.cases with
      ⟨code, image, code', image', hone, htwo, rfl, hboth⟩ | ⟨f, image, f', image', hone, htwo, hf, hboth⟩
    · rw [hone, htwo]
      exact ⟨rfl, hboth, rfl, h.classes⟩
    · rw [hone, htwo]
      exact ⟨hf, hboth, rfl, h.classes⟩

theorem Matches.fetch (h : Matches store other) {pc : ProgramCounter} (hmethod : pc.method.Proper) :
    Matched Matches Fault.SameLabel Eq (Store.fetch pc store) (Store.fetch pc other) := by
  rw [fetch_apply, fetch_apply]
  rcases (h.code hmethod).cases with ⟨code, s, _, s', hone, htwo, rfl, hboth⟩ | ⟨f, s, f', s', hone, htwo, hf, hboth⟩
  · rw [hone, htwo]
    simp only []
    cases instruction? code pc.offset with
    | some i => exact ⟨rfl, hboth⟩
    | none => exact ⟨rfl, hboth⟩
  · rw [hone, htwo]
    exact ⟨hf, hboth⟩

theorem Matches.classInfo (h : Matches store other) {className : Text} (hname : Path.Proper className) :
    Matched Matches Fault.SameLabel ClassInfo.SameAs (Store.classInfo className store)
      (Store.classInfo className other) := by
  have himage := Alike.matched (S := Image.Matches) (h.image.classInfo className hname)
    (h.image.of_agrees (Image.agrees_classInfo className _) (Image.agrees_classInfo className _))
  have hentry := h.classes className hname
  rw [classInfo_apply, classInfo_apply]
  generalize Table.get? className store.classes = entry at hentry
  generalize Table.get? className other.classes = entry' at hentry
  cases hentry with
  | some hinfo => exact ⟨hinfo, h⟩
  | none =>
    rcases himage.cases with
      ⟨info, image, info', image', hone, htwo, hinfo, hboth⟩ | ⟨f, image, f', image', hone, htwo, hf, hboth⟩
    · rw [hone, htwo]
      refine ⟨hinfo, hboth, h.methods, fun name hproper => ?_⟩
      by_cases hsame : name = className
      · subst hsame
        simp only [Table.get?_insert_self]
        exact .some hinfo
      · simp only [Table.get?_insert_of_ne hsame]
        exact h.classes name hproper
    · rw [hone, htwo]
      exact ⟨hf, hboth, h.methods, h.classes⟩

end Store

/-- Matching stores answer alike about classes with proper names. -/
theorem likeStores_matches {N : Text → Prop} (hN : ∀ className, N className → Path.Proper className) :
    LikeStores N Store.Matches Fault.SameLabel where
  refl _ := rfl
  freshFields className hname s s' h :=
    (h.classInfo (hN className hname)).mono fun _ _ hinfo => hinfo.freshFields
  staticValue field hname s s' h := by
    unfold Store.staticValue
    refine (h.classInfo (hN field.className hname)).bind fun info info' t t' hinfo ht => ?_
    rw [hinfo.initialStatic]
    cases Store.initialStatic field info' <;> exact ⟨rfl, ht⟩

/-! ## Runs -/

/-- The class that an instruction looks up and the method that it calls have proper names. -/
structure Instruction.Proper (i : Instruction) : Prop where
  looked : ∀ className, i.class? = some className → Path.Proper className
  called : ∀ access method, i = .invoke access method → method.Proper

/-- Whatever a run from the machine comes to within so many steps, the next instruction has proper names. -/
def Machine.RunsProper (budget : Nat) (machine : Machine) : Prop :=
  ∀ k < budget, ∀ last, Reaches machine k last →
    ∀ frame callers i store, last.At frame callers i store → i.Proper

/-- A machine in methods with proper names, and so many steps to come with proper names. -/
structure Machine.Proper (budget : Nat) (machine : Machine) : Prop where
  frames : ∀ frame ∈ machine.state.frames, frame.pc.method.Proper
  runs : machine.RunsProper budget

section Runs

variable {machine other : Machine} {k : Nat}

/-- A step with proper names is the same step over a matching store. -/
theorem Machine.Proper.step_under (hmachine : machine.Proper (k + 1))
    (h : Machine.Under Store.Matches [] machine other) :
    StepResult.Under Store.Matches Fault.SameLabel [] (step machine) (step other) := by
  cases hstack : machine.state.frames with
  | nil => exact step_under_nil h hstack rfl
  | cons frame callers =>
    have hmethod := hmachine.frames frame (by simp [hstack])
    refine Bytecode.step_under h hstack (fun i store hfetch => ?_) (h.store.fetch hmethod)
    have hproper : i.Proper := hmachine.runs 0 (Nat.succ_pos k) machine .refl frame callers i store ⟨hstack, hfetch⟩
    exact likeStores_matches hproper.looked

theorem Machine.Proper.next (hmachine : machine.Proper (k + 1)) {move : Move} {next : Machine}
    (hstep : step machine = .next move next) : next.Proper k where
  frames := by
    have hmethods := step_methods hmachine.frames fun frame callers access callee store hat =>
      (hmachine.runs 0 (Nat.succ_pos k) machine .refl frame callers _ store hat).called access callee rfl
    rw [hstep] at hmethods
    exact hmethods
  runs j hj last hreaches := hmachine.runs (j + 1) (Nat.succ_lt_succ hj) last (hreaches.cons hstep)

end Runs

namespace Interpreter

/-- Endings alike after equally many steps are reported alike. -/
theorem report_alike {ending ending' : Ending} (h : Ending.Like Fault.SameLabel ending ending') {stats stats' : Statistics}
    (hsteps : stats.steps = stats'.steps) : Alike Eq (report stats ending) (report stats' ending') := by
  cases h with
  | halted outcome returned =>
    simp only [report, hsteps]
    rfl
  | exhausted =>
    simp only [report, hsteps]
    rfl
  | faulted hfault => exact hfault

/-- Interpreters over images that answer alike report alike of a state with proper names. -/
theorem execute_alike {interpreter other : Interpreter} (himage : Image.Matches interpreter.image other.image)
    (hbudget : interpreter.maxSteps = other.maxSteps) {state : State}
    (hstate : (interpreter.machine state).Proper interpreter.maxSteps.countBelow) :
    Alike Eq (interpreter.execute state).1 (other.execute state).1 := by
  rw [execute_eq_report, execute_eq_report, ← hbudget]
  have hunder : Machine.Under Store.Matches [] (interpreter.machine state) (other.machine state) :=
    ⟨by simp [machine, State.above], Store.matches_ofImage himage⟩
  obtain ⟨hending, -, hsteps, -⟩ := run_under (I := Machine.Proper) (fun _ _ _ hmachine => hmachine.step_under)
    (fun _ _ _ _ hmachine => hmachine.next) _
    (p := .start interpreter.traced interpreter.trace (interpreter.machine state))
    (q := .start other.traced other.trace (other.machine state)) hstate hunder
  exact report_alike hending hsteps

end Interpreter

/-- A program gives the same report, or fails with a fault of the same family, whether it is run from a
directory of its classes' files or from a registry of its classes, made in whatever order. -/
theorem images_give_same_report (root : Text) {sources : List ClassSource} (hsources : ProperSources sources)
    {registrations : List Registration} (hperm : registrations.Perm (sources.flatMap ClassSource.registrations))
    {method : MethodId} (hmethod : method.Proper) (values : List Value) (maxSteps : Number) (traced : Bool)
    (hruns : Machine.RunsProper maxSteps.countBelow
      ⟨State.initial method values, .ofImage (.directory (.ofSources root sources))⟩) :
    Alike Eq
      ((Interpreter.ofImage (.directory (.ofSources root sources)) maxSteps traced).runMethod method values).1
      ((Interpreter.ofImage (.registry (.ofRegistrations registrations)) maxSteps traced).runMethod method values).1 := by
  have hmatches := Image.matches_sources root hsources hperm
  refine Interpreter.execute_alike ?_ ?_ ⟨?_, ?_⟩
  · rw [(Interpreter.setup_note _ _).1, (Interpreter.setup_note _ _).1]
    exact hmatches
  · rw [(Interpreter.setup_note _ _).2, (Interpreter.setup_note _ _).2]
    rfl
  · -- There is one frame yet, that of the method.
    intro frame hframe
    rw [Interpreter.machine_note] at hframe
    obtain rfl := List.mem_singleton.1 hframe
    exact hmethod
  · rw [Interpreter.machine_note, (Interpreter.setup_note _ _).2]
    exact hruns

/-- Where all code of an image has proper names, a run cannot come to others. -/
theorem Machine.runsProper_of_image {image : Image} {machine : Machine} (hsourced : machine.store.Sourced image)
    (himage : ∀ method code, answer (Image.code method image) = .ok code → ∀ i ∈ code, i.Proper) (budget : Nat) :
    machine.RunsProper budget := by
  intro k _ last hreaches frame callers i store hat
  obtain ⟨method, code, hcode, hi⟩ := (hsourced.reaches hreaches).mem_of_fetch hat.fetched
  exact himage method code hcode i hi

namespace Sample

def balance : FieldRef := ⟨"app/Account", "balance", .primitive .int⟩

def check : MethodId := ⟨"app/Account", "check", [], some (.primitive .int)⟩

/-- Reads the field. -/
def checkCode : Code := #[.get true balance, .return (some .int)]

/-- The method, with its code inside another record. -/
def checkRecord : Json := .object [("name", .string "check"), ("params", .array []), ("returns", .string "int"),
  ("code", .object [("bytecode", .array [record "get" [("static", .bool true),
      ("field", .object [("class", .string "app/Account"), ("name", .string "balance"), ("type", .string "int")])],
    typed "return" "int" []])])]

/-- The class file, with `null` for a constant. -/
def accountFile : Json := .object [("fields", .array [.object [("name", .string "balance"), ("type", .string "int"),
    ("static", .bool true), ("value", .null)]]),
  ("methods", .array [checkRecord])]

def account : ClassSource where
  name := "app/Account"
  document := .json accountFile
  fields := [⟨"balance", .primitive .int, true, some .null⟩]
  methods := [(check, checkCode)]

theorem proper_account : Path.Proper "app/Account" := by
  have hsplit : Text.split '/' "app/Account" = [Text.ofString "app", Text.ofString "Account"] := by decide
  intro segment hsegment
  rw [hsplit] at hsegment
  simp only [List.mem_cons, List.not_mem_nil, or_false] at hsegment
  rcases hsegment with rfl | rfl <;> decide

theorem proper_check : check.Proper where
  className := proper_account
  name := by simp only [check]; decide
  signature := ⟨by simp [check], by simp [check, Ty.Unambiguous]⟩

theorem accountFile_eq (className : Text) : ClassFile.ofJson className accountFile =
    .ok ⟨⟨className, [⟨"balance", .primitive .int, true, none⟩]⟩, [checkRecord]⟩ := rfl

theorem recordedBy_check : MethodId.RecordedBy checkRecord check checkCode where
  name := rfl
  params := ⟨[], rfl, rfl⟩
  returns := rfl
  code := rfl

theorem properSources_account : ProperSources [account] where
  proper source hsource := by
    obtain rfl := List.mem_singleton.1 hsource
    refine ⟨proper_account, ⟨_, ⟨_, rfl, accountFile_eq _⟩, ?_, ?_⟩, ?_, ?_, ?_⟩
    · exact .cons ⟨rfl, rfl, rfl, .inr ⟨.inl rfl, .inr rfl⟩⟩ .nil
    · exact .cons recordedBy_check .nil
    · intro m hm
      obtain rfl := List.mem_singleton.1 hm
      rfl
    · intro m hm
      obtain rfl := List.mem_singleton.1 hm
      exact proper_check
    · exact List.nodup_singleton _
  distinct := List.nodup_singleton _

def accountImage : Image := .directory (.ofSources "lib" [account])

theorem proper_accountImage {m : MethodId} {code : Code} (hcode : answer (Image.code m accountImage) = .ok code) :
    ∀ i ∈ code, i.Proper := by
  obtain ⟨entry, hentry, json, file, record, hjson, hfile, hrecord, hbody⟩ := Image.code_ofFiles hcode
  obtain rfl := List.mem_singleton.1 hentry
  cases hjson
  rw [accountFile_eq] at hfile
  cases hfile
  obtain rfl := List.mem_singleton.1 hrecord
  cases recordedBy_check.code.symm.trans hbody
  intro i hi
  simp only [checkCode, List.mem_toArray, List.mem_cons, List.not_mem_nil, or_false] at hi
  rcases hi with rfl | rfl
  · refine ⟨fun className hclass => ?_, fun access callee heq => by cases heq⟩
    cases hclass
    exact proper_account
  · exact ⟨fun className hclass => (by cases hclass), fun access callee heq => by cases heq⟩

end Sample

open Sample in
/-- A class is run from its file and as it is registered, its method before its field. -/
theorem account_is_checked_alike : ∃ registry : Registry,
    ((Interpreter.ofImage accountImage (.int 10) true).runMethod check []).1 = .ok ⟨"ok", 2, some (.int 0)⟩ ∧
      Alike Eq ((Interpreter.ofImage accountImage (.int 10) true).runMethod check []).1
        ((Interpreter.ofImage (.registry registry) (.int 10) true).runMethod check []).1 := by
  have hperm : [Registration.method check checkCode, .fields "app/Account" account.fields].Perm
      ([account].flatMap ClassSource.registrations) := .swap _ _ _
  have hruns : Machine.RunsProper (Number.int 10).countBelow ⟨State.initial check [], .ofImage accountImage⟩ :=
    Machine.runsProper_of_image (Store.sourced_ofImage accountImage) (fun _ _ => proper_accountImage) _
  refine ⟨_, ?_, images_give_same_report "lib" properSources_account hperm proper_check [] (.int 10) true hruns⟩
  rfl

end Bytecode
