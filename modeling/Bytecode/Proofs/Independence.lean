import Bytecode.Case
import Bytecode.Proofs.Agreement
import Bytecode.Proofs.Budget
/-!
# Runs of one interpreter do not show in each other

What an interpreter keeps from run to run is its image, which remembers the class files
that were read, and the counts and the trace of the runs before. However a run ends, what
its image remembers is what the files say (`current_execute`), so it agrees with an image
that has read nothing; and images that agree give the same report and the same counts
(`execute_agrees`). So each run of a list is the same as alone on a new interpreter over a
new image of the same files (`runs_are_independent`).
-/
namespace Bytecode

/-! ## Images that have read nothing -/

namespace Directory

/-- The same files, none of which was read. -/
def fresh (directory : Directory) : Directory := ofFiles directory.root directory.files

/-- What was read is what the files say. -/
def Current (directory : Directory) : Prop :=
  ∀ className file, Table.get? className directory.loaded = some file → directory.read className = .ok file

theorem current_ofFiles (root : Text) (files : Table Text Document) : Current (ofFiles root files) := by
  intro className file h
  simp [ofFiles] at h

theorem Current.answer_load {directory : Directory} (h : directory.Current) (className : Text) :
    answer (load className directory) = directory.read className := by
  rw [Directory.answer_load]
  cases hget : Table.get? className directory.loaded with
  | some file => exact (h className file hget).symm
  | none => rfl

/-- As long as the files do not change, what was read goes on to be what they say. -/
theorem Current.load {directory : Directory} (h : directory.Current) (className : Text) :
    (final (load className directory)).Current ∧ (final (load className directory)).fresh = directory.fresh := by
  rcases final_load className directory with hsame | ⟨file, -, hread, hfinal⟩
  · rw [hsame]
    exact ⟨h, rfl⟩
  · rw [hfinal]
    refine ⟨fun other file' hget => ?_, rfl⟩
    by_cases hsame : other = className
    · subst hsame
      simp only [Table.get?_insert_self, Option.some.injEq] at hget
      exact hget ▸ hread
    · rw [Table.get?_insert_of_ne hsame] at hget
      exact h other file' hget

end Directory

namespace Image

/-- The same program, with no class file read. -/
def fresh : Image → Image
  | registry r => .registry r
  | directory d => .directory d.fresh

/-- The files are as they were when they were read. -/
def Current : Image → Prop
  | registry _ => True
  | directory d => d.Current

namespace Current

variable {image : Image}

theorem agrees (h : image.Current) : Agrees image.fresh image := by
  cases image with
  | registry r => exact agrees_refl _
  | directory d =>
    refine agrees_of_load fun className => ?_
    have hfresh := (Directory.current_ofFiles d.root d.files).answer_load className
    exact (Directory.Current.answer_load h className).trans hfresh.symm

theorem code (h : image.Current) (method : MethodId) :
    (final (Image.code method image)).Current ∧ (final (Image.code method image)).fresh = image.fresh := by
  cases image with
  | registry r =>
    rw [Image.code, final_ofRegistry]
    exact ⟨trivial, rfl⟩
  | directory d =>
    rw [Image.code, (answer_ofDirectory _).2, (Directory.code_eq method d).2]
    have hload := Directory.Current.load h method.className
    exact ⟨hload.1, congrArg Image.directory hload.2⟩

theorem classInfo (h : image.Current) (className : Text) :
    (final (Image.classInfo className image)).Current ∧
      (final (Image.classInfo className image)).fresh = image.fresh := by
  cases image with
  | registry r =>
    rw [Image.classInfo, final_ofRegistry]
    exact ⟨trivial, rfl⟩
  | directory d =>
    rw [Image.classInfo, (answer_ofDirectory _).2, (Directory.classInfo_eq className d).2]
    have hload := Directory.Current.load h className
    exact ⟨hload.1, congrArg Image.directory hload.2⟩

end Current

end Image

/-! ## Stores over images that agree -/

/-- Stores that keep the same, over images that agree. -/
structure Store.Agrees (store other : Store) : Prop where
  image : Image.Agrees store.image other.image
  methods : store.methods = other.methods
  classes : store.classes = other.classes

namespace Store.Agrees

variable {store other : Store}

theorem code (h : store.Agrees other) (method : MethodId) :
    answer (Store.code method store) = answer (Store.code method other) ∧
      (final (Store.code method store)).Agrees (final (Store.code method other)) := by
  have himage : Matched Image.Agrees Eq Eq (Image.code method store.image) (Image.code method other.image) :=
    .of_answer (h.image.code method).symm (h.image.of_agrees (Image.agrees_code method _) (Image.agrees_code method _))
  rw [code_apply, code_apply, ← h.methods]
  cases Table.get? method.text store.methods with
  | some code => exact ⟨rfl, h⟩
  | none =>
    rcases himage.cases with ⟨code, s, _, s', hone, htwo, rfl, hs⟩ | ⟨fault, s, _, s', hone, htwo, rfl, hs⟩
    · rw [hone, htwo]
      exact ⟨rfl, hs, rfl, h.classes⟩
    · rw [hone, htwo]
      exact ⟨rfl, hs, rfl, h.classes⟩

theorem fetch (h : store.Agrees other) (pc : ProgramCounter) :
    Matched Store.Agrees Eq Eq (Store.fetch pc store) (Store.fetch pc other) := by
  obtain ⟨hanswer, hfinal⟩ := h.code pc.method
  refine .of_answer ?_ ?_
  · rw [(fetch_eq pc store).1, (fetch_eq pc other).1, hanswer]
  · rw [(fetch_eq pc store).2, (fetch_eq pc other).2]
    exact hfinal

theorem classInfo (h : store.Agrees other) (className : Text) :
    answer (Store.classInfo className store) = answer (Store.classInfo className other) ∧
      (final (Store.classInfo className store)).Agrees (final (Store.classInfo className other)) := by
  have himage : Matched Image.Agrees Eq Eq (Image.classInfo className store.image)
      (Image.classInfo className other.image) :=
    .of_answer (h.image.classInfo className).symm
      (h.image.of_agrees (Image.agrees_classInfo className _) (Image.agrees_classInfo className _))
  rw [classInfo_apply, classInfo_apply, ← h.classes]
  cases Table.get? className store.classes with
  | some info => exact ⟨rfl, h⟩
  | none =>
    rcases himage.cases with ⟨info, s, _, s', hone, htwo, rfl, hs⟩ | ⟨fault, s, _, s', hone, htwo, rfl, hs⟩
    · rw [hone, htwo]
      exact ⟨rfl, hs, h.methods, rfl⟩
    · rw [hone, htwo]
      exact ⟨rfl, hs, h.methods, rfl⟩

end Store.Agrees

/-- Whatever the state, a step is the same over stores that agree. -/
theorem step_agrees {machine other : Machine} (h : Machine.Under Store.Agrees [] machine other) :
    StepResult.Under Store.Agrees Eq [] (step machine) (step other) := by
  cases hframes : machine.state.frames with
  | nil => exact step_under_nil h hframes rfl
  | cons frame callers =>
    exact step_under h hframes (fun _ _ _ => likeStores_of_answers (fun className _ _ hs => hs.classInfo className) _)
      (h.store.fetch frame.pc)

/-! ## Interpreters over images that agree -/

namespace Interpreter

/-- Interpreters over images that agree, with one budget, report the same of a state and count the same. -/
theorem execute_agrees {interpreter other : Interpreter} (himage : Image.Agrees interpreter.image other.image)
    (hbudget : interpreter.maxSteps = other.maxSteps) (state : State) :
    (interpreter.execute state).1 = (other.execute state).1 ∧
      (interpreter.execute state).2.stats = (other.execute state).2.stats := by
  obtain ⟨hreport, hstats, -, -⟩ := execute_eq_run interpreter state
  obtain ⟨hreport', hstats', -, -⟩ := execute_eq_run other state
  have hunder : Machine.Under Store.Agrees [] (interpreter.begun state).machine (other.begun state).machine :=
    ⟨by simp [begun, Progress.start, machine, State.above], himage, rfl, rfl⟩
  obtain ⟨hending, -, -, hcounts⟩ := run_under (I := fun _ _ => True) (fun _ _ _ _ => step_agrees)
    (fun _ _ _ _ _ _ => trivial) interpreter.maxSteps.countBelow trivial hunder
  have hsame := hcounts rfl
  rw [hreport, hreport', hstats, hstats', ← hbudget, hending.eq, hsame]
  exact ⟨rfl, rfl⟩

/-- However a run ends, the image that it leaves is of the same program, and has read what its files say. -/
theorem current_execute {interpreter : Interpreter} (h : interpreter.image.Current) (state : State) :
    (interpreter.execute state).2.image.Current ∧
      (interpreter.execute state).2.image.fresh = interpreter.image.fresh := by
  obtain ⟨-, -, himage, -⟩ := execute_eq_run interpreter state
  rw [himage]
  refine run_store (I := fun s => s.image.Current ∧ s.image.fresh = interpreter.image.fresh) ?_ ?_ _ ⟨h, rfl⟩
  · rintro className s ⟨hcurrent, hfresh⟩
    have hasked := hcurrent.classInfo className
    rcases s.final_image_classInfo className with hsame | hsame <;> rw [hsame]
    · exact ⟨hcurrent, hfresh⟩
    · exact ⟨hasked.1, hasked.2.trans hfresh⟩
  · rintro pc s ⟨hcurrent, hfresh⟩
    have hasked := hcurrent.code pc.method
    rw [(Store.fetch_eq pc s).2]
    rcases s.final_image_code pc.method with hsame | hsame <;> rw [hsame]
    · exact ⟨hcurrent, hfresh⟩
    · exact ⟨hasked.1, hasked.2.trans hfresh⟩

theorem note_nothing (interpreter : Interpreter) : interpreter.note #[] = interpreter := by
  unfold note
  split
  · rw [Array.append_empty]
  · rfl

end Interpreter

/-! ## Jobs -/

/-- What an interpreter can be asked to run. -/
inductive Job where
  | prepared (state : State)
  | call (method : MethodId) (values : List Value)
  /-- A method and its arguments, as text. -/
  | written (method arguments : Text)

namespace Job

def run : Job → Interpreter → Except Fault Report × Interpreter
  | prepared state, interpreter => interpreter.execute state
  | call method values, interpreter => interpreter.runMethod method values
  | written method arguments, interpreter => Case.run method arguments interpreter

/-- The state that is executed, unless the job fails before. -/
def initial : Job → Except Fault State
  | prepared state => .ok state
  | call method values => .ok (.initial method values)
  | written method arguments => (Case.read method arguments).map fun (method, values) => .initial method values

/-- A job fails before anything is executed, or it may note the frames of its state and executes it. -/
theorem run_cases (job : Job) :
    (∃ fault, job.initial = .error fault ∧ ∀ interpreter, job.run interpreter = (.error fault, interpreter)) ∨
      ∃ state lines, job.initial = .ok state ∧ (∀ line ∈ lines, line ∈ Interpreter.initialLines state) ∧
        ∀ interpreter, job.run interpreter = (interpreter.note lines).execute state := by
  cases job with
  | prepared state =>
    refine .inr ⟨state, #[], rfl, fun line hline => absurd hline (Array.not_mem_empty line), fun interpreter => ?_⟩
    rw [interpreter.note_nothing]
    rfl
  | call method values => exact .inr ⟨.initial method values, _, rfl, fun line => id, fun interpreter => rfl⟩
  | written method arguments =>
    simp only [initial, run, Case.run]
    cases Case.read method arguments with
    | error fault => exact .inl ⟨fault, rfl, fun interpreter => rfl⟩
    | ok read => exact .inr ⟨.initial read.1 read.2, _, rfl, fun line => id, fun interpreter => rfl⟩

variable {interpreter other : Interpreter}

/-- Interpreters over images that agree, with one budget, do a job alike. -/
theorem run_agrees (himage : Image.Agrees interpreter.image other.image)
    (hbudget : interpreter.maxSteps = other.maxSteps) (job : Job) :
    (job.run interpreter).1 = (job.run other).1 ∧
      ∀ state, job.initial = .ok state → (job.run interpreter).2.stats = (job.run other).2.stats := by
  rcases job.run_cases with ⟨fault, hinitial, hrun⟩ | ⟨state, lines, hinitial, -, hrun⟩
  · rw [hrun, hrun, hinitial]
    exact ⟨rfl, fun state h => by cases h⟩
  · obtain ⟨hnoted, hnotedBudget⟩ := interpreter.setup_note lines
    obtain ⟨hnoted', hnotedBudget'⟩ := other.setup_note lines
    rw [← hnoted, ← hnoted'] at himage
    rw [← hnotedBudget, ← hnotedBudget'] at hbudget
    obtain ⟨hreport, hstats⟩ := Interpreter.execute_agrees himage hbudget state
    rw [hrun, hrun]
    exact ⟨hreport, fun _ _ => hstats⟩

/-- A job leaves the budget as it is, and the image too but for what it has read. -/
theorem setup_run (hcurrent : interpreter.image.Current) (job : Job) :
    (job.run interpreter).2.image.Current ∧ (job.run interpreter).2.image.fresh = interpreter.image.fresh ∧
      (job.run interpreter).2.maxSteps = interpreter.maxSteps := by
  rcases job.run_cases with ⟨fault, -, hrun⟩ | ⟨state, lines, -, -, hrun⟩
  · rw [hrun]
    exact ⟨hcurrent, rfl, rfl⟩
  · obtain ⟨hnoted, hbudget⟩ := interpreter.setup_note lines
    rw [← hnoted] at hcurrent
    obtain ⟨hleft, hfresh⟩ := Interpreter.current_execute hcurrent state
    rw [hrun, ← hnoted]
    exact ⟨hleft, hfresh, hbudget⟩

end Job

/-! ## Lists of jobs -/

namespace Interpreter

/-- Does one job after another. For each we are told what it reports and the counts after it. -/
def runAll : List Job → Interpreter → List (Except Fault Report × Statistics)
  | [], _ => []
  | job :: jobs, interpreter =>
    let (report, interpreter) := job.run interpreter
    (report, interpreter.stats) :: runAll jobs interpreter

/-- Jobs done one after another are done as by any interpreter that has read nothing. -/
theorem runAll_fresh {interpreter other : Interpreter} (hcurrent : interpreter.image.Current)
    (himage : other.image = interpreter.image.fresh) (hbudget : other.maxSteps = interpreter.maxSteps)
    (jobs : List Job) {i : Nat} {job : Job} (hjob : jobs[i]? = some job) :
    ∃ report stats, (interpreter.runAll jobs)[i]? = some (report, stats) ∧ report = (job.run other).1 ∧
      ∀ state, job.initial = .ok state → stats = (job.run other).2.stats := by
  induction jobs generalizing interpreter i with
  | nil => simp at hjob
  | cons first jobs ih =>
    cases i with
    | zero =>
      obtain rfl : first = job := by simpa using hjob
      have hagrees : Image.Agrees other.image interpreter.image := himage ▸ hcurrent.agrees
      obtain ⟨hreport, hstats⟩ := first.run_agrees hagrees hbudget
      exact ⟨_, _, rfl, hreport.symm, fun state hinitial => (hstats state hinitial).symm⟩
    | succ i =>
      -- The other jobs begin with the interpreter that the first one leaves.
      obtain ⟨hleft, hfresh, hkept⟩ := first.setup_run hcurrent
      exact ih hleft (himage.trans hfresh.symm) (hbudget.trans hkept.symm) (by simpa using hjob)

/-- In a list of jobs, each one is reported as it is alone, by a new interpreter over a new image of the
same program, whatever the jobs before it came to. If it is executed at all, it leaves the same counts. -/
theorem runs_are_independent {interpreter : Interpreter} (hcurrent : interpreter.image.Current) (jobs : List Job)
    {i : Nat} {job : Job} (hjob : jobs[i]? = some job) :
    let alone := job.run (.ofImage interpreter.image.fresh interpreter.maxSteps interpreter.traced)
    ∃ report stats, (interpreter.runAll jobs)[i]? = some (report, stats) ∧ report = alone.1 ∧
      ∀ state, job.initial = .ok state → stats = alone.2.stats := by
  have himage : (ofImage interpreter.image.fresh interpreter.maxSteps interpreter.traced).image =
      interpreter.image.fresh := rfl
  exact runAll_fresh hcurrent himage rfl jobs hjob

end Interpreter

open Sample in
/-- A method is run as ever after an unreadable case, a method that is not there and an offset that is not. -/
theorem check_after_failures :
    let interpreter := Interpreter.ofImage accountImage (.int 10) false
    let missing : MethodId := { check with name := "missing" }
    let beyond : State := ⟨.empty, [⟨⟨check, .int 9⟩, [], []⟩], []⟩
    let jobs : List Job := [.written "check" "()", .call missing [], .prepared beyond, .call check []]
    (interpreter.runAll jobs)[3]? = some (.ok ⟨"ok", 2, some (.int 0)⟩, ⟨2, 0, 1, 0⟩) := by
  intro interpreter missing beyond jobs
  have hcurrent : interpreter.image.Current := Directory.current_ofFiles _ _
  obtain ⟨report, stats, hentry, hreport, hstats⟩ :=
    Interpreter.runs_are_independent hcurrent jobs (i := 3) rfl
  rw [hentry, hreport, hstats _ rfl]
  rfl

end Bytecode
