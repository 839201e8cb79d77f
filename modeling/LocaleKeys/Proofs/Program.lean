import LocaleKeys.Program
import LocaleKeys.Proofs.Storing

/-! What programs do to a world. A program is described by its result, the files
that it leaves and the lines that it prints; what was shown before makes no
difference. A step that may fail is described by when it gives a value, in one
rule for each way of composing steps. -/
namespace LocaleKeys

namespace Console

/-- The lines among what was shown. -/
def printed (outputs : List Output) : List Line :=
  outputs.filterMap fun output =>
    match output with
    | .out line => some line
    | _ => none

theorem printed_append (first second : List Output) :
    printed (first ++ second) = printed first ++ printed second :=
  List.filterMap_append

/-- Lines as they stand on the output. -/
def rendered (colored : Bool) (lines : List Line) : String :=
  String.join (lines.map fun line => line.render colored ++ "\n")

/-- The output shows the printed lines and nothing else. -/
theorem stdoutText_eq (display : Display) (outputs : List Output) :
    stdoutText display outputs = rendered display.colored (printed outputs) := by
  induction outputs using List.reverseRecOn with
  | nil => rfl
  | append_singleton outputs output ih =>
      rw [stdoutText] at ih
      rw [stdoutText, List.foldl_append, ih, printed_append]
      cases output <;> simp [printed, rendered, String.append_assoc]

end Console

namespace Program

open Console (Line printed)

/-- A world in which something was shown earlier. -/
def World.after (w : World) (earlier : List Console.Output) : World :=
  { w with shown := earlier ++ w.shown }

section

variable {A B : Type} {seed : Nat} {files middle later : FileSystem}

/-- The reply to a request does not depend on what was shown earlier, and neither do the files
and the number for draws after it. -/
theorem answer_after (w : World) (earlier : List Console.Output) (request : Request) :
    (w.after earlier).answer request =
      ((w.answer request).1, (w.answer request).2.after earlier) := by
  cases request with
  | write path text =>
      simp only [World.answer, World.after]
      cases w.files.write path text <;> rfl
  | tell output => simp [World.answer, World.after]
  | _ => rfl

/-- What was shown earlier stays in front and makes no difference to a run. So a program can
be described from a world in which nothing was shown. -/
theorem run_after (program : Program A) (w : World) (earlier : List Console.Output) :
    program.run (w.after earlier) = ((program.run w).1, (program.run w).2.after earlier) := by
  induction program generalizing w with
  | done result => rfl
  | query request next ih => rw [run, answer_after, ih, run]

/-- What every single reply keeps is kept by a whole run. Invariants of the files are proved
request by request with this. -/
theorem run_keeps {P : World → Prop} (hAnswer : ∀ w request, P w → P (w.answer request).2)
    (program : Program A) {w : World} (h : P w) : P (program.run w).2 := by
  induction program generalizing w with
  | done result => exact h
  | query request next ih => exact ih _ (hAnswer w request h)

/-- The number for draws is given to a world once and stays, so an effect needs no other
number than the one that it starts with. -/
theorem run_seed (program : Program A) (w : World) : (program.run w).2.seed = w.seed := by
  apply run_keeps (P := fun later => later.seed = w.seed) ?_ program rfl
  intro middle request h
  cases request with
  | write path text =>
      rw [← h, World.answer]
      cases middle.files.write path text <;> rfl
  | _ => exact h

/-- A file system stays well formed whatever a program does: directories are created below
directories, and a file is written into one that is there. -/
theorem run_wellFormed (program : Program A) {w : World} (h : w.files.WellFormed) :
    (program.run w).2.files.WellFormed := by
  apply run_keeps (P := fun later => later.files.WellFormed) ?_ program h
  intro middle request hMiddle
  cases request with
  | createDirectories path => exact (hMiddle.createDirectories path).1
  | write path text =>
      rw [World.answer]
      cases hWrite : middle.files.write path text with
      | ok later => exact (hMiddle.write hWrite).1
      | error e => exact hMiddle
  | _ => exact hMiddle

/-- The result of a program on files, the files after it and the lines that it prints. -/
def effect (seed : Nat) (program : Program A) (files : FileSystem) : A × FileSystem × List Line :=
  let ended := program.run { files, seed }
  (ended.1, ended.2.files, printed ended.2.shown)

/-- A run in any world is described by the effect on its files, whatever the world has shown
before. -/
theorem run_eq_effect (program : Program A) (w : World) :
    (program.run w).1 = (effect w.seed program w.files).1 ∧
      (program.run w).2.files = (effect w.seed program w.files).2.1 := by
  have hWorld : w = World.after { files := w.files, seed := w.seed } w.shown := by
    simp [World.after]
  rw [hWorld, run_after]
  exact ⟨rfl, rfl⟩

/-- Programs one after another: the second one starts with the result and the files of the
first, and its lines are printed behind. This rule and those for single requests compute the
effect of every program. -/
@[simp] theorem effect_bind (program : Program A) (next : A → Program B) (files : FileSystem) :
    effect seed (program >>= next) files =
      let first := effect seed program files
      let second := effect seed (next first.1) first.2.1
      (second.1, second.2.1, first.2.2 ++ second.2.2) := by
  show effect seed (program.bind next) files = _
  have hSeed := run_seed program { files, seed }
  simp only [effect, run_bind]
  generalize program.run { files, seed } = ended at hSeed ⊢
  obtain ⟨result, middle, shown, drawn⟩ := ended
  obtain rfl : drawn = seed := hSeed
  have hMiddle : World.mk middle shown drawn =
      World.after { files := middle, seed := drawn } shown := by simp [World.after]
  rw [hMiddle, run_after]
  simp [World.after, Console.printed_append]

/-! The requests. -/

@[simp] theorem effect_pure (value : A) :
    effect seed (pure value) files = (value, files, []) := rfl

/-- A function of the result changes nothing else. -/
@[simp] theorem effect_map (f : A → B) (program : Program A) :
    effect seed (f <$> program) files =
      (f (effect seed program files).1, (effect seed program files).2) := by
  rw [map_eq_pure_bind, effect_bind]
  simp

@[simp] theorem effect_workingDirectory : effect seed workingDirectory files =
    (FileSystem.pathOf files.workingDirectory, files, []) := rfl

@[simp] theorem effect_isPresent (path : String) :
    effect seed (isPresent path) files = (files.isPresent path, files, []) := rfl

@[simp] theorem effect_read (path : String) :
    effect seed (read path) files = (files.read path, files, []) := rfl

@[simp] theorem effect_createDirectories (path : String) :
    effect seed (createDirectories path) files =
      ((files.createDirectories path).1, (files.createDirectories path).2, []) := rfl

@[simp] theorem effect_seed : effect seed Program.seed files = (seed, files, []) := rfl

/-- A write that fails changes nothing. -/
theorem effect_write (path text : String) : effect seed (write path text) files =
    match files.write path text with
    | .ok later => (.ok (), later, [])
    | .error e => (.error e, files, []) := by
  simp only [effect, write, ask, run, World.answer]
  cases files.write path text <;> rfl

/-- A write that ends well has written what the file system says, and prints nothing. -/
@[simp] theorem effect_write_eq_ok_iff {path text : String} {result : Unit} {lines : List Line} :
    effect seed (write path text) files = (.ok result, later, lines) ↔
      files.write path text = .ok later ∧ lines = [] := by
  rw [effect_write]
  cases files.write path text <;> simp [eq_comm]

@[simp] theorem effect_out (line : Line) : effect seed (out line) files = ((), files, [line]) := rfl

@[simp] theorem effect_err (line : Line) : effect seed (err line) files = ((), files, []) := rfl

/-- The log and the error output are no lines of the output, so they leave no trace in an
effect. -/
@[simp] theorem effect_log (event : Log.Event) :
    effect seed (log event) files = ((), files, []) := rfl

end

/-! Steps that may fail. -/

/-- On these files a step succeeds with this value, leaves these files and prints these
lines. -/
def Gives {E A : Type} (seed : Nat) (step : ExceptT E Program A) (files : FileSystem) (result : A)
    (later : FileSystem) (lines : List Line) : Prop :=
  effect seed step.run files = (.ok result, later, lines)

section

variable {E F A B : Type} {seed : Nat} {files later : FileSystem} {lines : List Line} {result : A}

/-- A step has one result on given files, so a context or a table that was found twice is the
same. -/
theorem Gives.unique {step : ExceptT E Program A} {other : A} {last : FileSystem}
    {shown : List Line} (h : Gives seed step files result later lines)
    (hOther : Gives seed step files other last shown) : result = other := by
  rw [Gives] at h hOther
  exact Except.ok.inj (congrArg Prod.fst (h.symm.trans hOther))

/-- A step that was run with success, described. -/
theorem gives_of_run {step : ExceptT E Program A} {w : World}
    (h : (step.run.run w).1 = .ok result) :
    ∃ lines, Gives w.seed step w.files result (step.run.run w).2.files lines := by
  obtain ⟨hResult, hFiles⟩ := run_eq_effect step.run w
  rw [hResult] at h
  exact ⟨_, Prod.ext h (Prod.ext hFiles.symm rfl)⟩

/-- What a description says is what a run does. With `gives_of_run` results about worlds are
proved by the rules below and handed back. -/
theorem run_of_gives {step : ExceptT E Program A} {w : World}
    (h : Gives w.seed step w.files result later lines) :
    (step.run.run w).1 = .ok result ∧ (step.run.run w).2.files = later := by
  obtain ⟨hResult, hFiles⟩ := run_eq_effect step.run w
  rw [Gives] at h
  rw [hResult, hFiles, h]
  exact ⟨rfl, rfl⟩

@[simp] theorem gives_mk (program : Program (Except E A)) :
    Gives seed (ExceptT.mk program) files result later lines ↔
      effect seed program files = (.ok result, later, lines) :=
  Iff.rfl

/-- A value is given at once, without a change and without a line. -/
@[simp] theorem gives_pure (value : A) :
    Gives seed (pure value : ExceptT E Program A) files result later lines ↔
      value = result ∧ files = later ∧ lines = [] := by
  simp [Gives, effect, run, printed, pure, ExceptT.pure, ExceptT.run, ExceptT.mk]

/-- A failure gives no value. Where a step has the choice, this rule removes the branch that
fails. -/
@[simp] theorem not_gives_throw (failure : E) :
    ¬ Gives seed (throw failure : ExceptT E Program A) files result later lines := by
  simp [Gives, effect, run, throw, throwThe, MonadExceptOf.throw, ExceptT.run, ExceptT.mk, pure]

@[simp] theorem gives_ite (condition : Prop) [Decidable condition]
    (first second : ExceptT E Program A) :
    Gives seed (if condition then first else second) files result later lines ↔
      if condition then Gives seed first files result later lines
      else Gives seed second files result later lines := by
  split <;> rfl

/-- Steps that may fail, as programs: the second one is run on a value, and a failure is
handed on without it. -/
theorem run_bind_eq (step : ExceptT E Program A) (next : A → ExceptT E Program B) :
    (step >>= next).run = step.run >>= fun outcome =>
      match outcome with
      | .ok value => (next value).run
      | .error e => pure (.error e) :=
  rfl

/-- Steps one after another succeed when each of them does, the second one on the files that
the first one leaves. This is the rule by which commands are taken apart into their steps. -/
@[simp] theorem gives_bind (step : ExceptT E Program A) (next : A → ExceptT E Program B)
    {last : B} :
    Gives seed (step >>= next) files last later lines ↔ ∃ result middle first second,
      Gives seed step files result middle first ∧
        Gives seed (next result) middle last later second ∧ first ++ second = lines := by
  simp only [Gives, run_bind_eq, effect_bind]
  obtain ⟨outcome, middle, first⟩ := effect seed step.run files
  cases outcome with
  | error e => simp
  | ok value => simp [Prod.ext_iff, and_assoc]

/-- A function of the value of a step succeeds when the step does. -/
@[simp] theorem gives_map (f : A → B) (step : ExceptT E Program A) {last : B} :
    Gives seed (f <$> step) files last later lines ↔
      ∃ result, Gives seed step files result later lines ∧ f result = last := by
  rw [map_eq_pure_bind, gives_bind]
  simp

/-- A program that cannot fail, as a step. -/
@[simp] theorem gives_liftM (program : Program A) :
    Gives seed (liftM program : ExceptT E Program A) files result later lines ↔
      effect seed program files = (result, later, lines) := by
  have hRun : (liftM program : ExceptT E Program A).run =
      program >>= fun value => pure (.ok value) := rfl
  simp [Gives, hRun, Prod.ext_iff]

/-- A request that may fail succeeds when its reply is a value; how a failure is wrapped makes
no difference to that. -/
@[simp] theorem gives_attempt (program : Program (Except E A)) (wrap : E → F) :
    Gives seed (attempt program wrap) files result later lines ↔
      effect seed program files = (.ok result, later, lines) := by
  have hRun : (attempt program wrap).run =
      program >>= fun value => pure (value.mapError wrap) := rfl
  simp only [Gives, hRun, effect_bind]
  obtain ⟨outcome, middle, first⟩ := effect seed program files
  cases outcome <;> simp [Except.mapError]

end

end Program
end LocaleKeys
