import ScriptLoader.Proofs.Compiling.Calls
import ScriptLoader.Proofs.Passes
import ScriptLoader.Proofs.Readying

/-!
# Units are executed in the order of the closure

Running a unit loads its dependencies and executes it. If the whole closure of the unit is still to
be compiled by then, and the bodies keep to themselves, then a run that succeeds has done the same
walk as the one that lists the closure: the second passes are run in the order of the closure, each
once, and the bodies are called for the first time in that order.

A body may be called more often, namely whenever a reference leads to its unit again.
-/

namespace ScriptLoader

variable {ω χ : Type}

theorem Loader.mem_closure_self {l : Loader ω χ} {id : UnitId} {unit : LoadedUnit ω χ}
    (hunit : l.unit? id = some unit) : id ∈ l.view.closure id := by
  have hlt : id < l.units.length := (List.getElem?_eq_some_iff.mp hunit).1
  have hview : l.view.unit? id = some unit.view := congrArg (Option.map _) hunit
  obtain ⟨depth, hdepth⟩ : ∃ depth, l.view.unitCount = depth + 1 :=
    Nat.exists_eq_succ_of_ne_zero (Nat.ne_of_gt (Nat.zero_lt_of_lt hlt))
  rw [View.closure, hdepth, View.walk, hview]
  exact List.mem_append_right _ (List.mem_singleton_self id)

/-- Before anything has been executed, a walk to a unit is about to begin. -/
theorem Loader.InStep.start {l : Loader ω χ} {id : UnitId} (hregistered : l.Registered)
    (htidy : l.Tidy) (hfiled : l.Filed id) (hjournal : ∀ e ∈ l.journal, e.isExecution = false)
    (hpending : ∀ other ∈ l.view.closure id, l.stage? other = some .pending) :
    InStep l (l.view.closure id) [.visit id] [] [] l where
  passes := Journal.passes_eq_nil hjournal
  calls := by
    rw [Journal.calls_eq_nil hjournal]
    rfl
  lists := l.lists_closure hregistered htidy hfiled
  nodup := List.nodup_nil
  results hresult := hresult
  stages other hother := by simpa [Stack.underway] using hpending other hother
  frames := by simp

namespace Machine

open Loader Journal

variable {p : Platform ω χ} {first l₀ l₂ : Loader ω χ} {order : List UnitId} {m m' : Machine ω χ}
  {id entry : UnitId} {stall : LoaderError} {value : Value}

/-! ## Running a unit -/

/-- Runs a unit, and ends as that does. A stall counts as an error. -/
def runUnit (id : UnitId) (stall : LoaderError) : Code ω :=
  Program.run id fun
    | .settled outcome => .finish outcome
    | .stalled => .finish (.error stall)

/-- What follows when the dependencies have been loaded. -/
def whenLoaded (id : UnitId) (stall : LoaderError) : Awaited Unit → Code ω
  | .settled (.ok _) => .execute id .finish
  | .settled (.error e) => .finish (.error e)
  | .stalled => .finish (.error stall)

theorem runUnit_eq (id : UnitId) (stall : LoaderError) :
    runUnit (ω := ω) id stall = Program.load id (whenLoaded id stall) := by
  refine congrArg (Program.load id) (funext fun awaited ↦ ?_)
  rcases awaited with (e | _) | _ <;> rfl

/-- How far a run has come, once the dependencies have been loaded. -/
inductive Concludes (first : Loader ω χ) (order : List UnitId) : Machine ω χ → Prop
  | executing {l id} (instep : InStep first order [.visit id] [] [] l) :
      Concludes first order ⟨l, .running (.execute id .finish), []⟩
  | performing {m : Machine ω χ} (performs : m.Performs first order [.resume .finish]) :
      Concludes first order m
  | finishing {l outcome}
      (instep : ∀ value, outcome = .ok value → InStep first order [] [] order l) :
      Concludes first order ⟨l, .running (.finish outcome), []⟩
  | finished {l outcome}
      (instep : ∀ value, outcome = .ok value → InStep first order [] [] order l) :
      Concludes first order ⟨l, .returning outcome, []⟩

theorem Performs.stack_ne_nil {frame : Frame ω χ} (h : m.Performs first order [frame]) :
    m.stack ≠ [] := by
  cases h with
  | going | failing => simp
  | calling hs => simp [hs]

/-- A run goes on, and bodies are called in order. -/
theorem Concludes.step (h : m.Concludes first order) (hkeeps : first.Keeps m.loader)
    (hbound : m.loader.OperationsBound) (himports : m.scene.ImportsNothing)
    (hbodies : m.stack ≠ [] → m.keepsToItself = true) :
    (m.step p).Concludes first order ∧ (m.step p).scene.ImportsNothing ∧
      CallsInOrder first m (m.step p) := by
  have hnext (hasks : m.asks? ≠ some .imports) : (m.step p).scene.ImportsNothing :=
    importsNothing_step himports hasks
  cases h with
  | @executing l id instep =>
    let m : Machine ω χ := ⟨l, .running (.execute id .finish), [.resume .finish]⟩
    have hs : m.stack = [] ++ [.resume .finish] := rfl
    obtain ⟨hperforms, hcalls⟩ := performs_execute (m := m) instep hs hkeeps hbound
    exact ⟨.performing hperforms, hnext (by simp [asks?]), .of_subset hcalls⟩
  | performing hperforms =>
    have hcode : m.keepsToItself = true := hbodies hperforms.stack_ne_nil
    have hasks : m.asks? ≠ some .imports := fun hasks ↦ by
      simpa [ofBody] using ofBody_of_asks? hcode _ hasks
    by_cases hreturns : m.Returns [.resume .finish]
    · obtain ⟨l, control, stack⟩ := m
      obtain ⟨outcome, rfl, rfl⟩ := hreturns
      refine ⟨.finishing fun value hvalue ↦ ?_, hnext hasks, .of_subset (List.Subset.refl _)⟩
      subst hvalue
      exact hperforms.inStep_of_returns
    · obtain ⟨hperforms', hcalls⟩ := hperforms.step hreturns hkeeps hbound himports hcode
      exact ⟨.performing hperforms', hnext hasks, hcalls⟩
  | finishing instep =>
    exact ⟨.finished instep, hnext (by simp [asks?]), .of_subset (List.Subset.refl _)⟩
  | finished instep =>
    exact ⟨.finished instep, hnext (by simp [asks?]), .of_subset (List.Subset.refl _)⟩

theorem Concludes.runs (h : m.Concludes first order) (hm : m.Reachable p)
    (hkeeps : first.Keeps m.loader) (himports : m.scene.ImportsNothing)
    (hbodies : ∀ m', Runs p [] m m' → m'.stack ≠ [] → m'.keepsToItself = true)
    (hruns : Runs p [] m m') :
    m'.Concludes first order ∧ CallsInOrder first m' (m'.step p) := by
  induction hruns with
  | refl m =>
    obtain ⟨-, -, hcalls⟩ :=
      h.step (p := p) hkeeps hm.fits.bound himports (hbodies m (.refl m))
    exact ⟨h, hcalls⟩
  | @step m m' hpending hrest ih =>
    obtain ⟨hnext, himports', -⟩ :=
      h.step (p := p) hkeeps hm.fits.bound himports (hbodies m (.refl m))
    exact ih hnext hm.step (hkeeps.trans (extends_step p m).2) himports'
      fun m' hrun ↦ hbodies m' (.step hpending hrun)

/-- When a run has ended with a value, the walk has come to its end. -/
theorem Concludes.inStep_of_ends (h : Concludes first order ⟨l₂, .returning (.ok value), []⟩) :
    InStep first order [] [] order l₂ := by
  generalize hm : (⟨l₂, .returning (.ok value), []⟩ : Machine ω χ) = m at h
  cases h with
  | performing hperforms => exact absurd (hm ▸ rfl) hperforms.stack_ne_nil
  | executing | finishing => cases hm
  | finished instep =>
    cases hm
    exact instep value rfl

theorem not_ends_of_error {l : Loader ω χ} {e : LoaderError} :
    ¬Ends p [] l (.finish (.error e)) (.ok value) l₂ := by
  intro hends
  cases hends with
  | step _ hrest =>
    have hreturned : Runs p [] ⟨l, .returning (.error e), []⟩ ⟨l₂, .returning (.ok value), []⟩ :=
      hrest
    cases hreturned with
    | step hpending => exact hpending ⟨_, rfl, rfl⟩

/-- A run that succeeds comes to execute the unit. -/
theorem exists_ready (hunused : l₀.IsUnused)
    (hends : Ends p [] l₀ (runUnit entry stall) (.ok value) l₂) :
    ∃ l₁, Runs p [] ⟨l₀, .running (runUnit entry stall), []⟩
        ⟨l₁, .running (.execute entry .finish), []⟩ ∧ l₀.Untouched ⟨l₁, []⟩ ∧
      Ends p [] l₁ (.execute entry .finish) (.ok value) l₂ := by
  rw [Ends, runUnit_eq] at hends
  rw [runUnit_eq]
  obtain ⟨l₁, awaited, hready, huntouched, hrest⟩ := exists_loaded hunused hends ⟨_, rfl, rfl⟩
  rcases awaited with (e | _) | _
  · exact absurd hrest not_ends_of_error
  · exact ⟨l₁, hready, huntouched, hrest⟩
  · exact absurd hrest not_ends_of_error

/-- **Units are executed in the order of the closure.** A unit is run with a loader that has not
been used, and this succeeds. Bodies may ask for dependencies and for resets, but not for executions
and imports; they cannot wait for lookups, since whoever calls one needs its outcome at once. If all
units of the closure, as it is when the dependencies have been loaded, are still to be compiled by
then:

* The second pass of each unit of the closure is run once, and that of no other unit is.
* The bodies of the units of the closure are called, and no others are.
* They are called for the first time in the order of the closure.
* Whenever a body is called for the first time, all that its unit depends on has been called, or has
  its second pass under way.
* A step that tells of a call calls one body: the machine runs it next. -/
theorem Reachable.run_in_closure_order (h : Reachable p ⟨l₀, .running (runUnit entry stall), []⟩)
    (hunused : l₀.IsUnused) (hentry : (l₀.unit? entry).isSome)
    (hbodies : ∀ m, Runs p [] ⟨l₀, .running (runUnit entry stall), []⟩ m →
      m.stack ≠ [] → m.keepsToItself = true)
    (hpending : ∀ l₁, Runs p [] ⟨l₀, .running (runUnit entry stall), []⟩
      ⟨l₁, .running (.execute entry .finish), []⟩ →
      ∀ id ∈ l₁.view.closure entry, l₁.stage? id = some .pending)
    (hends : Ends p [] l₀ (runUnit entry stall) (.ok value) l₂) :
    ∃ l₁, Runs p [] ⟨l₀, .running (runUnit entry stall), []⟩
        ⟨l₁, .running (.execute entry .finish), []⟩ ∧
      (∀ id, (passes l₂.journal).count id = if id ∈ l₁.view.closure entry then 1 else 0) ∧
      (∀ id, id ∈ calls l₂.journal ↔ id ∈ l₁.view.closure entry) ∧
      (calls l₂.journal).eraseDups = l₁.view.closure entry ∧
      ∀ m, Runs p [] ⟨l₁, .running (.execute entry .finish), []⟩ m →
        CallsInOrder l₁ m (m.step p) ∧
          (calls (m.step p).loader.journal ≠ calls m.loader.journal →
            ∃ id callable arguments, m.Calls (m.step p) id callable arguments) := by
  obtain ⟨l₁, hready, huntouched, hexecutes⟩ := exists_ready hunused hends
  have hreached := hready.reachable h
  obtain ⟨unit, hunit⟩ := Option.isSome_iff_exists.mp hentry
  obtain ⟨s, hs, -⟩ := hready.keeps (standing?_of_unit? hunit)
  obtain ⟨unit', hunit', -⟩ := standing?_eq_some.mp hs
  have hfiled : l₁.Filed entry := huntouched.filed_of_pending hunused hunit
    (hpending l₁ hready entry (mem_closure_self hunit'))
  have hconcludes : Concludes l₁ (l₁.view.closure entry)
      ⟨l₁, .running (.execute entry .finish), []⟩ :=
    .executing (.start hreached.registered (hreached.sound p).tidy hfiled
      (huntouched.spares.not_isExecution hunused.journal) (hpending l₁ hready))
  have hruns {m : Machine ω χ} (hm : Runs p [] ⟨l₁, .running (.execute entry .finish), []⟩ m) :
      m.Concludes l₁ (l₁.view.closure entry) ∧ CallsInOrder l₁ m (m.step p) :=
    hconcludes.runs hreached (Quiet.refl l₁).keeps huntouched.imports
      (fun m hm ↦ hbodies m (hready.trans hm)) hm
  have hover := (hruns hexecutes).1.inStep_of_ends
  refine ⟨l₁, hready, fun id ↦ ?_, fun id ↦ hover.mem_calls_iff, hover.calls,
    fun m hm ↦ ⟨(hruns hm).2, calls_step p (hm.reachable hreached).nests⟩⟩
  rw [hover.passes]
  exact hover.nodup.count

/-- Whether something is the case at every step until a machine halts, which it does in time. -/
def throughout (p : Platform ω χ) (check : Machine ω χ → Bool) :
    (fuel : Nat) → Machine ω χ → Bool
  | 0, m => check m && m.isHalted
  | fuel + 1, m => check m && throughout p check fuel (m.step p)

theorem Runs.of_throughout {check : Machine ω χ → Bool} (hruns : Runs p [] m m') {fuel : Nat}
    (h : throughout p check fuel m = true) : check m' = true := by
  induction hruns generalizing fuel with
  | refl m =>
    cases fuel <;> exact (Bool.and_eq_true_iff.mp h).1
  | @step m m' hpending _ ih =>
    cases fuel with
    | zero =>
      obtain ⟨outcome, hcontrol, hs⟩ := exists_of_isHalted (Bool.and_eq_true_iff.mp h).2
      exact absurd ⟨outcome, hcontrol, hs⟩ hpending
    | succ fuel => exact ih (Bool.and_eq_true_iff.mp h).2

def openedDiamond : Loader (List Request) Unit :=
  (({ world := [], base := .file "/".toList } : Loader (List Request) Unit).openUnit
    (Project.diamond.platform List.head?) (.file "/a".toList)).1

def ranDiamond : Machine (List Request) Unit :=
  run (Project.diamond.platform List.head?) 50
    ⟨openedDiamond, .running (runUnit 0 .detached), []⟩

/-- The file that closes the diamond is called first, and once more when the other side of the
diamond is executed. The file that the first one refers to twice is called twice as well. -/
theorem run_in_closure_order_ranDiamond :
    calls ranDiamond.loader.journal = [3, 1, 3, 2, 1, 0] ∧
      ∃ l₁, Runs (Project.diamond.platform List.head?) []
          ⟨openedDiamond, .running (runUnit 0 .detached), []⟩
          ⟨l₁, .running (.execute 0 .finish), []⟩ ∧
        l₁.view.closure 0 = [3, 1, 2, 0] := by
  let p := Project.diamond.platform List.head?
  have hfresh : Loader.IsFresh ({ world := [], base := .file "/".toList } :
      Loader (List Request) Unit) := isFresh_mk _ _
  have hreachable : Reachable p ⟨openedDiamond, .running (runUnit 0 .detached), []⟩ :=
    (Reachable.start hfresh (.openUnit (.file "/a".toList) fun _ ↦ runUnit 0 .detached)).step
  have hbodies : throughout p (fun m ↦ m.stack.isEmpty || m.keepsToItself) 50
      ⟨openedDiamond, .running (runUnit 0 .detached), []⟩ = true := by decide +kernel
  have hpending : throughout p (fun m ↦ !(m.stack.isEmpty && m.executes) ||
      (m.loader.view.closure 0).all fun id ↦ m.loader.stage? id = some .pending) 50
      ⟨openedDiamond, .running (runUnit 0 .detached), []⟩ = true := by decide +kernel
  have hreturned : ranDiamond.value?.isSome = true := by decide +kernel
  obtain ⟨value, hvalue⟩ := Option.isSome_iff_exists.mp hreturned
  obtain ⟨hcontrol, hs⟩ := of_value?_eq_some hvalue
  have hends : Ends p [] openedDiamond (runUnit 0 .detached) (.ok value) ranDiamond.loader :=
    ends_of_run 50 rfl hcontrol hs
  have hcalls : calls ranDiamond.loader.journal = [3, 1, 3, 2, 1, 0] := by decide +kernel
  obtain ⟨l₁, hready, -, -, horder, -⟩ := Reachable.run_in_closure_order hreachable
    (hfresh.isUnused.openUnit _) (by decide +kernel)
    (fun m hm hne ↦ by simpa [hne] using hm.of_throughout hbodies)
    (fun l₁ hready id hid ↦ by
      have hall := hready.of_throughout hpending
      simp only [executes, List.isEmpty_nil, Bool.and_self, Bool.not_true, Bool.false_or,
        List.all_eq_true, decide_eq_true_eq] at hall
      exact hall id hid) hends
  rw [hcalls] at horder
  exact ⟨hcalls, l₁, hready, horder.symm.trans (by decide)⟩

end Machine

end ScriptLoader
