import ScriptLoader.Proofs.Closure

/-!
# What a load comes to

Code that is run on a stack ends when it returns an outcome to that stack. Until then no step takes
anything off the stack, whatever happens above it, so code that loads a unit can be followed from
one of its requests to the next: it asks for the dependencies, completes lookups until none is left,
and looks whether the unit is loaded.

## When a load can be trusted

A load that succeeds finds its unit loaded. After a wave has been dropped that is not enough: the
closure of the unit is complete exactly when its suspect references have led to loaded units
nevertheless.
-/

namespace ScriptLoader

variable {ω χ : Type}

namespace Machine

variable {p : Platform ω χ} {base : List (Frame ω χ)}

/-! ## Code on a stack -/

def Returns (m : Machine ω χ) (base : List (Frame ω χ)) : Prop :=
  ∃ outcome, m.control = .returning outcome ∧ m.stack = base

/-- Steps of which none is from a machine that returns to a stack. -/
inductive Runs (p : Platform ω χ) (base : List (Frame ω χ)) : Machine ω χ → Machine ω χ → Prop
  | refl (m) : Runs p base m m
  | step {m m'} (pending : ¬m.Returns base) (rest : Runs p base (m.step p) m') : Runs p base m m'

/-- Code that is run on a stack ends with an outcome. -/
def Ends (p : Platform ω χ) (base : List (Frame ω χ)) (l : Loader ω χ) (code : Code ω)
    (outcome : Outcome) (l' : Loader ω χ) : Prop :=
  Runs p base ⟨l, .running code, base⟩ ⟨l', .returning outcome, base⟩

theorem Runs.reachable {m m' : Machine ω χ} (h : Runs p base m m') (hm : m.Reachable p) :
    m'.Reachable p := by
  induction h with
  | refl => exact hm
  | step _ _ ih => exact ih hm.step

theorem Runs.sound {m m' : Machine ω χ} (h : Runs p base m m') (hm : m.Sound) : m'.Sound := by
  induction h with
  | refl => exact hm
  | @step m m' _ _ ih => exact ih (hm.turn p (step_turn p m))

theorem Runs.trans {m m' m'' : Machine ω χ} (h : Runs p base m m') (h' : Runs p base m' m'') :
    Runs p base m m'' := by
  induction h with
  | refl => exact h'
  | step hpending _ ih => exact .step hpending (ih h')

/-- Running code has returned nothing yet. -/
theorem runs_of_running {l l' : Loader ω χ} {code : Code ω} {control : Control ω}
    {stack stack' : List (Frame ω χ)}
    (h : step p ⟨l, .running code, stack⟩ = ⟨l', control, stack'⟩) :
    Runs p base ⟨l, .running code, stack⟩ ⟨l', control, stack'⟩ := by
  refine .step ?_ (h ▸ .refl _)
  rintro ⟨outcome, hcontrol, -⟩
  cases hcontrol

/-- What is returned to a frame has not been returned to an empty stack. -/
theorem runs_of_frame {m m' : Machine ω χ} {frame : Frame ω χ} {below : List (Frame ω χ)}
    (hs : m.stack = frame :: below) (h : m.step p = m') : Runs p [] m m' := by
  refine .step ?_ (h ▸ .refl _)
  rintro ⟨outcome, -, hempty⟩
  rw [hs] at hempty
  cases hempty

theorem runs_run (p : Platform ω χ) (m : Machine ω χ) (fuel : Nat) :
    Runs p [] m (m.run p fuel) := by
  induction fuel generalizing m with
  | zero => exact .refl m
  | succ fuel ih =>
    rw [run]
    split
    case isTrue => exact .refl m
    case isFalse hhalted =>
      refine .step ?_ (ih _)
      rintro ⟨outcome, hcontrol, hs⟩
      rw [isHalted, hcontrol, hs] at hhalted
      exact hhalted rfl

theorem ends_of_run {l : Loader ω χ} {code : Code ω} {outcome : Outcome} (fuel : Nat)
    {m : Machine ω χ} (hm : run p fuel ⟨l, .running code, []⟩ = m)
    (hcontrol : m.control = .returning outcome) (hs : m.stack = []) :
    Ends p [] l code outcome m.loader := by
  have heq : (⟨m.loader, .returning outcome, []⟩ : Machine ω χ) = m := by rw [← hcontrol, ← hs]
  rw [Ends, heq, ← hm]
  exact runs_run p _ fuel

/-- The value that all code has ended with. -/
def value? (m : Machine ω χ) : Option Value :=
  match m.control, m.stack with
  | .returning (.ok value), [] => some value
  | _, _ => none

theorem of_value?_eq_some {m : Machine ω χ} {value : Value} (h : m.value? = some value) :
    m.control = .returning (.ok value) ∧ m.stack = [] := by
  rw [value?] at h
  split at h
  case h_1 hcontrol hs =>
    cases h
    exact ⟨hcontrol, hs⟩
  case h_2 => cases h

/-- A frame stays on the stack until an outcome is returned to it. -/
theorem stack_step {m : Machine ω χ} {above : List (Frame ω χ)} {frame : Frame ω χ}
    (hs : m.stack = above ++ frame :: base) :
    (∃ above', (m.step p).stack = above' ++ frame :: base) ∨
      above = [] ∧ ∃ outcome, m.control = .returning outcome := by
  rcases (step_turn p m).extends with ⟨-, -, pushed, hpushed⟩ |
    ⟨outcome, top, below, hcontrol, htop, -, -, pushed, hpushed⟩
  · exact .inl ⟨pushed ++ above, by rw [← hpushed, hs, List.append_assoc]⟩
  · cases above with
    | nil => exact .inr ⟨rfl, outcome, hcontrol⟩
    | cons head rest =>
      rw [hs, List.cons_append, List.cons.injEq] at htop
      exact .inl ⟨pushed ++ rest, by rw [← hpushed, ← htop.2, List.append_assoc]⟩

theorem ne_append_cons {above below : List (Frame ω χ)} {frame : Frame ω χ} (h : base <:+ below) :
    base ≠ above ++ frame :: below := by
  intro heq
  have hlength := congrArg List.length heq
  have hbelow := h.length_le
  simp only [List.length_append, List.length_cons] at hlength
  omega

/-! ## Code that loads a unit -/

/-- Loads a unit, and ends as that does. A stall counts as an error. -/
def loadCode (id : UnitId) (stall : LoaderError) : Code ω :=
  Program.load id fun
    | .settled result => .finish (result.map fun _ ↦ .undefined)
    | .stalled => .finish (.error stall)

/-- Opens the file of a URL and loads it. -/
def loadEntry (url : Url) (stall : LoaderError) : Code ω :=
  .openUnit url fun
    | .settled (.ok id) => loadCode id stall
    | .settled (.error e) => .finish (.error e)
    | .stalled => .finish (.error stall)

/-- What follows when all lookups have been completed. -/
def afterDriving (id : UnitId) (stall : LoaderError) : Awaited Unit → Code ω
  | .settled (.ok _) => .observe fun view ↦
    match Program.loadFailure? id view with
    | some e => .finish (.error e)
    | none => .finish (.ok .undefined)
  | .settled (.error e) => .finish (.error e)
  | .stalled => .finish (.error stall)

/-- What follows when the dependencies have been asked for. -/
def afterAsking (id : UnitId) (stall : LoaderError) : Except LoaderError Unit → Code ω
  | .ok _ => .drive (afterDriving id stall)
  | .error e => .finish (.error e)

theorem loadCode_eq (id : UnitId) (stall : LoaderError) :
    loadCode (ω := ω) id stall = .loadDependencies id none (afterAsking id stall) := by
  refine congrArg (Code.loadDependencies id none) (funext fun result ↦ ?_)
  rcases result with e | _
  · rfl
  · refine congrArg Code.drive (funext fun awaited ↦ ?_)
    rcases awaited with (e | _) | _
    · rfl
    · refine congrArg Code.observe (funext fun view ↦ ?_)
      dsimp only
      cases Program.loadFailure? id view <;> rfl
    · rfl

/-- How far code that loads a unit has come on a stack. -/
inductive Loading (id : UnitId) (stall : LoaderError) (base : List (Frame ω χ)) :
    Machine ω χ → Prop
  | asking (l) : Loading id stall base ⟨l, .running (loadCode id stall), base⟩
  /-- The request is being worked on. -/
  | asked {m above} (stack : m.stack = above ++ .resumeAfter (afterAsking id stall) :: base) :
      Loading id stall base m
  | driving (l) : Loading id stall base ⟨l, .running (.drive (afterDriving id stall)), base⟩
  /-- A lookup is being completed. -/
  | completing {m above} (stack : m.stack = above ++ .driving (afterDriving id stall) :: base) :
      Loading id stall base m
  /-- All lookups have been completed. -/
  | looking {l : Loader ω χ} (completed : l.lookups = []) :
      Loading id stall base ⟨l, .running (afterDriving id stall (.settled (.ok ⟨⟩))), base⟩
  | failing (l e) : Loading id stall base ⟨l, .running (.finish (.error e)), base⟩
  /-- The unit is loaded, or a wave is active. -/
  | succeeding {l : Loader ω χ} (completed : l.lookups = [])
      (found : Program.loadFailure? id l.view = none) :
      Loading id stall base ⟨l, .running (.finish (.ok .undefined)), base⟩
  | failed (l e) : Loading id stall base ⟨l, .returning (.error e), base⟩
  | succeeded {l : Loader ω χ} (completed : l.lookups = [])
      (found : Program.loadFailure? id l.view = none) :
      Loading id stall base ⟨l, .returning (.ok .undefined), base⟩

namespace Loading

variable {id : UnitId} {stall : LoaderError} {m : Machine ω χ}

theorem drive (m : Machine ω χ) :
    Loading id stall m.stack (m.drive p (afterDriving id stall)) := by
  rcases drive_cases p m (afterDriving id stall) with
    ⟨hempty, heq⟩ | ⟨world, -, heq⟩ | ⟨world, before, lookup, after, -, -, heq⟩
  all_goals rw [heq]
  · exact .looking hempty
  · exact .failing _ stall
  · obtain ⟨pushed, hpushed⟩ := (extends_completeLookup p _ lookup).stack
    exact .completing hpushed.symm

theorem step (h : Loading id stall base m) (hpending : ¬m.Returns base) :
    Loading id stall base (m.step p) := by
  cases h with
  | asking l =>
    rw [loadCode_eq]
    have hleads := leads_loadDependencies
      ⟨l, .running (.loadDependencies id none (afterAsking id stall)),
        .resumeAfter (afterAsking id stall) :: base⟩ p id none
    obtain ⟨pushed, hpushed⟩ := (Extends.of_leads hleads).stack
    exact .asked hpushed.symm
  | asked hs =>
    -- what runs above the frame either goes on or returns to it
    rcases stack_step (p := p) hs with ⟨above', hs'⟩ | ⟨rfl, outcome, hcontrol⟩
    · exact .asked hs'
    · rw [Machine.step, hcontrol, hs]
      rcases outcome with e | value
      · exact .failing _ e
      · exact .driving _
  | driving l => exact Loading.drive ⟨l, _, base⟩
  | completing hs =>
    rcases stack_step (p := p) hs with ⟨above', hs'⟩ | ⟨rfl, outcome, hcontrol⟩
    · exact .completing hs'
    · rw [Machine.step, hcontrol, hs]
      rcases outcome with e | value
      · exact .failing _ e
      · exact Loading.drive { m with control := .returning (.ok value), stack := base }
  | @looking l hcompleted =>
    rw [Machine.step, afterDriving]
    cases hfound : Program.loadFailure? id l.view with
    | some e =>
      simp only [runCode, hfound]
      exact .failing l e
    | none =>
      simp only [runCode, hfound]
      exact .succeeding hcompleted hfound
  | failing l e => exact .failed l e
  | succeeding hcompleted hfound => exact .succeeded hcompleted hfound
  | failed l e => exact absurd ⟨_, rfl, rfl⟩ hpending
  | succeeded => exact absurd ⟨_, rfl, rfl⟩ hpending

theorem runs {m' : Machine ω χ} (h : Loading id stall base m) (hruns : Runs p base m m') :
    Loading id stall base m' := by
  induction hruns with
  | refl => exact h
  | step hpending _ ih => exact ih (h.step hpending)

end Loading

/-- A load that succeeds has completed all lookups, and has looked whether the unit is loaded. -/
theorem Ends.of_load {id : UnitId} {stall : LoaderError} {l l' : Loader ω χ} {value : Value}
    (h : Ends p base l (loadCode id stall) (.ok value) l') :
    l'.lookups = [] ∧ Program.loadFailure? id l'.view = none := by
  have hasking : Loading id stall base ⟨l, .running (loadCode id stall), base⟩ := .asking l
  have hloading := hasking.runs h
  generalize hm : (⟨l', .returning (.ok value), base⟩ : Machine ω χ) = m at hloading
  -- the end is not a state in which something is left above the base of the stack
  have hne : ∀ {above : List (Frame ω χ)} {frame}, m.stack ≠ above ++ frame :: base := by
    intro above frame heq
    rw [← hm] at heq
    have := congrArg List.length heq
    simp at this
    omega
  cases hloading with
  | asked hs | completing hs => exact absurd hs hne
  | succeeded hcompleted hfound => cases hm; exact ⟨hcompleted, hfound⟩
  | _ => cases hm

/-- Without a wave, a load finds no failure only when the unit is loaded. -/
theorem loaded_of_loadFailure? {l : Loader ω χ} {id : UnitId} {unit : LoadedUnit ω χ}
    (hunit : l.unit? id = some unit) (hwave : l.wave = none)
    (hfound : Program.loadFailure? id l.view = none) : unit.info.status = .loaded := by
  have hview : l.view.unit? id = some unit.view := congrArg (Option.map _) hunit
  have hidle : l.view.outstanding = none := congrArg (Option.map _) hwave
  rw [Program.loadFailure?, hview, hidle] at hfound
  by_contra hstatus
  simp [LoadedUnit.view, hstatus] at hfound

theorem Runs.keeps {m m' : Machine ω χ} (h : Runs p base m m') : m.loader.Keeps m'.loader := by
  induction h with
  | refl => exact (Loader.Quiet.refl _).keeps
  | @step m m' _ _ ih => exact (extends_step p m).2.trans ih

theorem Sound.isLoaded_of_load {id : UnitId} {stall : LoaderError} {l l' : Loader ω χ}
    {value : Value}
    (h : ({ loader := l, control := .running (loadCode id stall), stack := base } :
      Machine ω χ).Sound)
    (hends : Ends p base l (loadCode id stall) (.ok value) l') (hunit : (l.unit? id).isSome) :
    l'.isLoaded id = true := by
  obtain ⟨hcompleted, hfound⟩ := hends.of_load
  have hidle : Stack.owed base = 0 := h.idle rfl
  have hbalanced := (hends.sound h).balances_of_not_falls (not_falls_of_ok rfl)
  rw [hidle] at hbalanced
  have hwave := hbalanced.wave_eq_none hcompleted
  obtain ⟨unit, hunit⟩ := Option.isSome_iff_exists.mp hunit
  obtain ⟨s, hs, -⟩ := hends.keeps (Loader.standing?_of_unit? hunit)
  obtain ⟨unit', hunit', rfl⟩ := Loader.standing?_eq_some.mp hs
  exact Loader.isLoaded_iff.mpr ⟨_, hs, loaded_of_loadFailure? hunit' hwave hfound⟩

/-- A load that succeeds finds the unit loaded. -/
theorem Reachable.isLoaded_of_load {id : UnitId} {stall : LoaderError} {l l' : Loader ω χ}
    {value : Value} (h : Reachable p ⟨l, .running (loadCode id stall), base⟩)
    (hends : Ends p base l (loadCode id stall) (.ok value) l') (hunit : (l.unit? id).isSome) :
    l'.isLoaded id = true :=
  (h.sound p).isLoaded_of_load hends hunit

open Journal Loader Relation in
/-- **When a load can be trusted.** If all lookups of a key found the same file, the closure of a
unit whose load succeeded is complete exactly when its suspect references have led to loaded units:
those that a wave had asked for that was dropped, or whose units had joined such a wave, and those
that were asked for before a reset. -/
theorem Reachable.load_complete_iff {id : UnitId} {stall : LoaderError} {l l' : Loader ω χ}
    {value : Value} (h : Reachable p ⟨l, .running (loadCode id stall), base⟩)
    (hunit : (l.unit? id).isSome) (hends : Ends p base l (loadCode id stall) (.ok value) l')
    (hconsistent : Consistent l'.journal) :
    (∀ id', ReflTransGen l'.Leads id id' → l'.Complete id') ↔
      ∀ id', ReflTransGen l'.Leads id id' → l'.Cleared id' :=
  ((hends.reachable h).tracked hconsistent).traced.closure_complete_iff
    (h.isLoaded_of_load hends hunit)

/-- The first of two files that refer to the same missing file has been loaded, in vain. -/
def orphanFailed : Machine (List Request) Unit :=
  run (Project.orphans.platform List.head?) 40
    { loader := { world := [], base := .file "/".toList }
      control := .running (.openUnit (.file "/a".toList) fun _ ↦ .openUnit (.file "/b".toList)
        fun _ ↦ loadCode 0 .detached) }

/-- Then the second has been. -/
def orphanLoaded : Machine (List Request) Unit :=
  run (Project.orphans.platform List.head?) 40
    ⟨orphanFailed.loader, .running (loadCode 1 .detached), []⟩

/-- The load of the second file succeeds, though its reference has led nowhere. -/
theorem load_complete_iff_orphanLoaded :
    (∃ value, Ends (Project.orphans.platform List.head?) [] orphanFailed.loader
      (loadCode 1 .detached) (.ok value) orphanLoaded.loader) ∧
    ¬orphanLoaded.loader.Complete 1 ∧
    ∃ id, Relation.ReflTransGen orphanLoaded.loader.Leads 1 id ∧
      ¬orphanLoaded.loader.Cleared id := by
  have hhalted : orphanFailed.isHalted = true := by decide +kernel
  have hreachable : Machine.Reachable (Project.orphans.platform List.head?)
      ⟨orphanFailed.loader, .running (loadCode 1 .detached), []⟩ := by
    obtain ⟨outcome, -, hs⟩ := exists_of_isHalted hhalted
    have hfailed : orphanFailed.Reachable (Project.orphans.platform List.head?) :=
      (Reachable.start (Loader.isFresh_mk _ _) _).run _ 40
    exact hs ▸ hfailed.again hhalted (loadCode 1 .detached)
  have hreturned : orphanLoaded.value?.isSome = true := by decide +kernel
  obtain ⟨value, hvalue⟩ := Option.isSome_iff_exists.mp hreturned
  obtain ⟨hcontrol, hs⟩ := of_value?_eq_some hvalue
  have hends : Ends (Project.orphans.platform List.head?) [] orphanFailed.loader
      (loadCode 1 .detached) (.ok value) orphanLoaded.loader := ends_of_run 40 rfl hcontrol hs
  have hconsistent : Journal.Consistent orphanLoaded.loader.journal := by decide +kernel
  have hiff := Reachable.load_complete_iff hreachable (by decide +kernel) hends hconsistent
  have hincomplete : ¬orphanLoaded.loader.Complete 1 := by decide +kernel
  refine ⟨⟨value, hends⟩, hincomplete, ?_⟩
  by_contra hcleared
  refine hincomplete (hiff.mpr (fun id hleads ↦ ?_) 1 .refl)
  by_contra hsuspect
  exact hcleared ⟨id, hleads, hsuspect⟩

end Machine

end ScriptLoader
