import ScriptLoader.Proofs.Bodies
import ScriptLoader.Proofs.Ending

/-!
# Before a unit is executed

A unit is run by loading its dependencies and then executing it. If nothing has been done with the
loader before but to make units, then no callback waits for anything, so all that happens while the
dependencies are loaded is the work of the loader: something is returned from one of its frames to
the next until the code that loads them goes on. Nothing is executed by then, and every URL keeps
its unit.
-/

namespace ScriptLoader

variable {ω χ : Type}

/-! ## Unused loaders -/

namespace Loader

variable {l l' : Loader ω χ}

/-- Units may have been made, but no lookup is under way, no callback waits, and nothing has been
executed or forgotten. -/
structure IsUnused (l : Loader ω χ) : Prop where
  lookups : l.lookups = []
  callbacks : ∀ {id s}, l.standing? id = some s → s.callbacks = []
  journal : ∀ e ∈ l.journal, e.isExecution = false
  /-- A unit that is to be compiled is the unit of its URL. -/
  filed : ∀ {id s}, l.standing? id = some s → l.stage? id = some .pending →
    l.cache.unit? s.url = some id

theorem IsFresh.isUnused (h : l.IsFresh) : l.IsUnused where
  lookups := h.lookups
  callbacks hs := by
    rw [h.standing?] at hs
    cases hs
  journal := by simp [h.journal]
  filed hs := by
    rw [h.standing?] at hs
    cases hs

variable (p : Platform ω χ)

/-- Any unit that comes about when a file is made into one is the unit of its URL. -/
theorem standing?_unitOfResource (l : Loader ω χ) (resource : Resource) {id : UnitId}
    {s : Standing ω} (hs : (l.unitOfResource p resource).1.standing? id = some s) :
    l.standing? id = some s ∨ (l.unitOfResource p resource).1.cache.unit? s.url = some id := by
  have hmakes := l.makes_createOfResource p resource
  rw [unitOfResource] at hs ⊢
  cases hid : l.cache.unit? resource.url with
  | some other =>
    rw [hid] at hs
    exact .inl hs
  | none =>
    rw [hid] at hs
    rcases h : l.createOfResource p resource with ⟨l', result⟩
    rw [h] at hmakes hs
    cases hmakes with
    | failed => exact .inl hs
    | made world events unit _ _ hnamed =>
      have hadded := (standing?_append (l := l) rfl id).symm.trans hs
      split at hadded
      case isTrue heq =>
        cases hadded
        refine .inr ((ResolutionCache.unit?_insertUnit _ _ _ _).trans ?_)
        exact (if_pos hnamed).trans (congrArg some heq.symm)
      case isFalse => exact .inl hadded

namespace IsUnused

variable {p}

theorem world (h : l.IsUnused) (world : ω) : IsUnused { l with world } :=
  ⟨h.lookups, h.callbacks, h.journal, h.filed⟩

/-- To make a unit of a file is not to use the loader. -/
theorem unitOfResource (h : l.IsUnused) (resource : Resource) :
    (l.unitOfResource p resource).1.IsUnused := by
  have hquiet := l.quiet_unitOfResource p resource
  have hspares := (l.strokes_unitOfResource p resource).spares
  refine ⟨hquiet.lookups.trans h.lookups, fun hs ↦ ?_, hspares.not_isExecution h.journal,
    fun {id s} hs hstage ↦ ?_⟩
  · rcases hquiet.fresh hs with hold | ⟨-, hnew⟩
    · exact h.callbacks hold
    · exact hnew.callbacks
  · rcases l.standing?_unitOfResource p resource hs with hold | hfiled
    · obtain ⟨unit, hunit, rfl⟩ := standing?_eq_some.mp hold
      rw [hspares.stage?_of_unit? hunit] at hstage
      exact hquiet.filed (h.filed hold hstage)
    · exact hfiled

theorem unitOfAnswer (h : l.IsUnused) (locator : String) (origin : Option Url)
    (answer : Except LoaderError (Option Resource)) :
    (l.unitOfAnswer p locator origin answer).1.IsUnused := by
  rcases answer with e | _ | resource
  · exact h
  · exact h
  · exact h.unitOfResource resource

/-- Nor is it to find the unit of a URL. -/
theorem openUnit (h : l.IsUnused) (url : Url) : (l.openUnit p url).1.IsUnused := by
  rw [Loader.openUnit]
  split
  · exact h
  · obtain ⟨world, ticket⟩ := p.resolver.resolve l.world url l.substitutions
    rcases hnext : p.resolver.next? world [ticket] with ⟨world', _ | _⟩
    all_goals simp only [hnext]
    · exact h.world _
    · exact (h.world _).unitOfAnswer _ _ _

end IsUnused

/-- From a loader on, nothing has been imported, executed or forgotten. -/
structure Untouched (first : Loader ω χ) (scene : Scene ω χ) : Prop where
  imports : scene.ImportsNothing
  spares : first.Spares scene.loader
  filed : ∀ {url id}, first.cache.unit? url = some id → scene.loader.cache.unit? url = some id

/-- A unit that is still to be compiled is the unit of its URL. -/
theorem Untouched.filed_of_pending {stack : List (Frame ω χ)} (h : l.Untouched ⟨l', stack⟩)
    (hunused : l.IsUnused) {id : UnitId} {unit : LoadedUnit ω χ} (hunit : l.unit? id = some unit)
    (hpending : l'.stage? id = some .pending) : l'.Filed id := by
  rw [h.spares.stage?_of_unit? hunit] at hpending
  exact ⟨_, h.filed (hunused.filed (standing?_of_unit? hunit) hpending)⟩

end Loader

/-- No callback waits for anything. -/
def Scene.HoldsNothing (scene : Scene ω χ) : Prop := ∀ callback, ¬scene.Holds callback

namespace Loader.IsUnused

variable {l : Loader ω χ} (h : l.IsUnused)

include h

theorem holdsNothing : Scene.HoldsNothing ⟨l, []⟩ := by
  rintro callback (⟨id, s, hs, hcallback⟩ | ⟨frame, hframe, -⟩)
  · rw [h.callbacks hs] at hcallback
    cases hcallback
  · cases hframe

theorem untouched : l.Untouched ⟨l, []⟩ where
  imports :=
    { lookups := by simp [h.lookups]
      callbacks := fun callback hheld ↦ absurd hheld (h.holdsNothing callback) }
  spares := .refl l
  filed hid := hid

end Loader.IsUnused

/-- A frame in which the loader does its own work. -/
def Frame.isServing : Frame ω χ → Bool
  | dispatching .. | draining .. | aborting => true
  | _ => false

theorem Frame.isServing_of_isBusy {frame : Frame ω χ} (h : frame.isBusy = true) :
    frame.isServing = true := by
  cases frame <;> first | rfl | cases h

namespace Machine

open Loader

variable {p : Platform ω χ} {base : List (Frame ω χ)} {m m' : Machine ω χ} {first : Loader ω χ}
  {id : UnitId} {next : Awaited Unit → Code ω}

theorem untouched_step (h : first.Untouched m.scene) (hasks : ∀ deed ∈ m.asks?, deed = .loads)
    (hexecutes : m.executes = false) : first.Untouched (m.step p).scene := by
  let allowed (deed : Deed) : Prop := deed = .loads ∨ deed = .completes
  have hpermits : m.Permits allowed :=
    .of_importsNothing h.imports (by simp [allowed]) (fun deed hdeed ↦ .inl (hasks deed hdeed))
      (by simp [hexecutes]) (by simp [allowed])
  refine (step_moves p hpermits).invariant (fun {a b} hmove ha ↦ ⟨?_, ?_, fun hid ↦ ?_⟩) h
  · exact hmove.importsNothing (by simp [allowed]) ha.imports
  · exact ha.spares.trans (hmove.spares (by simp [allowed]))
  · exact (hmove.filed.resolve_right (by simp [allowed])) (ha.filed hid)

/-- No callback comes to wait unless something is asked for. -/
theorem holdsNothing_step (h : m.scene.ImportsNothing) (hnone : m.scene.HoldsNothing)
    (hasks : m.asks? = none) : (m.step p).scene.HoldsNothing := by
  have hpermits : m.Permits fun deed ↦ deed ≠ .loads ∧ deed ≠ .imports :=
    .of_importsNothing h (by simp) (by simp [hasks]) (by simp) (by simp)
  refine (step_moves p hpermits).invariant (fun hmove ha callback hheld ↦ ?_) hnone
  exact ha callback ((hmove.holds hheld).resolve_right (by simp))

/-! ## The work of the loader -/

/-- Something is returned, and above a stack the loader does its own work. -/
structure IsServing (m : Machine ω χ) (base : List (Frame ω χ)) : Prop where
  returns : ∃ outcome, m.control = .returning outcome
  stack : ∃ above, m.stack = above ++ base ∧ ∀ f ∈ above, f.isServing = true

namespace IsServing

theorem of_stack (hreturns : ∃ outcome, m.control = .returning outcome) (hs : m.stack = base) :
    m.IsServing base :=
  ⟨hreturns, [], hs, by simp⟩

theorem push {frame : Frame ω χ} (h : m.IsServing (frame :: base))
    (hframe : frame.isServing = true) : m.IsServing base := by
  obtain ⟨hreturns, above, hs, habove⟩ := h
  refine ⟨hreturns, above ++ [frame], by rw [hs, List.append_assoc]; rfl, ?_⟩
  rw [List.forall_mem_append]
  exact ⟨habove, by simpa using hframe⟩

theorem above {above : List (Frame ω χ)} (h : m.IsServing (above ++ base))
    (habove : ∀ f ∈ above, f.isServing = true) : m.IsServing base := by
  induction above with
  | nil => exact h
  | cons frame above ih =>
    obtain ⟨hframe, habove⟩ := List.forall_mem_cons.mp habove
    exact ih (h.push hframe) habove

end IsServing

theorem Works.isServing (h : m.Works m') : m'.IsServing m.stack := by
  obtain ⟨hreturns, above, hs, hbusy, -⟩ := h
  exact ⟨hreturns, above, hs, fun f hf ↦ Frame.isServing_of_isBusy (hbusy f hf)⟩

/-- Where no callback waits, the loader goes on with its own work until something is returned to the
stack below. -/
theorem IsServing.step (h : m.IsServing base) (hnone : m.scene.HoldsNothing) :
    m.stack = base ∨ (m.step p).IsServing base := by
  obtain ⟨⟨outcome, hcontrol⟩, above, hs, habove⟩ := h
  cases above with
  | nil => exact .inl hs
  | cons top above =>
    obtain ⟨htop, habove⟩ := List.forall_mem_cons.mp habove
    suffices hstep : (m.step p).IsServing (above ++ base) from .inr (hstep.above habove)
    rw [step_of_returning hcontrol hs, List.append_eq]
    cases top with
    | dispatching id searcher rest =>
      cases outcome with
      | error e => exact .of_stack ⟨_, rfl⟩ rfl
      | ok value =>
        cases rest with
        | nil => exact .of_stack ⟨_, rfl⟩ rfl
        | cons reference rest =>
          have hworks := works_continueDispatching (p := p)
            ({ m with stack := above ++ base } : Machine ω χ) id searcher reference rest
          exact hworks.isServing.push rfl
    | draining id callbacks rest =>
      cases outcome with
      | error e => exact .of_stack ⟨_, rfl⟩ rfl
      | ok value =>
        cases callbacks with
        | cons callback callbacks =>
          have htop : .draining id (callback :: callbacks) rest ∈ m.stack :=
            hs ▸ List.mem_cons_self
          exact absurd (.inr ⟨_, htop, List.mem_cons_self⟩) (hnone callback)
        | nil =>
          cases rest with
          | nil => exact .of_stack ⟨_, rfl⟩ rfl
          | cons id rest => exact (IsServing.of_stack ⟨_, rfl⟩ rfl).push rfl
    | aborting => cases outcome <;> exact .of_stack ⟨_, rfl⟩ rfl
    | _ => cases htop

/-- The loader goes on with its own work, or something is returned to the frame below it. -/
theorem IsServing.step_or_resume {frame : Frame ω χ} (h : m.IsServing (frame :: base))
    (hnone : m.scene.HoldsNothing) :
    (m.step p).IsServing (frame :: base) ∨
      ∃ outcome, m.step p = ({ m with stack := base } : Machine ω χ).resume p frame outcome := by
  rcases h.step (p := p) hnone with hs | hserving
  · obtain ⟨outcome, hcontrol⟩ := h.returns
    exact .inr ⟨outcome, step_of_returning hcontrol hs⟩
  · exact .inl hserving

/-- Frames of the loader do not wait for anything to be executed. -/
theorem IsServing.asks_executes {frame : Frame ω χ} (h : m.IsServing (frame :: base))
    (hframe : frame.deed? ≠ some .executes) : m.asks? = none ∧ m.executes = false := by
  obtain ⟨⟨outcome, hcontrol⟩, above, hs, habove⟩ := h
  rw [asks?, executes, hcontrol, hs]
  refine ⟨rfl, ?_⟩
  cases above with
  | nil => cases frame <;> first | rfl | exact absurd rfl hframe
  | cons top above =>
    have htop := habove top List.mem_cons_self
    cases top <;> first | rfl | cases htop

/-! ## Dependencies are asked for -/

theorem isServing_loadDependencies (m : Machine ω χ) (id : UnitId) :
    (m.loadDependencies p id none).IsServing m.stack := by
  cases hs : m.loader.standing? id with
  | none =>
    rw [loadDependencies_unknown p hs]
    exact .of_stack ⟨_, rfl⟩ rfl
  | some s =>
    rw [loadDependencies_eq p hs]
    cases s.status with
    | loaded => exact .of_stack ⟨_, rfl⟩ rfl
    | loading => exact .of_stack ⟨_, rfl⟩ rfl
    | unloaded =>
      dsimp only
      split
      · exact .of_stack ⟨_, rfl⟩ rfl
      · exact (works_join _ id).isServing.push rfl

theorem holds_of_loadDependencies {callback : Callback ω}
    (h : (m.loadDependencies p id none).scene.Holds callback) : m.scene.Holds callback := by
  cases hs : m.loader.standing? id with
  | none =>
    rw [loadDependencies_unknown p hs] at h
    exact h
  | some s =>
    rw [loadDependencies_eq p hs] at h
    have hbegun {other : UnitId} {s' : Standing ω}
        (hs' : (m.loader.beginWave id none).standing? other = some s') :
        ∃ s, m.loader.standing? other = some s ∧ s'.callbacks = s.callbacks :=
      ⟨s', (m.loader.standing?_beginWave id other).symm.trans hs', rfl⟩
    cases hstatus : s.status with
    | loaded =>
      rw [hstatus] at h
      exact h
    | loading =>
      rw [hstatus] at h
      exact h.of_same (fun hs' ↦ hbegun hs') fun f hf ↦ .inl hf
    | unloaded =>
      rw [hstatus] at h
      dsimp only at h
      split at h
      case isTrue => exact h
      case isFalse =>
        have hs' : (m.loader.beginWave id none).standing? id = some s :=
          (m.loader.standing?_beginWave id id).trans hs
        rw [join_eq (m := (m.update (·.beginWave id none)).push .aborting) rfl hs'] at h
        refine h.of_same (fun {other s'} hjoined ↦ ?_) fun f hf ↦ ?_
        · obtain ⟨s₀, hs₀, hsame⟩ := exists_standing?_enroll _ _ id s hjoined
          obtain ⟨s₁, hs₁, hsame'⟩ := hbegun hs₀
          exact ⟨s₁, hs₁, hsame.trans hsame'⟩
        · rcases List.mem_cons.mp hf with rfl | hf
          · exact .inr rfl
          · rcases List.mem_cons.mp hf with rfl | hf
            · exact .inr rfl
            · exact .inl hf

/-- What follows when all lookups have been completed. -/
def afterLookups (id : UnitId) (next : Awaited Unit → Code ω) : Awaited Unit → Code ω
  | .settled (.ok _) => .observe fun view ↦
    match Program.loadFailure? id view with
    | some e => next (.settled (.error e))
    | none => next (.settled (.ok ⟨⟩))
  | .settled (.error e) => next (.settled (.error e))
  | .stalled => next .stalled

/-- What follows when the dependencies have been asked for. -/
def afterRequest (id : UnitId) (next : Awaited Unit → Code ω) : Except LoaderError Unit → Code ω
  | .ok _ => .drive (afterLookups id next)
  | .error e => next (.settled (.error e))

theorem load_eq (id : UnitId) (next : Awaited Unit → Code ω) :
    Program.load id next = .loadDependencies id none (afterRequest id next) := by
  refine congrArg (Code.loadDependencies id none) (funext fun result ↦ ?_)
  rcases result with e | _
  · rfl
  · refine congrArg Code.drive (funext fun awaited ↦ ?_)
    rcases awaited with (e | _) | _
    · rfl
    · refine congrArg Code.observe (funext fun view ↦ ?_)
      dsimp only
      cases Program.loadFailure? id view <;> rfl
    · rfl

/-- How far code has come that loads the dependencies of a unit, if no other code runs meanwhile. -/
inductive Readying (id : UnitId) (next : Awaited Unit → Code ω) (base : List (Frame ω χ)) :
    Machine ω χ → Prop
  /-- The request is being worked on. -/
  | asked {m : Machine ω χ}
      (serving : m.IsServing (.resumeAfter (afterRequest id next) :: base)) :
      Readying id next base m
  | driving (l) : Readying id next base ⟨l, .running (.drive (afterLookups id next)), base⟩
  /-- A lookup is being completed. -/
  | completing {m : Machine ω χ}
      (serving : m.IsServing (.driving (afterLookups id next) :: base)) :
      Readying id next base m
  /-- All lookups have been completed. -/
  | looking (l) :
      Readying id next base ⟨l, .running (afterLookups id next (.settled (.ok ⟨⟩))), base⟩
  | ready (l awaited) : Readying id next base ⟨l, .running (next awaited), base⟩

namespace Readying

theorem drive (m : Machine ω χ) (hlookups : ∀ lookup ∈ m.loader.lookups, lookup.purpose = .wave) :
    Readying id next m.stack (m.drive p (afterLookups id next)) := by
  rcases drive_cases p m (afterLookups id next) with
    ⟨-, heq⟩ | ⟨world, -, heq⟩ | ⟨world, before, lookup, after, -, hsplit, heq⟩
  all_goals rw [heq]
  · exact .looking _
  · exact .ready _ .stalled
  · have hlookup : lookup ∈ m.loader.lookups :=
      hsplit ▸ List.mem_append_right _ List.mem_cons_self
    exact .completing (works_completeLookup _ (hlookups lookup hlookup)).isServing

theorem step (h : Readying id next base m) (himports : m.scene.ImportsNothing)
    (hnone : m.scene.HoldsNothing) (hready : ∀ l awaited, m ≠ ⟨l, .running (next awaited), base⟩) :
    (m.asks? = none ∧ m.executes = false) ∧ Readying id next base (m.step p) := by
  cases h with
  | asked hserving =>
    refine ⟨hserving.asks_executes (by simp [Frame.deed?]), ?_⟩
    rcases hserving.step_or_resume (p := p) hnone with hserving' | ⟨outcome, heq⟩
    · exact .asked hserving'
    · rw [heq]
      cases outcome with
      | ok value => exact .driving _
      | error e => exact .ready _ (.settled (.error e))
  | driving l => exact ⟨⟨rfl, rfl⟩, Readying.drive ⟨l, _, base⟩ himports.lookups⟩
  | completing hserving =>
    refine ⟨hserving.asks_executes (by simp [Frame.deed?]), ?_⟩
    rcases hserving.step_or_resume (p := p) hnone with hserving' | ⟨outcome, heq⟩
    · exact .completing hserving'
    · rw [heq]
      cases outcome with
      | ok value => exact Readying.drive { m with stack := base } himports.lookups
      | error e => exact .ready _ (.settled (.error e))
  | looking l =>
    refine ⟨⟨rfl, rfl⟩, ?_⟩
    rw [Machine.step, afterLookups]
    cases hfound : Program.loadFailure? id l.view with
    | some e =>
      simp only [runCode, hfound]
      exact .ready l (.settled (.error e))
    | none =>
      simp only [runCode, hfound]
      exact .ready l (.settled (.ok ⟨⟩))
  | ready l awaited => exact absurd rfl (hready l awaited)

/-- Before anything is returned to the stack, it is ready. -/
theorem exists_ready (h : Readying id next base m) (hm : first.Untouched m.scene)
    (hnone : m.scene.HoldsNothing) (hruns : Runs p base m m') (hreturns : m'.Returns base) :
    ∃ l awaited, Runs p base m ⟨l, .running (next awaited), base⟩ ∧
      first.Untouched ⟨l, base⟩ ∧ Runs p base ⟨l, .running (next awaited), base⟩ m' := by
  induction hruns with
  | refl m =>
    obtain ⟨outcome, hcontrol, hs⟩ := hreturns
    -- the stack is higher as long as the loader is at work
    have hlow {frame : Frame ω χ} : ¬m.IsServing (frame :: base) := by
      rintro ⟨-, above, hs', -⟩
      exact ne_append_cons (List.suffix_refl base) (hs.symm.trans hs')
    cases h with
    | asked hserving | completing hserving => exact absurd hserving hlow
    | _ => cases hcontrol
  | @step m m' hpending hrest ih =>
    by_cases hready : ∃ l awaited, m = ⟨l, .running (next awaited), base⟩
    · obtain ⟨l, awaited, rfl⟩ := hready
      exact ⟨l, awaited, .refl _, hm, .step hpending hrest⟩
    · obtain ⟨⟨hasks, hexecutes⟩, hnext⟩ :=
        h.step (p := p) hm.imports hnone fun l awaited heq ↦ hready ⟨l, awaited, heq⟩
      obtain ⟨l, awaited, hruns, huntouched, hrest⟩ :=
        ih hnext (untouched_step hm (by simp [hasks]) hexecutes)
          (holdsNothing_step hm.imports hnone hasks) hreturns
      exact ⟨l, awaited, .step hpending hruns, huntouched, hrest⟩

end Readying

/-- **The dependencies of a unit are loaded before anything else is done** with an unused loader. -/
theorem exists_loaded {l : Loader ω χ} (hunused : l.IsUnused)
    (hruns : Runs p [] ⟨l, .running (Program.load id next), []⟩ m') (hreturns : m'.Returns []) :
    ∃ l' awaited, Runs p [] ⟨l, .running (Program.load id next), []⟩
        ⟨l', .running (next awaited), []⟩ ∧
      l.Untouched ⟨l', []⟩ ∧ Runs p [] ⟨l', .running (next awaited), []⟩ m' := by
  rw [load_eq] at hruns ⊢
  let m : Machine ω χ := ⟨l, .running (.loadDependencies id none (afterRequest id next)), []⟩
  cases hruns with
  | refl =>
    obtain ⟨outcome, hcontrol, -⟩ := hreturns
    cases hcontrol
  | step hpending hrest =>
    have hasked : (m.push (.resumeAfter (afterRequest id next))).scene.HoldsNothing := by
      intro callback hheld
      refine hunused.holdsNothing callback ?_
      refine hheld.of_same (fun hs' ↦ ⟨_, hs', rfl⟩) fun f hf ↦ .inr ?_
      rw [List.mem_singleton.mp hf]
      rfl
    have hreadying : Readying id next [] (m.step p) := .asked (isServing_loadDependencies _ id)
    obtain ⟨l', awaited, hto, huntouched', hfrom⟩ := hreadying.exists_ready
      (untouched_step (m := m) hunused.untouched (by simp [m, asks?]) rfl)
      (fun callback hheld ↦ hasked callback (holds_of_loadDependencies hheld)) hrest hreturns
    exact ⟨l', awaited, .step hpending hto, huntouched', hfrom⟩

end Machine

end ScriptLoader
