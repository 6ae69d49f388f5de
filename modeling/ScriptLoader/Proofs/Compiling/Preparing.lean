import ScriptLoader.Proofs.Compiling.Gathering

/-!
# Running a unit with any loader

A unit is run by loading its dependencies and then executing it. What happens while they are loaded
depends on what the loader has been used for before: lookups may complete that were under way, and
callbacks may be called that have waited. None of it returns anything to the stack on which the unit
is run, so a run that succeeds comes to execute the unit sooner or later.
-/

namespace ScriptLoader

variable {ω χ : Type}

namespace Machine

open Loader

variable {p : Platform ω χ} {base : List (Frame ω χ)} {l₀ l₂ : Loader ω χ} {m m' : Machine ω χ}
  {id entry : UnitId} {next : Awaited Unit → Code ω} {stall : LoaderError} {value : Value}

/-- How far code has come that loads a unit before it goes on, whatever happens meanwhile. -/
inductive Preparing (id : UnitId) (next : Awaited Unit → Code ω) (base : List (Frame ω χ)) :
    Machine ω χ → Prop
  | asking (l) : Preparing id next base ⟨l, .running (Program.load id next), base⟩
  /-- The request is being worked on. -/
  | asked {m above} (stack : m.stack = above ++ .resumeAfter (afterRequest id next) :: base) :
      Preparing id next base m
  | driving (l) : Preparing id next base ⟨l, .running (.drive (afterLookups id next)), base⟩
  /-- A lookup is being completed. -/
  | completing {m above} (stack : m.stack = above ++ .driving (afterLookups id next) :: base) :
      Preparing id next base m
  /-- All lookups have been completed. -/
  | looking (l) :
      Preparing id next base ⟨l, .running (afterLookups id next (.settled (.ok ⟨⟩))), base⟩
  | prepared (l awaited) : Preparing id next base ⟨l, .running (next awaited), base⟩

namespace Preparing

theorem drive (m : Machine ω χ) :
    Preparing id next m.stack (m.drive p (afterLookups id next)) := by
  rcases drive_cases p m (afterLookups id next) with
    ⟨-, heq⟩ | ⟨world, -, heq⟩ | ⟨world, before, lookup, after, -, -, heq⟩
  all_goals rw [heq]
  · exact .looking _
  · exact .prepared _ .stalled
  · obtain ⟨pushed, hpushed⟩ := (extends_completeLookup p _ lookup).stack
    exact .completing hpushed.symm

theorem step (h : Preparing id next base m)
    (hnext : ∀ l awaited, m ≠ ⟨l, .running (next awaited), base⟩) :
    Preparing id next base (m.step p) := by
  cases h with
  | asking l =>
    rw [load_eq]
    have hleads := leads_loadDependencies
      ⟨l, .running (.loadDependencies id none (afterRequest id next)),
        .resumeAfter (afterRequest id next) :: base⟩ p id none
    obtain ⟨pushed, hpushed⟩ := (Extends.of_leads hleads).stack
    exact .asked hpushed.symm
  | asked hs =>
    rcases stack_step (p := p) hs with ⟨above', hs'⟩ | ⟨rfl, outcome, hcontrol⟩
    · exact .asked hs'
    · rw [Machine.step, hcontrol, hs]
      rcases outcome with e | value
      · exact .prepared _ (.settled (.error e))
      · exact .driving _
  | driving l => exact Preparing.drive ⟨l, _, base⟩
  | completing hs =>
    rcases stack_step (p := p) hs with ⟨above', hs'⟩ | ⟨rfl, outcome, hcontrol⟩
    · exact .completing hs'
    · rw [Machine.step, hcontrol, hs]
      rcases outcome with e | value
      · exact .prepared _ (.settled (.error e))
      · exact Preparing.drive { m with control := .returning (.ok value), stack := base }
  | looking l =>
    rw [Machine.step, afterLookups]
    cases hfound : Program.loadFailure? id l.view with
    | some e =>
      simp only [runCode, hfound]
      exact .prepared l (.settled (.error e))
    | none =>
      simp only [runCode, hfound]
      exact .prepared l (.settled (.ok ⟨⟩))
  | prepared l awaited => exact absurd rfl (hnext l awaited)

/-- Code on an empty stack does not ask for imports while a unit is loaded. -/
theorem asks (h : Preparing id next [] m) (hs : m.stack = [])
    (hnext : ∀ l awaited, m ≠ ⟨l, .running (next awaited), []⟩) : m.asks? ≠ some .imports := by
  cases h with
  | asking l => simp [load_eq, asks?]
  | asked hs' | completing hs' => simp [hs'] at hs
  | driving l => simp [asks?]
  | looking l => simp [afterLookups, asks?]
  | prepared l awaited => exact absurd rfl (hnext l awaited)

/-- Before anything is returned to the empty stack, the unit has been loaded, or could not be, and
nothing has been imported. -/
theorem exists_prepared (h : Preparing id next [] m) (hruns : Runs p [] m m')
    (hreturns : m'.Returns []) (himports : m.scene.ImportsNothing)
    (hbodies : ∀ m', Runs p [] m m' → m'.stack ≠ [] → m'.keepsToItself = true) :
    ∃ l awaited, Runs p [] m ⟨l, .running (next awaited), []⟩ ∧
      Scene.ImportsNothing ⟨l, ([] : List (Frame ω χ))⟩ ∧
      Runs p [] ⟨l, .running (next awaited), []⟩ m' := by
  induction hruns with
  | refl m =>
    obtain ⟨outcome, hcontrol, hs⟩ := hreturns
    cases h with
    | asked hs' | completing hs' => simp [hs'] at hs
    | asking l => simp [load_eq] at hcontrol
    | _ => cases hcontrol
  | @step m m' hpending hrest ih =>
    by_cases hnext : ∃ l awaited, m = ⟨l, .running (next awaited), []⟩
    · obtain ⟨l, awaited, rfl⟩ := hnext
      exact ⟨l, awaited, .refl _, himports, .step hpending hrest⟩
    · have hne : ∀ l awaited, m ≠ ⟨l, .running (next awaited), []⟩ :=
        fun l awaited heq ↦ hnext ⟨l, awaited, heq⟩
      have hasks : m.asks? ≠ some .imports := by
        by_cases hs : m.stack = []
        · exact h.asks hs hne
        · intro hasks
          simpa [ofBody] using ofBody_of_asks? (hbodies m (.refl m) hs) _ hasks
      obtain ⟨l, awaited, hruns, himports', hrest'⟩ := ih (h.step hne) hreturns
        (importsNothing_step himports hasks) fun m' hrun ↦ hbodies m' (.step hpending hrun)
      exact ⟨l, awaited, .step hpending hruns, himports', hrest'⟩

end Preparing

/-- **A run that succeeds comes to execute the unit**, and nothing has been imported by then. Bodies
keep to themselves. -/
theorem exists_executing (himports : Scene.ImportsNothing ⟨l₀, ([] : List (Frame ω χ))⟩)
    (hbodies : ∀ m, Runs p [] ⟨l₀, .running (runUnit entry stall), []⟩ m →
      m.stack ≠ [] → m.keepsToItself = true)
    (hends : Ends p [] l₀ (runUnit entry stall) (.ok value) l₂) :
    ∃ l₁, Runs p [] ⟨l₀, .running (runUnit entry stall), []⟩
        ⟨l₁, .running (.execute entry .finish), []⟩ ∧
      Scene.ImportsNothing ⟨l₁, ([] : List (Frame ω χ))⟩ ∧
      Ends p [] l₁ (.execute entry .finish) (.ok value) l₂ := by
  rw [Ends, runUnit_eq] at hends
  rw [runUnit_eq] at hbodies ⊢
  obtain ⟨l₁, awaited, hruns, himports', hrest⟩ :=
    (Preparing.asking l₀).exists_prepared hends ⟨_, rfl, rfl⟩ himports hbodies
  rcases awaited with (e | _) | _
  · exact absurd hrest not_ends_of_error
  · exact ⟨l₁, hruns, himports', hrest⟩
  · exact absurd hrest not_ends_of_error

end Machine

end ScriptLoader
