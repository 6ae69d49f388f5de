import ScriptLoader.Proofs.Loading

/-!
# Driving ends idle

Code that drives a loader waits until all lookups are completed, or until completing one has failed.
Either way it finds the loader idle when it goes on: no wave is active and no lookup is under way,
whatever the callbacks have begun in between. Only a wait that is given up leaves lookups behind.

A load relies on this. It reports a unit that is not loaded only when no wave is active, which after
driving is always the case.
-/

namespace ScriptLoader

variable {ω χ : Type}

/-- Code that waits for lookups does not go on by waiting in the same way. -/
theorem Code.ne_of_eq_drive : ∀ (code : Code ω) {next : Awaited Unit → Code ω},
    code = .drive next → ∀ awaited, next awaited ≠ code
  | .drive rest, _, rfl, awaited, heq => (rest awaited).ne_of_eq_drive heq awaited rfl

namespace Machine

variable {p : Platform ω χ} {base : List (Frame ω χ)} {m m' : Machine ω χ}
  {next : Awaited Unit → Code ω}

/-! ## Waiting for lookups -/

/-- Code on a stack waits until all lookups are completed. -/
inductive IsDriving (next : Awaited Unit → Code ω) (base : List (Frame ω χ)) :
    Machine ω χ → Prop
  | asking (l : Loader ω χ) : IsDriving next base ⟨l, .running (.drive next), base⟩
  /-- A lookup is being completed. -/
  | completing {m : Machine ω χ} {above : List (Frame ω χ)}
      (stack : m.stack = above ++ .driving next :: base) : IsDriving next base m

/-- The first machine of a run at which code on a stack no longer waits for lookups. -/
inductive DrivesTo (p : Platform ω χ) (next : Awaited Unit → Code ω)
    (base : List (Frame ω χ)) : Machine ω χ → Machine ω χ → Prop
  | stop {m : Machine ω χ} (ended : ¬m.IsDriving next base) : DrivesTo p next base m m
  | step {m m' : Machine ω χ} (waiting : m.IsDriving next base)
      (rest : DrivesTo p next base (m.step p) m') : DrivesTo p next base m m'

/-- The code that has waited goes on: with the outcome of driving, which finds the loader idle, or
because the wait was given up. -/
inductive HasDriven (next : Awaited Unit → Code ω) (base : List (Frame ω χ)) :
    Machine ω χ → Prop
  | settled {l : Loader ω χ} (result : Except LoaderError Unit) (wave : l.wave = none)
      (lookups : l.lookups = []) :
      HasDriven next base ⟨l, .running (next (.settled result)), base⟩
  | stalled {l : Loader ω χ} (lookups : l.lookups ≠ []) :
      HasDriven next base ⟨l, .running (next .stalled), base⟩

/-- Code that goes on has waited. -/
theorem not_isDriving_of_next (l : Loader ω χ) (next : Awaited Unit → Code ω)
    (base : List (Frame ω χ)) (awaited : Awaited Unit) :
    ¬IsDriving next base ⟨l, .running (next awaited), base⟩ := by
  intro hdriving
  generalize hcode : next awaited = code at hdriving
  cases hdriving with
  | asking => exact Code.ne_of_eq_drive _ rfl _ hcode
  | completing hstack =>
    have hlength := congrArg List.length hstack
    simp at hlength
    omega

theorem HasDriven.not_isDriving (h : m.HasDriven next base) : ¬m.IsDriving next base := by
  cases h with
  | settled => exact not_isDriving_of_next _ _ _ _
  | stalled => exact not_isDriving_of_next _ _ _ _

theorem drive_of_lookups_eq_nil (h : m.loader.lookups = []) (next : Awaited Unit → Code ω) :
    m.drive p next = m.start (next (.settled (.ok ⟨⟩))) := by
  rw [drive, if_pos (List.isEmpty_iff.mpr h)]

/-- When the next lookup is to be completed, there is one, or the wait is over. -/
theorem Ready.drive (h : Ready m.loader m.stack) (next : Awaited Unit → Code ω) :
    (m.drive p next).IsDriving next m.stack ∨ (m.drive p next).HasDriven next m.stack := by
  by_cases hempty : m.loader.lookups = []
  · rw [drive_of_lookups_eq_nil hempty]
    exact .inr (.settled _ (h.balanced.wave_eq_none hempty) hempty)
  · rcases drive_cases p m next with
      ⟨hnone, -⟩ | ⟨world, -, heq⟩ | ⟨world, before, lookup, after, -, -, heq⟩
    · exact absurd hnone hempty
    · rw [heq]
      exact .inr (.stalled (l := { m.loader with world }) hempty)
    · rw [heq]
      obtain ⟨pushed, hpushed⟩ := (extends_completeLookup p _ lookup).stack
      exact .inl (.completing hpushed.symm)

theorem IsDriving.step (h : m.IsDriving next base) (hsound : m.Sound) :
    (m.step p).IsDriving next base ∨ (m.step p).HasDriven next base := by
  cases h with
  | asking l => exact Ready.drive (m := ⟨l, .running (.drive next), base⟩) (hsound.ready rfl) next
  | completing hstack =>
    rcases stack_step (p := p) hstack with ⟨above, habove⟩ | ⟨rfl, outcome, hcontrol⟩
    · exact .inl (.completing habove)
    · rw [List.nil_append] at hstack
      rw [Machine.step, hcontrol, hstack]
      cases outcome with
      | ok value =>
        have hready := hsound.ready_below hstack rfl (not_falls_of_ok hcontrol)
        exact Ready.drive (m := { m with control := .returning (.ok value), stack := base })
          hready next
      | error e =>
        -- the error has dropped the wave and all lookups
        obtain ⟨world, heq⟩ := m.loader.abort_eq p e
        refine .inr (.settled (l := m.loader.abort p e) _ ?_ ?_)
        all_goals rw [heq]

/-- **Driving ends idle**, unless it is given up. -/
theorem DrivesTo.hasDriven (h : DrivesTo p next base m m') (hsound : m.Sound)
    (hdriving : m.IsDriving next base) : m'.HasDriven next base := by
  induction h with
  | stop hended => exact absurd hdriving hended
  | @step m m' _ rest ih =>
    rcases hdriving.step (p := p) hsound with hstill | hdriven
    · exact ih (hsound.turn p (step_turn p m)) hstill
    · -- code that goes on does not wait any more
      cases rest with
      | stop => exact hdriven
      | step hwaiting => exact absurd hwaiting hdriven.not_isDriving

/-! ## Loading -/

/-- Whatever code runs, other code may run in its place. -/
theorem Sound.replace {l : Loader ω χ} {code : Code ω}
    (h : ({ loader := l, control := .running code, stack := base } : Machine ω χ).Sound)
    (code' : Code ω) :
    ({ loader := l, control := .running code', stack := base } : Machine ω χ).Sound :=
  Ready.sound (m := ⟨l, .running code', base⟩) (h.ready rfl)

theorem loadFailure?_eq {l : Loader ω χ} {id : UnitId} {unit : LoadedUnit ω χ}
    (hunit : l.unit? id = some unit) (hwave : l.wave = none) :
    Program.loadFailure? id l.view
      = if l.isLoaded id then none else some (.incompleteLoad unit.info.url.text) := by
  have hview : l.view.unit? id = some unit.view := congrArg (Option.map _) hunit
  have hidle : l.view.outstanding = none := congrArg (Option.map _) hwave
  rw [Program.loadFailure?, hview, hidle, Loader.isLoaded, hunit]
  by_cases hloaded : unit.info.status = .loaded <;> simp [LoadedUnit.view, hloaded]

variable {l l' : Loader ω χ} {code : Code ω} {id : UnitId} {unit : LoadedUnit ω χ}
  {stall : LoaderError}

theorem Runs.exists_unit (h : Runs p base m m') (hunit : m.loader.unit? id = some unit) :
    ∃ unit', m'.loader.unit? id = some unit' ∧ unit'.info.url = unit.info.url := by
  obtain ⟨s, hs, hurl, -⟩ := h.keeps (Loader.standing?_of_unit? hunit)
  obtain ⟨unit', hunit', rfl⟩ := Loader.standing?_eq_some.mp hs
  exact ⟨unit', hunit', hurl⟩

/-- A load whose driving has succeeded finds all lookups completed. -/
theorem Loading.lookups_eq_nil
    (h : Loading id stall base ⟨l, .running (afterDriving id stall (.settled (.ok ⟨⟩))), base⟩) :
    l.lookups = [] := by
  generalize hm : (⟨l, .running (afterDriving id stall (.settled (.ok ⟨⟩))), base⟩ :
    Machine ω χ) = m at h
  cases h with
  | asked hstack | completing hstack =>
    exact absurd (hm ▸ hstack) (ne_append_cons (List.suffix_refl base))
  | looking hcompleted =>
    cases hm
    exact hcompleted
  | asking => rw [loadCode_eq] at hm; cases hm
  | _ => cases hm

/-- A load whose driving has succeeded ends with what has become of the unit. -/
theorem ends_of_driven
    (hsound : ({ loader := l, control := .running code, stack := base } : Machine ω χ).Sound)
    (hunit : l.unit? id = some unit)
    (hruns : Runs p base ⟨l, .running (loadCode id stall), base⟩
      ⟨l', .running (afterDriving id stall (.settled (.ok ⟨⟩))), base⟩) :
    Ends p base l (loadCode id stall)
      (if l'.isLoaded id then .ok .undefined else .error (.incompleteLoad unit.info.url.text))
      l' := by
  have hlookups := ((Loading.asking l).runs hruns).lookups_eq_nil
  have hwave := ((hruns.sound (hsound.replace _)).ready rfl).balanced.wave_eq_none hlookups
  obtain ⟨unit', hunit', hurl⟩ := hruns.exists_unit hunit
  have hfailure : Program.loadFailure? id l'.view
      = if l'.isLoaded id then none else some (.incompleteLoad unit.info.url.text) := by
    rw [loadFailure?_eq hunit' hwave, hurl]
  refine hruns.trans ?_
  rw [afterDriving]
  refine (runs_of_running (rfl : step p ⟨l', _, base⟩ = ⟨l', _, base⟩)).trans ?_
  dsimp only
  cases hloaded : l'.isLoaded id
  all_goals
    rw [hfailure, hloaded]
    exact runs_of_running rfl

/-- **Driving ends idle, and a load tells whether the unit is loaded.** Whenever code runs, and
whatever it has done before:

* If it drives the loader, it goes on with the outcome at a moment when no wave is active, no
  reference is unsettled and no lookup is under way. Only when the wait is given up, because none of
  the lookups can be completed, some are left.
* If it loads a unit and this succeeds, the unit is loaded.
* If driving succeeds for a load, the load ends at once, and fails exactly if the unit is not
  loaded; the error names it. -/
theorem Reachable.driven_idle (h : Reachable p ⟨l, .running code, base⟩) :
    (∀ next m', DrivesTo p next base ⟨l, .running (.drive next), base⟩ m' →
      (∃ result l', m' = ⟨l', .running (next (.settled result)), base⟩ ∧ l'.wave = none ∧
        l'.view.outstanding = none ∧ l'.view.pendingLookups = 0) ∨
      ∃ l', m' = ⟨l', .running (next .stalled), base⟩ ∧ l'.lookups ≠ []) ∧
    ∀ id unit stall, l.unit? id = some unit →
      (∀ value l', Ends p base l (loadCode id stall) (.ok value) l' → l'.isLoaded id = true) ∧
      ∀ l', Runs p base ⟨l, .running (loadCode id stall), base⟩
          ⟨l', .running (afterDriving id stall (.settled (.ok ⟨⟩))), base⟩ →
        Ends p base l (loadCode id stall)
          (if l'.isLoaded id then .ok .undefined
            else .error (.incompleteLoad unit.info.url.text)) l' := by
  have hsound := h.sound p
  refine ⟨fun next m' hto ↦ ?_, fun id unit stall hunit ↦ ⟨fun value l' hends ↦ ?_, fun l' hruns ↦
    ends_of_driven hsound hunit hruns⟩⟩
  · cases hto.hasDriven (hsound.replace _) (.asking l) with
    | @settled l' result hwave hlookups =>
      refine .inl ⟨result, l', rfl, hwave, ?_, ?_⟩
      · rw [Loader.view, hwave]
        rfl
      · rw [Loader.view, hlookups]
        rfl
    | @stalled l' hlookups => exact .inr ⟨l', rfl, hlookups⟩
  · exact (hsound.replace _).isLoaded_of_load hends (Option.isSome_iff_exists.mpr ⟨unit, hunit⟩)

/-- The first of the two files is loaded once more. No lookup is under way any more, and the unit is
still waiting for the one that was dropped. -/
theorem driven_idle_orphanFailed :
    ∃ l', Ends (Project.orphans.platform List.head?) [] orphanFailed.loader (loadCode 0 .detached)
      (.error (.incompleteLoad "file:///a")) l' := by
  let p := Project.orphans.platform List.head?
  have hhalted : orphanFailed.isHalted = true := by decide +kernel
  have hreachable : Machine.Reachable p
      ⟨orphanFailed.loader, .running (.finish (.ok .undefined)), []⟩ := by
    obtain ⟨outcome, -, hs⟩ := exists_of_isHalted hhalted
    have hfailed : orphanFailed.Reachable p :=
      (Reachable.start (Loader.isFresh_mk _ _) _).run _ 40
    exact hs ▸ hfailed.again hhalted _
  obtain ⟨unit, hunit, hinfo⟩ : ∃ unit, orphanFailed.loader.unit? 0 = some unit ∧
      (unit.info.status, unit.info.url.text) = (.loading, "file:///a") :=
    Option.map_eq_some_iff.mp (by decide +kernel)
  obtain ⟨hstatus, hurl⟩ := Prod.mk.inj hinfo
  have hlookups : orphanFailed.loader.lookups = [] :=
    List.isEmpty_iff.mp (by decide +kernel)
  -- the request only adds to the unit, and nothing is left to drive
  let l' := orphanFailed.loader.modifyUnit 0 fun unit ↦
    { unit with callbacks := unit.callbacks ++ [] }
  have hasked : step p ⟨orphanFailed.loader, .running (loadCode 0 .detached), []⟩
      = ⟨l', .returning (.ok .undefined), [.resumeAfter (afterAsking 0 .detached)]⟩ := by
    rw [loadCode_eq]
    simp only [step, runCode, push, loadDependencies, hunit, hstatus]
    rfl
  have hdriven : step p ⟨l', .running (.drive (afterDriving 0 .detached)), []⟩
      = ⟨l', .running (afterDriving 0 .detached (.settled (.ok ⟨⟩))), []⟩ :=
    drive_of_lookups_eq_nil (p := p) (m := ⟨l', _, []⟩) hlookups _
  have hruns : Runs p [] ⟨orphanFailed.loader, .running (loadCode 0 .detached), []⟩
      ⟨l', .running (afterDriving 0 .detached (.settled (.ok ⟨⟩))), []⟩ :=
    (runs_of_running hasked).trans ((runs_of_frame rfl rfl).trans (runs_of_running hdriven))
  have hends := ((Reachable.driven_idle hreachable).2 0 unit .detached hunit).2 l' hruns
  have hwaiting : l'.isLoaded 0 = false := by decide +kernel
  rw [hwaiting, hurl] at hends
  exact ⟨l', hends⟩

end Machine

end ScriptLoader
