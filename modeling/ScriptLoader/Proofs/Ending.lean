import ScriptLoader.Proofs.Bounded
import ScriptLoader.Proofs.Driving

/-!
# Driving comes to an end

Completing a lookup may let units join, whose references are then dispatched, and may close a wave,
whose callbacks are then called. All this refills the queue that is being worked off. But it cannot
go on forever: when only finitely many files can be found, units join only finitely often, a wave
that is closed or dropped is not begun anew by itself, and the number of completions is bounded. As
long as none of this happens, there are fewer references and callbacks left after every step.

Callbacks are code, and code may not return. So it is assumed that the callbacks which are called
return, and that they ask for no dependencies, imports or resets.
-/

namespace ScriptLoader

variable {ω χ : Type}

open Journal Loader

/-- How far waves have come: the units that have joined, and one more when no wave is active. -/
def Loader.headway (l : Loader ω χ) : Nat :=
  (joins l.journal).length + if l.wave.isNone then 1 else 0

theorem Loader.headway_congr {l l' : Loader ω χ} (hjoins : joins l'.journal = joins l.journal)
    (hwave : l'.wave.isNone = l.wave.isNone) : l'.headway = l.headway := by
  rw [headway, hjoins, hwave, headway]

theorem Loader.headway_of_quiet {l l' : Loader ω χ} (h : l.Quiet l') : l'.headway = l.headway := by
  obtain ⟨events, heq, hquiet⟩ := h.journal
  refine headway_congr ?_ (by rw [h.wave])
  rw [heq, joins_append, joins_of_minor fun e he ↦ Event.isMinor_of_isQuiet (hquiet e he),
    List.nil_append]

theorem Loader.headway_noteFound (l : Loader ω χ) (world : ω) (key : String)
    (answer : Except LoaderError (Option Resource)) :
    ({ l with world }.noteFound key answer).headway = l.headway := by
  obtain ⟨events, heq, hevents⟩ := { l with world }.noteFound_eq key answer
  rw [heq]
  refine headway_congr (l := l) ?_ rfl
  have hminor : ∀ e ∈ events, e.isMinor = true := by
    intro e he
    obtain ⟨resource, -, rfl⟩ := hevents e he
    rfl
  rw [joins_append, joins_of_minor hminor, List.nil_append]

theorem Loader.headway_settleOne (l : Loader ω χ) : l.settleOne.1.headway = l.headway := by
  cases hwave : l.wave with
  | none =>
    refine headway_congr ?_ (by simp [settleOne, record, hwave])
    simp only [settleOne, record, hwave]
    rfl
  | some wave =>
    rw [settleOne_eq hwave]
    exact headway_congr rfl (by rw [hwave]; rfl)

/-- Whether a frame has references to dispatch, or callbacks to call. -/
def Frame.isBusy : Frame ω χ → Bool
  | dispatching .. | draining .. => true
  | _ => false

namespace Machine

variable {p : Platform ω χ} {m n m' : Machine ω χ} {next : Awaited Unit → Code ω}
  {base : List (Frame ω χ)}

/-! ## What is done for a wave -/

/-- Something is done for a wave, after which there is nothing more to do than before, unless the
waves have come further. -/
structure Works (m m' : Machine ω χ) : Prop where
  returns : ∃ outcome, m'.control = .returning outcome
  stack : ∃ frames, m'.stack = frames ++ m.stack ∧ (∀ f ∈ frames, f.isBusy = true) ∧
    (frames = [] ∨ m.loader.headway < m'.loader.headway)

namespace Works

theorem of_stack (hreturns : ∃ outcome, m'.control = .returning outcome)
    (hstack : m'.stack = m.stack) : m.Works m' :=
  ⟨hreturns, [], hstack, by simp, .inl rfl⟩

theorem done (m : Machine ω χ) : m.Works m.done := .of_stack ⟨_, rfl⟩ rfl

theorem after (hheadway : n.loader.headway = m.loader.headway) (hstack : n.stack = m.stack)
    (h : n.Works m') : m.Works m' := by
  obtain ⟨hreturns, frames, hframes, hbusy, hfurther⟩ := h
  exact ⟨hreturns, frames, hstack ▸ hframes, hbusy, hheadway ▸ hfurther⟩

end Works

theorem works_closeWave (m : Machine ω χ) : m.Works m.closeWave := by
  cases hwave : m.loader.wave with
  | none =>
    rw [closeWave, hwave]
    exact .done m
  | some wave =>
    rw [closeWave_eq hwave]
    refine ⟨⟨_, rfl⟩, _, rfl, fun f hf ↦ ?_, .inr ?_⟩
    · rcases hp : wave.participants with _ | ⟨first, rest⟩
      all_goals rw [hp] at hf
      · cases hf
      · rw [List.mem_singleton.mp hf]
        rfl
    · have hjoins : joins (m.loader.close wave).journal = joins m.loader.journal := by
        rw [journal_close]
        rfl
      rw [headway, headway, hjoins, wave_close, hwave]
      exact Nat.lt_succ_self _

theorem works_join (m : Machine ω χ) (id : UnitId) : m.Works (m.join id) := by
  cases hwave : m.loader.wave with
  | none =>
    rw [join, hwave]
    exact .of_stack ⟨_, rfl⟩ rfl
  | some wave =>
    cases hs : m.loader.standing? id with
    | none =>
      rw [join, hwave, standing?_eq_none.mp hs]
      exact .done m
    | some s =>
      rw [join_eq hwave hs]
      refine ⟨⟨_, rfl⟩, [.dispatching _ _ _], rfl, by simp [Frame.isBusy], .inr ?_⟩
      dsimp only
      have hquiet := (m.loader.enroll wave id s.dependencies).quiet_operation .searcher s.directory
      rw [headway_of_quiet hquiet, headway, headway, hwave]
      exact Nat.lt_succ_self _

theorem works_searchFinished (m : Machine ω χ) (id : UnitId) : m.Works (m.searchFinished id) := by
  rw [searchFinished]
  dsimp only
  split
  · exact .of_stack ⟨_, rfl⟩ rfl
  · have hsettled := m.loader.headway_settleOne
    split
    · exact .after (n := { m with loader := m.loader.settleOne.1 }) hsettled rfl (works_join _ id)
    · split
      · exact .after (n := { m with loader := m.loader.settleOne.1 }) hsettled rfl
          (works_closeWave _)
      · exact .of_stack ⟨_, rfl⟩ rfl

theorem works_search (m : Machine ω χ) (searcher : Operation) (reference : Reference)
    (origin : Option Url) : m.Works (m.search p searcher reference origin .wave) := by
  rcases search_cases p m searcher reference origin .wave with
    ⟨id, -, heq⟩ | ⟨-, ⟨cause, -, heq⟩ | ⟨request, -, heq⟩⟩
  all_goals rw [heq]
  · exact works_searchFinished m id
  · exact .of_stack ⟨_, rfl⟩ rfl
  · exact .of_stack ⟨_, rfl⟩ rfl

theorem works_continueDispatching (m : Machine ω χ) (id : UnitId) (searcher : Operation)
    (reference : Reference) (rest : List Reference) :
    (m.push (.dispatching id searcher rest)).Works
      (m.continueDispatching p id searcher (reference :: rest)) := by
  rw [continueDispatching]
  dsimp only
  split
  · have hsettled := m.loader.headway_settleOne
    split
    · exact .after (n := { m.push (.dispatching id searcher rest) with
        loader := m.loader.settleOne.1 }) hsettled rfl (works_closeWave _)
    · exact .of_stack ⟨_, rfl⟩ rfl
  · exact .after (n := (m.push (.dispatching id searcher rest)).update (·.ask _))
      (headway_congr (l := m.loader) rfl rfl) rfl (works_search _ _ _ _)

theorem works_completeLookup (m : Machine ω χ) {lookup : Lookup ω}
    (hpurpose : lookup.purpose = .wave) : m.Works (m.completeLookup p lookup) := by
  rcases completeLookup_cases p m lookup with
    ⟨l, e, hquiet, heq⟩ | ⟨l, id, resource, -, hquiet, -, heq⟩
  all_goals
    rw [heq, hpurpose]
  · exact .of_stack ⟨_, rfl⟩ rfl
  · have hheadway : l.headway = m.loader.headway :=
      (headway_of_quiet hquiet).trans (m.loader.headway_noteFound _ _ _)
    exact .after (n := { m with loader := { l with cache := l.cache.insertResult lookup.key id } })
      hheadway rfl (works_searchFinished _ id)

/-! ## Waves come no less far -/

theorem wave_eq_none_of_move {allowed : Deed → Prop} {a b : Scene ω χ} (hloads : ¬allowed .loads)
    (h : Move p allowed a b) (hnone : a.loader.wave = none) : b.loader.wave = none := by
  cases h with
  | bide bides => exact bides.wave hnone
  | await reason => exact absurd reason hloads
  | begin reason => exact absurd reason hloads
  | @join l _ wave _ _ active => rw [active] at hnone; cases hnone
  | skip => exact hnone
  | ask => exact hnone
  | lookUp => exact hnone
  | lookUpImport => exact hnone
  | learn => exact hnone
  | reset => exact hnone

theorem headway_step (hasks : ∀ deed ∈ m.asks?, deed ∈ ([] : List Deed)) (hlookups : m.IsWaveOnly) :
    m.loader.headway ≤ (m.step p).loader.headway := by
  have hjoins : joins m.loader.journal <:+ joins (m.step p).loader.journal :=
    (extends_step p m).1.filterMap _
  have hkept : m.loader.wave = none → (m.step p).loader.wave = none := by
    intro hnone
    obtain ⟨taken, htakes, hmoves⟩ := step_takes (p := p) hasks List.not_mem_nil hlookups
    have hloads : ¬due [] .loads := List.not_mem_nil
    exact hmoves.invariant (P := fun scene ↦ scene.loader.wave = none)
      (wave_eq_none_of_move hloads) (htakes.wave.trans hnone)
  rw [headway, headway]
  refine Nat.add_le_add hjoins.length_le ?_
  cases hwave : m.loader.wave with
  | none => rw [hkept hwave]
  | some wave => exact Nat.zero_le _

/-! ## Callbacks that return -/

/-- The callback that is called next returns, if one is. -/
def CallReturns (p : Platform ω χ) (m : Machine ω χ) : Prop :=
  ∀ ⦃value id callback callbacks rest below⦄, m.control = .returning (.ok value) →
    m.stack = .draining id (callback :: callbacks) rest :: below →
    ∃ m', Runs p (.draining id callbacks rest :: below) (m.step p) m' ∧
      m'.Returns (.draining id callbacks rest :: below)

theorem step_of_returning {frame : Frame ω χ} {outcome : Outcome}
    (hcontrol : m.control = .returning outcome) (hs : m.stack = frame :: base) :
    m.step p = ({ m with stack := base } : Machine ω χ).resume p frame outcome := by
  obtain ⟨l, control, stack⟩ := m
  cases hcontrol
  cases hs
  rfl

theorem step_of_error {frame : Frame ω χ} {error : LoaderError} (hbusy : frame.isBusy = true)
    (hcontrol : m.control = .returning (.error error)) (hs : m.stack = frame :: base) :
    (∃ outcome, (m.step p).control = .returning outcome) ∧ (m.step p).stack = base := by
  rw [step_of_returning hcontrol hs]
  cases frame with
  | dispatching | draining => exact ⟨⟨_, rfl⟩, rfl⟩
  | _ => cases hbusy

theorem Runs.exists_run (h : Runs p base m m') : ∃ count, m.run p count = m' := by
  induction h with
  | refl m => exact ⟨0, rfl⟩
  | step _ _ ih =>
    obtain ⟨count, hcount⟩ := ih
    exact ⟨count + 1, (run_step p _ count).trans hcount⟩

/-! ## Driving for ever -/

/-- How far a run has come. -/
def progress (p : Platform ω χ) (m : Machine ω χ) (count : Nat) : Nat :=
  (m.run p count).loader.headway + m.completions p count

/-- A machine that would drive for ever, although it cannot come farther than to a bound. -/
structure Spins (p : Platform ω χ) (next : Awaited Unit → Code ω) (base : List (Frame ω χ))
    (bound : Nat) (m : Machine ω χ) : Prop where
  driving : ∀ k, (m.run p k).IsDriving next base
  waveOnly : ∀ k, (m.run p k).IsWaveOnly
  returns : ∀ k, (m.run p k).CallReturns p
  forward : ∀ k, (m.run p k).loader.headway ≤ (m.run p (k + 1)).loader.headway
  bounded : ∀ k, m.progress p k ≤ bound

/-- At some moment of a run something is returned to frames that have to do with the wave, above the
frame that drives. -/
structure IsBusy (p : Platform ω χ) (next : Awaited Unit → Code ω) (base : List (Frame ω χ))
    (m : Machine ω χ) (frames : List (Frame ω χ)) (k : Nat) : Prop where
  returns : ∃ outcome, (m.run p k).control = .returning outcome
  stack : (m.run p k).stack = frames ++ .driving next :: base
  busy : ∀ f ∈ frames, f.isBusy = true

theorem IsBusy.below {frame : Frame ω χ} {frames : List (Frame ω χ)} {k : Nat}
    (h : m.IsBusy p next base (frame :: frames) k) : ∀ f ∈ frames, f.isBusy = true :=
  (List.forall_mem_cons.mp h.busy).2

namespace Spins

variable {bound start : Nat} {frames : List (Frame ω χ)} (h : Spins p next base bound m)

include h

theorem progress_succ (k : Nat) :
    m.progress p k + (if (m.run p k).completes p then 1 else 0) ≤ m.progress p (k + 1) := by
  have hforward := h.forward k
  rw [progress, progress, completions_succ]
  omega

theorem progress_le (k : Nat) : m.progress p k ≤ m.progress p (k + 1) :=
  (Nat.le_add_right _ _).trans (h.progress_succ k)

theorem progress_mono {k k' : Nat} (hle : k ≤ k') : m.progress p k ≤ m.progress p k' := by
  induction hle with
  | refl => exact Nat.le_refl _
  | step _ ih => exact ih.trans (h.progress_le _)

theorem isBusy_drive {k : Nat} (hdrives : (m.run p k).drives = true)
    (heq : m.run p (k + 1) = ({ m.run p k with stack := base } : Machine ω χ).drive p next) :
    ∃ frames, m.IsBusy p next base frames (k + 1) ∧ m.progress p k < m.progress p (k + 1) := by
  cases hlookup : (m.run p k).loader.nextLookup? p with
  | none =>
    obtain ⟨l, awaited, hover⟩ :=
      drive_of_nextLookup?_eq_none (m := { m.run p k with stack := base }) hlookup next
    refine absurd (h.driving (k + 1)) ?_
    rw [heq, hover]
    exact not_isDriving_of_next l next base awaited
  | some lookup =>
    obtain ⟨world, before, after, -, hsplit, htaken⟩ :=
      drive_of_nextLookup? (m := { m.run p k with stack := base }) hlookup next
    have hsplit' : (m.run p k).loader.lookups = before ++ lookup :: after := hsplit
    have hpurpose : lookup.purpose = .wave :=
      h.waveOnly k lookup (hsplit' ▸ List.mem_append_right _ List.mem_cons_self)
    have hcompletes : (m.run p k).completes p = true := by
      rw [completes, hdrives, hlookup]
      rfl
    have hprogress := h.progress_succ k
    rw [hcompletes, if_pos rfl] at hprogress
    rw [htaken] at heq
    obtain ⟨hreturns, frames, hstack, hbusy, -⟩ := works_completeLookup (p := p)
      ((({ m.run p k with stack := base } : Machine ω χ).update
        (·.leave world (before ++ after))).push (.driving next)) hpurpose
    rw [← heq] at hreturns hstack
    exact ⟨frames, ⟨hreturns, hstack, hbusy⟩, hprogress⟩

section

variable (hfurther : ∀ k frames, m.progress p start < m.progress p k →
  ¬m.IsBusy p next base frames k)

include hfurther

theorem not_isBusy_nil {k : Nat} (hk : m.progress p start ≤ m.progress p k) :
    ¬m.IsBusy p next base [] k := by
  rintro ⟨⟨outcome, hcontrol⟩, hstack, -⟩
  rw [List.nil_append] at hstack
  have hstep := step_of_returning (p := p) hcontrol hstack
  rw [← run_succ] at hstep
  cases outcome with
  | ok value =>
    have hdrives : (m.run p k).drives = true := by rw [drives, hcontrol, hstack]
    obtain ⟨frames, hbusy, hprogress⟩ := h.isBusy_drive hdrives hstep
    exact hfurther (k + 1) frames (hk.trans_lt hprogress) hbusy
  | error e =>
    refine absurd (h.driving (k + 1)) ?_
    rw [hstep]
    exact not_isDriving_of_next _ next base _

variable (hbelow : ∀ k, m.progress p start ≤ m.progress p k → ¬m.IsBusy p next base frames k)

include hbelow

omit hfurther in
/-- Nothing is returned to the frames below. -/
theorem not_returned {frame : Frame ω χ} {k : Nat} (hk : m.progress p start ≤ m.progress p k)
    (hbusy : m.IsBusy p next base (frame :: frames) k) :
    ¬((∃ outcome, ((m.run p k).step p).control = .returning outcome) ∧
      ((m.run p k).step p).stack = frames ++ .driving next :: base) := by
  rw [← run_succ]
  rintro ⟨hreturns, hstack⟩
  exact hbelow (k + 1) (hk.trans (h.progress_le k)) ⟨hreturns, hstack, hbusy.below⟩

omit hfurther in
/-- What is returned to a frame above them is no error. -/
theorem exists_ok {frame : Frame ω χ} {k : Nat} (hk : m.progress p start ≤ m.progress p k)
    (hbusy : m.IsBusy p next base (frame :: frames) k) :
    ∃ value, (m.run p k).control = .returning (.ok value) := by
  obtain ⟨outcome, hcontrol⟩ := hbusy.returns
  cases outcome with
  | ok value => exact ⟨value, hcontrol⟩
  | error e =>
    exact absurd (step_of_error (hbusy.busy _ List.mem_cons_self) hcontrol hbusy.stack)
      (h.not_returned hbelow hk hbusy)

/-- The references that are left to dispatch get fewer. -/
theorem not_isBusy_dispatching (id : UnitId) (searcher : Operation) (rest : List Reference)
    (k : Nat) (hk : m.progress p start ≤ m.progress p k) :
    ¬m.IsBusy p next base (.dispatching id searcher rest :: frames) k := by
  induction rest generalizing k with
  | nil =>
    intro hbusy
    obtain ⟨value, hcontrol⟩ := h.exists_ok hbelow hk hbusy
    refine h.not_returned hbelow hk hbusy ?_
    rw [step_of_returning hcontrol hbusy.stack]
    exact ⟨⟨_, rfl⟩, rfl⟩
  | cons reference rest ih =>
    intro hbusy
    obtain ⟨value, hcontrol⟩ := h.exists_ok hbelow hk hbusy
    have hstep := step_of_returning (p := p) hcontrol hbusy.stack
    rw [← run_succ, resume] at hstep
    obtain ⟨hreturns, pushed, hstack, hpushed, hcases⟩ := works_continueDispatching (p := p)
      ({ m.run p k with stack := frames ++ .driving next :: base } : Machine ω χ) id searcher
      reference rest
    dsimp only [List.append_eq] at hstep
    rw [← hstep] at hreturns hstack hcases
    have hnow : m.IsBusy p next base (pushed ++ .dispatching id searcher rest :: frames) (k + 1) :=
      ⟨hreturns, by rw [hstack]; simp [push], List.forall_mem_append.mpr
        ⟨hpushed, List.forall_mem_cons.mpr ⟨rfl, hbusy.below⟩⟩⟩
    rcases hcases with rfl | hless
    · exact ih (k + 1) (hk.trans (h.progress_le k)) hnow
    · -- more units have joined, or the wave is over
      refine hfurther (k + 1) _ (hk.trans_lt ?_) hnow
      exact Nat.add_lt_add_of_lt_of_le hless (completions_mono p m (Nat.le_succ k))

omit hfurther in
/-- The callbacks of a unit that are left to call get fewer. -/
theorem not_isBusy_calling {rest : List UnitId}
    (hnone : ∀ id k, m.progress p start ≤ m.progress p k →
      ¬m.IsBusy p next base (.draining id [] rest :: frames) k)
    (id : UnitId) (callbacks : List (Callback ω)) (k : Nat)
    (hk : m.progress p start ≤ m.progress p k) :
    ¬m.IsBusy p next base (.draining id callbacks rest :: frames) k := by
  induction callbacks generalizing k with
  | nil => exact hnone id k hk
  | cons callback callbacks ih =>
    intro hbusy
    obtain ⟨value, hcontrol⟩ := h.exists_ok hbelow hk hbusy
    obtain ⟨m', hruns, outcome, hreturned, hstack⟩ := h.returns k hcontrol hbusy.stack
    obtain ⟨count, rfl⟩ := hruns.exists_run
    rw [← run_succ, run_add] at hreturned hstack
    exact ih (k + 1 + count) (hk.trans (h.progress_mono (by omega)))
      ⟨⟨outcome, hreturned⟩, hstack, List.forall_mem_cons.mpr ⟨rfl, hbusy.below⟩⟩

omit hfurther in
/-- The units whose callbacks are left to call get fewer. -/
theorem not_isBusy_draining (id : UnitId) (callbacks : List (Callback ω)) (rest : List UnitId)
    (k : Nat) (hk : m.progress p start ≤ m.progress p k) :
    ¬m.IsBusy p next base (.draining id callbacks rest :: frames) k := by
  induction rest generalizing id callbacks k with
  | nil =>
    refine h.not_isBusy_calling hbelow (fun id k hk hbusy ↦ ?_) id callbacks k hk
    obtain ⟨value, hcontrol⟩ := h.exists_ok hbelow hk hbusy
    refine h.not_returned hbelow hk hbusy ?_
    rw [step_of_returning hcontrol hbusy.stack]
    exact ⟨⟨_, rfl⟩, rfl⟩
  | cons unit rest ih =>
    refine h.not_isBusy_calling hbelow (fun id k hk hbusy ↦ ?_) id callbacks k hk
    obtain ⟨value, hcontrol⟩ := h.exists_ok hbelow hk hbusy
    have hstep := step_of_returning (p := p) hcontrol hbusy.stack
    rw [← run_succ] at hstep
    let waiting := (((m.run p k).loader.unit? unit).map (·.callbacks)).getD []
    have hnow : m.IsBusy p next base (.draining unit waiting rest :: frames) (k + 1) :=
      ⟨hstep ▸ ⟨_, rfl⟩, hstep ▸ rfl, List.forall_mem_cons.mpr ⟨rfl, hbusy.below⟩⟩
    exact ih unit waiting (k + 1) (hk.trans (h.progress_le k)) hnow

omit hbelow in
/-- Whatever is left to do, it gets less. -/
theorem not_isBusy_of_further (frames : List (Frame ω χ)) (k : Nat)
    (hk : m.progress p start ≤ m.progress p k) : ¬m.IsBusy p next base frames k := by
  induction frames generalizing k with
  | nil => exact h.not_isBusy_nil hfurther hk
  | cons frame frames ih =>
    intro hbusy
    have hframe := hbusy.busy frame List.mem_cons_self
    cases frame with
    | dispatching id searcher rest =>
      exact h.not_isBusy_dispatching hfurther ih id searcher rest k hk hbusy
    | draining id callbacks rest =>
      exact h.not_isBusy_draining ih id callbacks rest k hk hbusy
    | _ => cases hframe

end

/-- At no moment is anything returned to frames that have to do with the wave, since the waves would
come further and further. -/
theorem not_isBusy (frames : List (Frame ω χ)) (k : Nat) : ¬m.IsBusy p next base frames k := by
  generalize hleft : bound - m.progress p k = left
  induction left using Nat.strong_induction_on generalizing frames k with
  | _ left ih =>
    refine h.not_isBusy_of_further (fun k' frames' hless ↦ ?_) frames k
      (Nat.le_refl (m.progress p k))
    have hbounded := h.bounded k'
    exact ih (bound - m.progress p k') (by omega) frames' k' rfl

theorem false_of_drive (hcontrol : m.control = .running (.drive next)) (hs : m.stack = base) :
    False := by
  have hdrives : (m.run p 0).drives = true := by rw [run, drives, hcontrol]
  have heq : m.run p (0 + 1) = ({ m.run p 0 with stack := base } : Machine ω χ).drive p next := by
    rw [run_succ, run, step, hcontrol, ← hs]
    rfl
  obtain ⟨frames, hbusy, -⟩ := h.isBusy_drive hdrives heq
  exact h.not_isBusy frames _ hbusy

end Spins

/-! ## The end -/

theorem drivesTo_run {k : Nat} (hdriving : ∀ j < k, (m.run p j).IsDriving next base)
    (hover : ¬(m.run p k).IsDriving next base) : DrivesTo p next base m (m.run p k) := by
  induction k generalizing m with
  | zero => exact .stop hover
  | succ k ih =>
    rw [run_step] at hover ⊢
    refine .step (hdriving 0 (Nat.succ_pos k)) (ih (fun j hj ↦ ?_) hover)
    rw [← run_step]
    exact hdriving (j + 1) (Nat.succ_lt_succ hj)

/-- As long as code waits for lookups, nothing else is asked for, and all callbacks return. -/
def DrivesAlone (p : Platform ω χ) (next : Awaited Unit → Code ω) (m : Machine ω χ) : Prop :=
  ∀ k, (∀ j ≤ k, (m.run p j).IsDriving next m.stack) →
    (m.run p k).asks? = none ∧ (m.run p k).CallReturns p

/-- **Driving ends**, if only finitely many files can be found. -/
theorem Reachable.exists_drivesTo (h : m.Reachable p) {files : Set Url} (hfinite : files.Finite)
    (hfiles : ∀ world ticket resource, (p.resolver.answer world ticket).2 = .ok (some resource) →
      resource.url ∈ files)
    (hlookups : m.IsWaveOnly) (hcontrol : m.control = .running (.drive next))
    (halone : m.DrivesAlone p next) : ∃ m', DrivesTo p next m.stack m m' := by
  by_contra hnever
  have hdriving : ∀ k, (m.run p k).IsDriving next m.stack := by
    intro k
    induction k using Nat.strong_induction_on with
    | _ k ih =>
      by_contra hover
      exact hnever ⟨_, drivesTo_run ih hover⟩
  have hasks (k : Nat) : (m.run p k).asks? = none := (halone k fun j _ ↦ hdriving j).1
  have hasksOnly (k : Nat) : m.AsksOnly p [] k := fun j _ deed hdeed ↦ by
    rw [hasks j] at hdeed
    cases hdeed
  have hwaveOnly (k : Nat) : (m.run p k).IsWaveOnly := by
    obtain ⟨_, hsince⟩ := since_run hlookups List.not_mem_nil List.not_mem_nil (hasksOnly k)
    exact hsince.lookups
  obtain ⟨most, hmost⟩ := h.exists_completions_le hfiles hlookups hfinite
  let joined := (joins m.loader.journal).length + m.loader.units.length + hfinite.toFinset.card
  have hspins : Spins p next m.stack (joined + 1 + most) m :=
    { driving := hdriving
      waveOnly := hwaveOnly
      returns := fun k ↦ (halone k fun j _ ↦ hdriving j).2
      forward := fun k ↦ by
        rw [run_succ]
        refine headway_step (fun deed hdeed ↦ ?_) (hwaveOnly k)
        rw [hasks k] at hdeed
        cases hdeed
      bounded := fun k ↦ by
        have hjoined := h.joins_le hfiles hlookups hfinite (hasksOnly k)
        have hcompleted := hmost k (hasksOnly k)
        have hone : (if (m.run p k).loader.wave.isNone then 1 else 0) ≤ 1 := by split <;> omega
        rw [progress, headway]
        omega }
  exact hspins.false_of_drive hcontrol rfl

/-- **Waves do a bounded amount of work.** In every run, whatever is loaded, imported and dropped:

* Every unit joins a wave at most once, and the status of a unit only moves on.
* Between two resets, every key is searched at most once.
* As long as code asks for no import and no reset, no more lookups complete than were under way and
  than the units declare keys. When no wave is active, none is under way.
* When only finitely many files can be found, and code asks for nothing after it has asked for
  dependencies, then only boundedly many lookups complete, and driving ends. It is assumed that the
  callbacks which are called on the way return. -/
theorem Reachable.bounded_work (h : m.Reachable p) :
    (joins m.loader.journal).Nodup ∧
    (∀ id status, m.loader.status? id = some status →
      ∃ status', (m.step p).loader.status? id = some status' ∧ status.Next status') ∧
    (∀ stretch earlier, stretch ++ earlier <:+ m.loader.journal → .reset ∉ stretch →
      (searches stretch).Nodup) ∧
    (m.IsWaveOnly →
      (∀ count, m.AsksOnly p [.loads] count → m.completions p count
        ≤ m.loader.lookups.length + (m.run p count).loader.keys.toFinset.card) ∧
      ∀ id callback next, m.control = .running (.loadDependencies id callback next) →
        (m.loader.wave = none → m.loader.lookups = []) ∧
        ∀ files : Set Url, files.Finite →
          (∀ world ticket resource, (p.resolver.answer world ticket).2 = .ok (some resource) →
            resource.url ∈ files) →
          (∃ bound, ∀ count, (m.step p).AsksOnly p [] count →
            (m.step p).completions p count ≤ bound) ∧
          ∀ count next, (m.step p).AsksOnly p [] count →
            let driving := (m.step p).run p count
            driving.control = .running (.drive next) → driving.DrivesAlone p next →
              ∃ m', DrivesTo p next driving.stack driving m') := by
  refine ⟨h.once.joins, fun _ _ ↦ h.status_next, fun _ _ ↦ h.once.searches.nodup,
    fun hwaveOnly ↦ ⟨fun count ↦ h.completions_le hwaveOnly (by simp) (by simp),
      fun id callback next hcontrol ↦ ⟨fun hnone ↦ ?_, fun files hfinite hfiles ↦ ?_⟩⟩⟩
  · have hbalanced := ((h.sound p).ready hcontrol).balanced
    rw [Balances, hnone] at hbalanced
    refine List.eq_nil_iff_forall_not_mem.mpr fun lookup hlookup ↦ ?_
    have hnot := List.countP_eq_zero.mp hbalanced.1 lookup hlookup
    rw [hwaveOnly lookup hlookup] at hnot
    exact hnot rfl
  · have hasked : m.AsksOnly p [.loads] 1 := by
      intro k hk deed hdeed
      rw [Nat.lt_one_iff.mp hk, Machine.run, asks?, hcontrol] at hdeed
      cases hdeed
      exact List.mem_singleton_self _
    obtain ⟨_, hsince⟩ := since_run hwaveOnly (by simp) (by simp) hasked
    have hrun : m.run p 1 = m.step p := run_step p m 0
    have hstart : (m.step p).IsWaveOnly := hrun ▸ hsince.lookups
    refine ⟨h.step.exists_completions_le hfiles hstart hfinite,
      fun count next hasks hcontrol halone ↦ ?_⟩
    obtain ⟨_, hsince⟩ := since_run hstart List.not_mem_nil List.not_mem_nil hasks
    exact (h.step.run p count).exists_drivesTo hfinite hfiles hsince.lookups hcontrol halone

theorem callReturns_of_nextCall? (h : m.nextCall? = none) : m.CallReturns p := by
  intro value id callback callbacks rest below hcontrol hs
  rw [nextCall?, hcontrol, hs] at h
  cases h

theorem not_isDriving_of_isHalted (h : m.isHalted = true) : ¬m.IsDriving next base := by
  obtain ⟨outcome, hcontrol, hs⟩ := exists_of_isHalted h
  intro hdriving
  cases hdriving with
  | asking => cases hcontrol
  | completing hstack =>
    rw [hs] at hstack
    simp at hstack

/-- Two files that refer to each other, and no others. -/
def knot : Platform (List Request) Unit :=
  (Project.pair.restrict [.file "/a".toList, .file "/b".toList]).platform List.head?

/-- One of the two files is about to be loaded. -/
def loadingKnot : Machine (List Request) Unit :=
  run knot 1
    { loader := { world := [], base := .file "/".toList }
      control := .running (loadEntry (.file "/a".toList) .detached) }

/-- Both files are found, with one lookup for each of the two keys, and then driving is over. -/
theorem bounded_work_loadingKnot :
    loadingKnot.completions knot 15 ≤ 2 ∧
      ∃ next m', ((loadingKnot.step knot).run knot 4).control = .running (.drive next) ∧
        DrivesTo knot next [] ((loadingKnot.step knot).run knot 4) m' := by
  have hreachable : loadingKnot.Reachable knot := (Reachable.start (isFresh_mk _ _) _).run _ 1
  obtain ⟨loads, hcontrol⟩ : ∃ next, loadingKnot.control
      = .running (.loadDependencies 0 none next) := ⟨_, rfl⟩
  have hlookups : loadingKnot.loader.lookups = [] := List.isEmpty_iff.mp (by decide +kernel)
  have hwaveOnly : loadingKnot.IsWaveOnly := by simp [IsWaveOnly, hlookups]
  obtain ⟨hbounded, hload⟩ := (Reachable.bounded_work hreachable).2.2.2 hwaveOnly
  constructor
  · have hasks : loadingKnot.AsksOnly knot [.loads] 15 := by decide +kernel
    have hkeys : (loadingKnot.run knot 15).loader.keys = ["file:/// b", "file:/// a"] := by
      decide +kernel
    have hcompleted := hbounded 15 hasks
    rw [hlookups, hkeys] at hcompleted
    exact hcompleted.trans (by decide)
  · have hasks : (loadingKnot.step knot).AsksOnly knot [] 4 := by decide +kernel
    obtain ⟨-, hends⟩ := (hload 0 none loads hcontrol).2 {url | url ∈ [_, _]}
      (List.finite_toSet _) Project.mem_of_answer
    obtain ⟨next, hdrive⟩ : ∃ next, ((loadingKnot.step knot).run knot 4).control
        = .running (.drive next) := ⟨_, rfl⟩
    have hs : ((loadingKnot.step knot).run knot 4).stack = [] := rfl
    have hover : (((loadingKnot.step knot).run knot 4).run knot 10).isHalted = true := by
      decide +kernel
    have halone : ∀ k < 10, (((loadingKnot.step knot).run knot 4).run knot k).asks?.isNone = true ∧
        (((loadingKnot.step knot).run knot 4).run knot k).nextCall?.isNone = true := by
      decide +kernel
    have hdrives := hends 4 next hasks
    generalize (loadingKnot.step knot).run knot 4 = driving at hdrive hs hover halone hdrives ⊢
    obtain ⟨m', hm'⟩ := hdrives hdrive fun k hdriving ↦ by
      have hk : k < 10 := by
        by_contra hge
        exact not_isDriving_of_isHalted hover (hdriving 10 (not_lt.mp hge))
      obtain ⟨hnone, hcall⟩ := halone k hk
      exact ⟨Option.isNone_iff_eq_none.mp hnone,
        callReturns_of_nextCall? (Option.isNone_iff_eq_none.mp hcall)⟩
    exact ⟨next, m', hdrive, hs ▸ hm'⟩

end Machine

end ScriptLoader
