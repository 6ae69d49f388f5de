import ScriptLoader.Proofs.Barrier
import ScriptLoader.Proofs.History
import ScriptLoader.Proofs.Waiting

/-!
# Every callback is called once, and in order

A callback that is given to a load is called at once when the unit is loaded, and otherwise waits
for the wave of the unit to be closed. While the callbacks of a wave are called, each of them may
enter the loader again: it may load and import, begin a wave and even close it. Nevertheless every
callback is called exactly once, the callbacks of one unit in the order in which they came, and
those of a unit that joined the wave earlier before those of a unit that joined later.
-/

namespace ScriptLoader

variable {ω χ : Type}

open Journal

namespace Machine

open Loader

/-! ## What has been kept and called -/

/-- The callbacks that have come to wait for a unit in a run, the oldest first. -/
def queued : List (Machine ω χ) → UnitId → List (Callback ω)
  | m' :: m :: earlier, id => queued (m :: earlier) id ++ m.loader.gained m'.loader id
  | _, _ => []

/-- The callbacks of closed waves that have been called in a run, with their units, in the order of
the calls. -/
def called (machines : List (Machine ω χ)) : List (UnitId × Callback ω) :=
  (machines.tail.filterMap nextCall?).reverse

theorem called_cons (m m' : Machine ω χ) (earlier : List (Machine ω χ)) :
    called (m' :: m :: earlier) = called (m :: earlier) ++ m.nextCall?.toList := by
  cases h : m.nextCall? <;> simp [called, h]

variable {p : Platform ω χ} {m m' : Machine ω χ} {earlier : List (Machine ω χ)}

section

variable {calls : List (UnitId × Callback ω)} {waited : UnitId → List (Callback ω)}

private theorem gained_of_take {l l' : Loader ω χ} {id : UnitId}
    (h : l' = l.modifyUnit id fun unit ↦ { unit with callbacks := [] }) :
    l.gained l' = fun _ ↦ [] := by
  funext other
  rw [h, gained]
  by_cases hother : other = id
  · rw [hother, queue_take, List.drop_nil]
  · rw [l.queue_modifyCallbacks id (fun _ ↦ []) hother, List.drop_length]

/-- **A step keeps the books right**, unless it drops a wave or a callback has failed. -/
theorem Handles.delivers (hhandles : m.Handles m') (h : Delivers calls waited m.loader m.drains)
    (hfine : m.failsCallback = false) (hkept : ∀ e ∈ m'.loader.journal, e.dropsWave = false) :
    Delivers (calls ++ m.nextCall?.toList) (fun id ↦ waited id ++ m.loader.gained m'.loader id)
      m'.loader m'.drains := by
  cases hhandles with
  | serve idle serves =>
    obtain ⟨opened, hserves, hdrains⟩ := serves
    rw [idle, hdrains]
    simpa using h.serve hserves hkept
  | call next before after calm =>
    rw [next, after, gained_of_same calm.queue]
    rw [before] at h
    simpa using h.call.calm calm
  | take idle before after loader =>
    rw [idle, after, gained_of_take loader, loader]
    rw [before] at h
    simpa using h.take
  | finish idle before after loader =>
    rw [idle, after, loader, gained_of_same fun _ ↦ rfl]
    rw [before] at h
    simpa using h.finish
  | fail failed =>
    rw [hfine] at failed
    cases failed

/-- At most one callback comes to wait in a step, namely one that is given, and its unit is in the
active wave. -/
theorem Handles.gained_cases (hhandles : m.Handles m')
    (h : Delivers calls waited m.loader m.drains) (id : UnitId) :
    m.loader.gained m'.loader id = [] ∨
      ∃ callback, m.Gives id callback ∧ m.loader.gained m'.loader id = [callback] ∧
        id ∈ m'.loader.participants := by
  cases hhandles with
  | serve _ serves =>
    obtain ⟨opened, hserves, -⟩ := serves
    exact h.gained_cases hserves id
  | call _ _ _ calm | fail _ calm => exact .inl (congrFun (gained_of_same calm.queue) id)
  | take _ _ _ loader => exact .inl (congrFun (gained_of_take loader) id)
  | finish _ _ _ loader => exact .inl (congrFun (gained_of_same fun _ ↦ by rw [loader]) id)

end

theorem delivers_of_fresh {l : Loader ω χ} (h : l.IsFresh) : Delivers [] (fun _ ↦ []) l [] := by
  have hwaves : waves l.journal = [] := by
    rw [h.journal]
    rfl
  have hparticipants : l.participants = [] := by
    rw [participants, h.wave]
    rfl
  have hqueue (id : UnitId) : l.queue id = [] := queue_of_unknown (h.standing? id)
  have horderly : l.Orderly := by
    refine ⟨by simp [hwaves, hparticipants], by simp [hwaves], fun {id} ↦ ?_⟩
    simp [hparticipants, status?, h.standing?]
  refine ⟨horderly, fun hid ↦ absurd (hqueue _) hid, fun _ ↦ hqueue _, ?_⟩
  rw [hwaves]
  exact ⟨by simp, by simp, .nil, by simp⟩

/-- **In every run the books are right**, as long as no wave is dropped and no callback fails. -/
theorem History.delivers (h : History p (m :: earlier))
    (hkept : ∀ e ∈ m.loader.journal, e.dropsWave = false)
    (hfine : ∀ m' ∈ earlier, m'.failsCallback = false) :
    Delivers (called (m :: earlier)) (queued (m :: earlier)) m.loader m.drains := by
  generalize heq : m :: earlier = machines at h
  induction h generalizing m earlier with
  | start fresh code =>
    cases heq
    exact delivers_of_fresh fresh
  | @step m' earlier _ ih =>
    cases heq
    have hlogs := (extends_step p m').1
    have hbefore := ih (fun e he ↦ hkept e (hlogs.subset he))
      (fun m hm ↦ hfine m (List.mem_cons_of_mem _ hm)) rfl
    rw [called_cons]
    exact (step_handles p m').delivers hbefore (hfine m' List.mem_cons_self) hkept
  | @again m' earlier _ halted code ih =>
    cases heq
    obtain ⟨outcome, -, hstack⟩ := exists_of_isHalted halted
    have hkept' : ∀ e ∈ m'.loader.journal, e.dropsWave = false := hkept
    have hbefore := ih hkept' (fun m hm ↦ hfine m (List.mem_cons_of_mem _ hm)) rfl
    have hgained : m'.loader.gained m'.loader = fun _ ↦ [] := gained_of_same fun _ ↦ rfl
    have hqueued : queued ({ m' with control := .running code } :: m' :: earlier)
        = queued (m' :: earlier) := by
      funext id
      rw [queued, hgained, List.append_nil]
    rw [called_cons, nextCall?_of_nil hstack, hqueued, Option.toList_none, List.append_nil]
    exact hbefore

/-! ## Loads -/

/-- A callback that is given to a load is called at once when the unit is loaded, turned down when
another wave is active, and kept for the unit otherwise. -/
theorem given_cases (p : Platform ω χ) (m : Machine ω χ) {id : UnitId} {s : Standing ω}
    (hs : m.loader.standing? id = some s) (callback : Callback ω) :
    let given := m.loadDependencies p id (some callback)
    s.status = .loaded ∧ given = (m.update (·.record (.delivered id))).callBack id callback ∨
    s.status = .unloaded ∧ m.loader.wave.isSome = true ∧
      given.control = .returning (.error (.reentrancyViolation s.url.text)) ∨
    s.status ≠ .loaded ∧ m.loader.gained given.loader
      = fun other ↦ if other = id then [callback] else [] := by
  dsimp only
  rw [loadDependencies_eq p hs]
  cases hstatus : s.status with
  | loaded => exact .inl ⟨rfl, rfl⟩
  | loading => exact .inr (.inr ⟨by simp, gained_await hs (some callback)⟩)
  | unloaded =>
    dsimp only
    split
    case isTrue hwave => exact .inr (.inl ⟨rfl, hwave, rfl⟩)
    case isFalse =>
      refine .inr (.inr ⟨by simp, ?_⟩)
      rw [join_eq (m := (m.update (·.beginWave id (some callback))).push .aborting) rfl
        (standing?_await_self hs (some callback))]
      exact (gained_of_calm (.refl _) (.of_quiet (quiet_operation _ _ _))).trans
        (gained_begin hs (some callback) s.dependencies)

/-- Nothing is left to do: no lookup is under way, no closed wave has callbacks to call, and code
runs or all code has ended. When completing the lookups has succeeded, and no callback is waiting
for that, this is so. -/
structure IsIdle (m : Machine ω χ) : Prop where
  lookups : m.loader.lookups = []
  drains : m.drains = []
  settled : m.stack = [] ∨ ∃ code, m.control = .running code

theorem Reachable.wave_of_isIdle (h : m.Reachable p) (hidle : m.IsIdle) : m.loader.wave = none := by
  have hsound := h.sound p
  rcases hidle.settled with hstack | ⟨code, hcode⟩
  · exact (hsound.ready_of_nil hstack).balanced.wave_eq_none hidle.lookups
  · exact (hsound.ready hcode).balanced.wave_eq_none hidle.lookups

/-- The callback that is called next is one of a drain, so its unit is in a closed wave. -/
theorem closed_of_nextCall {calls : List (UnitId × Callback ω)}
    {waited : UnitId → List (Callback ω)} (h : Delivers calls waited m.loader m.drains)
    {id : UnitId} {callback : Callback ω} (hnext : m.nextCall? = some (id, callback)) :
    ∃ wave ∈ waves m.loader.journal, id ∈ wave := by
  rw [nextCall?] at hnext
  split at hnext
  case h_1 hstack =>
    cases hnext
    have hdrain : ∃ drain ∈ m.drains, drain.unit = id := by
      rw [drains, hstack]
      exact ⟨_, List.mem_cons_self, rfl⟩
    obtain ⟨drain, hmem, rfl⟩ := hdrain
    obtain ⟨wave, hwave, hempties⟩ := h.conserves.draining drain hmem
    exact ⟨wave, hwave, hempties.member⟩
  case h_2 => cases hnext

theorem queue_of_isIdle {calls : List (UnitId × Callback ω)}
    {waited : UnitId → List (Callback ω)} (h : Delivers calls waited m.loader m.drains)
    (hwave : m.loader.wave = none) (hdrains : m.drains = []) (id : UnitId) :
    m.loader.queue id = [] := by
  by_contra hne
  rcases h.waiting hne with hactive | ⟨drain, hdrain, -⟩
  · rw [participants, hwave] at hactive
    cases hactive
  · rw [hdrains] at hdrain
    cases hdrain

/-- When nothing is left to do, all that came to wait for a unit has been called. -/
private theorem calls_of_isIdle {calls : List (UnitId × Callback ω)}
    {waited : UnitId → List (Callback ω)} (h : Delivers calls waited m.loader m.drains)
    (hwave : m.loader.wave = none) (hdrains : m.drains = []) (id : UnitId) :
    (calls.filter (·.1 = id)).map Prod.snd = waited id := by
  by_cases hid : id ∈ (waves m.loader.journal).flatten
  · obtain ⟨wave, hmem, hwaveMem⟩ := List.mem_flatten.mp hid
    have hfinished := h.conserves.finished wave hmem (by simp [hdrains])
    have hnodup := (List.nodup_flatten.mp h.orderly.nodup).1 wave hmem
    have hfilter : calls.filter (·.1 = id) = (calledFor calls wave).filter (·.1 = id) := by
      rw [calledFor, List.filter_filter]
      refine List.filter_congr fun call _ ↦ ?_
      by_cases hcall : call.1 = id
      · simp [hcall, hwaveMem]
      · simp [hcall]
    rw [hfilter, hfinished, filter_allQueued waited hnodup hwaveMem, List.map_map]
    exact List.map_id _
  · rw [← h.kept hid, queue_of_isIdle h hwave hdrains, List.filter_eq_nil_iff.mpr, List.map_nil]
    intro call hcall heq
    exact hid (of_decide_eq_true heq ▸ h.conserves.closed call hcall)

/-- **Every callback is called once, and in order.** In a run in which no wave is dropped and no
callback of a closed wave fails:

* A callback that is given to a load is called at once, turned down, or kept for its unit. Nothing
  else is ever kept, and while it is kept the unit is in the active wave. No unit is in two waves.
* A kept callback is only called when the wave of its unit has been closed, so that all units of the
  wave are loaded.
* What has been called for a closed wave are the callbacks kept for its units, those of units that
  joined earlier first, as far as the calls have got.
* When nothing is left to do, all of them have been called; for each unit, what has been called is
  what was kept, in the order in which it came. -/
theorem History.called_once (h : History p (m :: earlier))
    (hkept : ∀ e ∈ m.loader.journal, e.dropsWave = false)
    (hfine : ∀ m' ∈ earlier, m'.failsCallback = false) :
    (∀ (m' : Machine ω χ) id s callback, m'.loader.standing? id = some s →
      let given := m'.loadDependencies p id (some callback)
      s.status = .loaded ∧ given = (m'.update (·.record (.delivered id))).callBack id callback ∨
      s.status = .unloaded ∧ m'.loader.wave.isSome = true ∧
        given.control = .returning (.error (.reentrancyViolation s.url.text)) ∨
      s.status ≠ .loaded ∧ m'.loader.gained given.loader
        = fun other ↦ if other = id then [callback] else []) ∧
    (∀ id, m.loader.gained (m.step p).loader id = [] ∨
      ∃ callback, m.Gives id callback ∧ m.loader.gained (m.step p).loader id = [callback] ∧
        id ∈ (m.step p).loader.participants) ∧
    ((waves m.loader.journal).flatten ++ m.loader.participants).Nodup ∧
    (∀ id callback, m.nextCall? = some (id, callback) →
      ∃ wave, .closed wave ∈ m.loader.journal ∧ id ∈ wave ∧
        ∀ other ∈ wave, m.loader.isLoaded other = true) ∧
    (∀ wave, .closed wave ∈ m.loader.journal →
      calledFor (called (m :: earlier)) wave <+: allQueued (queued (m :: earlier)) wave) ∧
    (m.IsIdle →
      (∀ wave, .closed wave ∈ m.loader.journal →
        calledFor (called (m :: earlier)) wave = allQueued (queued (m :: earlier)) wave) ∧
      ∀ id, ((called (m :: earlier)).filter (·.1 = id)).map Prod.snd
        = queued (m :: earlier) id) := by
  have hbooks := h.delivers hkept hfine
  refine ⟨fun m' id s callback hs ↦ given_cases p m' hs callback, (step_handles p m).gained_cases
    hbooks, hbooks.orderly.distinct, fun id callback hnext ↦ ?_, fun wave hwave ↦ ?_,
    fun hidle ↦ ⟨fun wave hwave ↦ ?_, fun id ↦ ?_⟩⟩
  · obtain ⟨wave, hwave, hmember⟩ := closed_of_nextCall hbooks hnext
    refine ⟨wave, mem_waves.mp hwave, hmember, fun other hother ↦ ?_⟩
    have hloaded := hbooks.orderly.loaded (List.mem_flatten_of_mem hwave hother)
    exact isLoaded_iff.mpr (Option.map_eq_some_iff.mp hloaded)
  · exact hbooks.conserves.ordered (mem_waves.mpr hwave) hbooks.orderly.nodup
  · exact hbooks.conserves.finished wave (mem_waves.mpr hwave) (by simp [hidle.drains])
  · exact calls_of_isIdle hbooks (h.reachable.wave_of_isIdle hidle) hidle.drains id

/-- Two callbacks are given for one of two files that refer to each other. The first of them loads a
third file, which refers to the first: its wave is begun and closed before the second is called. -/
def loadingAgain : List (Machine (List Request) Unit) :=
  let load (path : String) (next : UnitId → Code (List Request)) : Code (List Request) :=
    .openUnit (.file path.toList) fun
      | .settled (.ok id) => next id
      | _ => .finish (.ok .undefined)
  let done : Code (List Request) := .finish (.ok .undefined)
  let again := load "/c" fun id ↦ .loadDependencies id (some done) fun _ ↦ done
  let code := load "/a" fun id ↦ .loadDependencies id (some again) fun _ ↦
    .loadDependencies id (some done) fun _ ↦ .drive fun _ ↦ done
  prolong (Project.pair.platform List.head?) 31
    [{ loader := { world := [], base := .file "/".toList }, control := .running code }]

theorem called_once_loadingAgain :
    (called loadingAgain).map Prod.fst = [0, 2, 0] ∧
      calledFor (called loadingAgain) [0, 1] = allQueued (queued loadingAgain) [0, 1] ∧
      ∀ id, ((called loadingAgain).filter (·.1 = id)).map Prod.snd = queued loadingAgain id := by
  have hhistory : History (Project.pair.platform List.head?) loadingAgain :=
    (History.start (isFresh_mk _ _) _).prolong 31
  have hcalls : (called loadingAgain).map Prod.fst = [0, 2, 0] := by decide +kernel
  have hended : (loadingAgain.head?.any fun m ↦ m.isHalted && m.loader.lookups.isEmpty &&
      m.loader.journal.all (fun e ↦ !e.dropsWave) &&
      m.loader.journal.contains (.closed [0, 1])) = true := by decide +kernel
  have hfine : (loadingAgain.tail.all fun m ↦ !m.failsCallback) = true := by decide +kernel
  generalize loadingAgain = machines at hhistory hcalls hended hfine ⊢
  obtain _ | ⟨m, earlier⟩ := machines
  · cases hhistory
  simp only [List.head?_cons, Option.any_some, Bool.and_eq_true, List.isEmpty_iff, List.all_eq_true,
    Bool.not_eq_true', List.contains_iff_mem, List.tail_cons] at hended hfine
  obtain ⟨⟨⟨hhalted, hlookups⟩, hkept⟩, hclosed⟩ := hended
  obtain ⟨-, -, hstack⟩ := exists_of_isHalted hhalted
  have hidle : m.IsIdle := ⟨hlookups, by rw [drains, hstack]; rfl, .inl hstack⟩
  obtain ⟨-, -, -, -, -, hall⟩ := History.called_once hhistory hkept hfine
  exact ⟨hcalls, (hall hidle).1 _ hclosed, (hall hidle).2⟩

end Machine

end ScriptLoader
