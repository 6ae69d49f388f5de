import ScriptLoader.Proofs.Importing.Pending

/-!
# Loaders in good order

While imports are under way, the loader is in good order: what references have led to are the right
files, no second pass has failed or is under way, the units that are being loaded have joined the
active wave, and the callbacks that wait are those of imports. They wait for units of the active
wave, or for units of a wave that has been closed and whose callbacks are *due*, namely about to be
taken.

What has become of earlier loads does not matter otherwise.
-/

namespace ScriptLoader

variable {ω χ : Type}

namespace Loader

/-! ## Bodies stay as they are -/

theorem stage?_setStatus (l : Loader ω χ) (id : UnitId) (status : LoadStatus) (other : UnitId) :
    (l.setStatus id status).stage? other = l.stage? other :=
  l.stage?_modifyUnit id (by exact fun _ ↦ rfl) other

theorem stage?_setStatuses (l : Loader ω χ) (ids : List UnitId) (status : LoadStatus)
    (other : UnitId) : (l.setStatuses ids status).stage? other = l.stage? other := by
  induction ids generalizing l with
  | nil => rfl
  | cons id rest ih =>
    rw [setStatuses, List.foldl_cons, ← setStatuses, ih, stage?_setStatus]

theorem stage?_close (l : Loader ω χ) (wave : Wave) (other : UnitId) :
    (l.close wave).stage? other = l.stage? other :=
  stage?_setStatuses { l with wave := none } wave.participants .loaded other

theorem stage?_await (l : Loader ω χ) (id : UnitId) (callback : Option (Callback ω))
    (other : UnitId) : (l.await id callback).stage? other = l.stage? other :=
  l.stage?_modifyUnit id (by exact fun _ ↦ rfl) other

/-! ## Good order -/

/-- A unit is being loaded only for the active wave. Only callbacks of imports wait for it, and they
wait because it is being loaded, or has been and they are due. -/
structure Awaits (due : List UnitId) (l : Loader ω χ) (id : UnitId) (s : Standing ω) : Prop where
  roster : s.status = .loading → ∃ wave, l.wave = some wave ∧ id ∈ wave.participants
  imports : ∀ callback ∈ s.callbacks, callback.isImport = true
  waiting : s.callbacks ≠ [] → s.status = if id ∈ due then .loaded else .loading

/-- A loader in good order. -/
structure Knows (leads : String → Url) (due : List UnitId) (l : Loader ω χ) : Prop where
  /-- References have led to the files that their keys lead to. -/
  led : ∀ {key id}, l.cache.result? key = some id →
    ∃ s, l.standing? id = some s ∧ s.url = leads key
  unfailed : l.Unfailed
  idle : ∀ id, l.stage? id ≠ some .compiling
  available : l.released = false
  awaits : ∀ {id s}, l.standing? id = some s → l.Awaits due id s

theorem Awaits.of_isNew {due : List UnitId} {l : Loader ω χ} {id : UnitId} {s : Standing ω}
    (h : s.IsNew) : l.Awaits due id s where
  roster hloading := absurd hloading h.not_loading
  imports := by simp [h.callbacks]
  waiting hne := absurd h.callbacks hne

theorem Awaits.enroll {l : Loader ω χ} {wave : Wave} {id other : UnitId} {s : Standing ω}
    (hwave : l.wave = some wave) (h : l.Awaits [] other s)
    (dependencies : List Reference) : (l.enroll wave id dependencies).Awaits [] other
      (if id = other then { s with status := .loading } else s) := by
  have hactive : (l.enroll wave id dependencies).wave = some
      ⟨wave.participants ++ [id], wave.outstanding + dependencies.length⟩ := rfl
  by_cases hid : id = other
  · subst hid
    rw [if_pos rfl]
    exact ⟨fun _ ↦ ⟨_, hactive, by simp⟩, h.imports, fun _ ↦ rfl⟩
  · rw [if_neg hid]
    refine ⟨fun hloading ↦ ⟨_, hactive, ?_⟩, h.imports, h.waiting⟩
    obtain ⟨wave', hactive', hmem⟩ := h.roster hloading
    rw [hwave] at hactive'
    cases hactive'
    exact List.mem_append_left _ hmem

namespace Knows

variable {leads : String → Url} {due due' : List UnitId} {l l' : Loader ω χ} {wave : Wave}

theorem of_fresh (h : l.IsFresh) : l.Knows leads due where
  led hresult := by
    rw [h.cache] at hresult
    cases hresult
  unfailed id := by simp [stage?, unit?, h.units]
  idle id := by simp [stage?, unit?, h.units]
  available := h.released
  awaits hs := by
    rw [h.standing?] at hs
    cases hs

theorem status_ne_loading (h : l.Knows leads due) (hnone : l.wave = none) {id : UnitId}
    {s : Standing ω} (hs : l.standing? id = some s) : s.status ≠ .loading := by
  intro hloading
  obtain ⟨wave, hactive, -⟩ := (h.awaits hs).roster hloading
  rw [hnone] at hactive
  cases hactive

theorem callbacks_eq_nil (h : l.Knows leads []) (hnone : l.wave = none) {id : UnitId}
    {s : Standing ω} (hs : l.standing? id = some s) : s.callbacks = [] := by
  by_contra hne
  exact h.status_ne_loading hnone hs ((h.awaits hs).waiting hne)

theorem executed (h : l.Knows leads due) (hexecuted : l.Executed l') : l'.Knows leads due where
  led {key id} hresult := by
    rw [hexecuted.quiet.result?] at hresult
    obtain ⟨s, hs, hurl⟩ := h.led hresult
    exact ⟨s, hexecuted.quiet.known hs, hurl⟩
  unfailed := h.unfailed.executed hexecuted
  idle id hcompiling := h.idle id ((hexecuted.stages id).eq_of hcompiling (.inl rfl))
  available := hexecuted.released.trans h.available
  awaits hs := by
    rcases hexecuted.quiet.fresh hs with hold | ⟨-, hnew⟩
    · have hawaits := h.awaits hold
      exact { hawaits with roster := hexecuted.quiet.wave ▸ hawaits.roster }
    · exact .of_isNew hnew

/-- Units may be moved along, and what waits for them may change. -/
theorem of_keeps (h : l.Knows leads due) (hkeeps : l.Keeps l')
    (hstages : ∀ id, l'.stage? id = l.stage? id)
    (hresults : l'.cache.results = l.cache.results) (hreleased : l'.released = l.released)
    (hawaits : ∀ {id s}, l'.standing? id = some s → l'.Awaits due' id s) : l'.Knows leads due' where
  led {key id} hresult := by
    rw [ResolutionCache.result?, hresults] at hresult
    obtain ⟨s, hs, hurl⟩ := h.led hresult
    obtain ⟨s', hs', hurl', -⟩ := hkeeps hs
    exact ⟨s', hs', hurl'.trans hurl⟩
  unfailed id := hstages id ▸ h.unfailed id
  idle id := hstages id ▸ h.idle id
  available := hreleased.trans h.available
  awaits := hawaits

theorem congr (h : l.Knows leads due) (hunits : l'.units = l.units)
    (hwave : l'.wave.map (·.participants) = l.wave.map (·.participants))
    (hresults : l'.cache.results = l.cache.results) (hreleased : l'.released = l.released) :
    l'.Knows leads due := by
  refine h.of_keeps (fun {id s} hs ↦ ⟨s, (standing?_congr hunits id).trans hs, rfl, rfl, rfl⟩)
    (stage?_congr hunits) hresults hreleased fun {id s} hs ↦ ?_
  rw [standing?_congr hunits] at hs
  refine { h.awaits hs with roster := fun hloading ↦ ?_ }
  obtain ⟨wave, hactive, hmem⟩ := (h.awaits hs).roster hloading
  rw [hactive, Option.map_some, Option.map_eq_some_iff] at hwave
  obtain ⟨wave', hactive', heq⟩ := hwave
  exact ⟨wave', hactive', heq ▸ hmem⟩

theorem record (h : l.Knows leads due) (e : Event) : (l.record e).Knows leads due :=
  h.congr rfl rfl rfl rfl

theorem settle (h : l.Knows leads due) (hwave : l.wave = some wave) :
    (l.settle wave).Knows leads due := h.congr rfl (by rw [hwave]; rfl) rfl rfl

theorem ask (h : l.Knows leads due) (key : String) : (l.ask key).Knows leads due :=
  h.congr rfl rfl (l.cache.results_mark key) rfl

theorem enlist (h : l.Knows leads due) (world : ω) (request : Request) (lookup : Lookup ω) :
    (l.enlist world request lookup).Knows leads due := h.congr rfl rfl rfl rfl

theorem leave (h : l.Knows leads due) (world : ω) (lookups : List (Lookup ω)) :
    (l.leave world lookups).Knows leads due := h.congr rfl rfl rfl rfl

theorem insertResult (h : l.Knows leads due) {key : String} {id : UnitId} {s : Standing ω}
    (hs : l.standing? id = some s) (hurl : s.url = leads key) :
    ({ l with cache := l.cache.insertResult key id } : Loader ω χ).Knows leads due where
  __ := h
  led {other id'} hresult := by
    rw [ResolutionCache.result?_insertResult] at hresult
    split at hresult
    case isTrue heq =>
      cases hresult
      exact ⟨s, hs, heq ▸ hurl⟩
    case isFalse => exact h.led hresult
  awaits hs := { h.awaits hs with }

/-! ### Moving units along -/

/-- The units of a wave that is closed are loaded, and their callbacks are due. -/
theorem close (h : l.Knows leads []) (hwave : l.wave = some wave) :
    (l.close wave).Knows leads wave.participants := by
  have hreleased : (l.close wave).released = l.released := by
    rw [Loader.close, setStatuses_eq]
    rfl
  refine h.of_keeps (l.keeps_close wave) (l.stage?_close wave) (by rw [l.cache_close wave])
    hreleased fun {id s'} hs ↦ ?_
  rw [standing?_close, Option.map_eq_some_iff] at hs
  obtain ⟨s, hs, rfl⟩ := hs
  have hawaits := h.awaits hs
  by_cases hid : id ∈ wave.participants
  · rw [if_pos hid]
    refine ⟨fun hloading ↦ ?_, hawaits.imports, fun _ ↦ (if_pos hid).symm⟩
    cases hloading
  -- a unit that is being loaded is one of the wave
  · have hnot : s.status ≠ .loading := by
      intro hloading
      obtain ⟨wave', hactive, hmem⟩ := hawaits.roster hloading
      rw [hwave] at hactive
      cases hactive
      exact hid hmem
    rw [if_neg hid]
    refine ⟨fun hloading ↦ absurd hloading hnot, hawaits.imports, fun hne ↦ ?_⟩
    exact absurd (hawaits.waiting hne) (by simpa using hnot)

theorem enroll (h : l.Knows leads []) (hwave : l.wave = some wave) (id : UnitId)
    (dependencies : List Reference) : (l.enroll wave id dependencies).Knows leads [] := by
  refine h.of_keeps (l.keeps_enroll wave id dependencies)
    (stage?_setStatus { l with wave := some _ } id .loading) rfl rfl fun {other s'} hs ↦ ?_
  rw [standing?_enroll, Option.map_eq_some_iff] at hs
  obtain ⟨s, hs, rfl⟩ := hs
  exact (h.awaits hs).enroll hwave dependencies

theorem await (h : l.Knows leads []) {id : UnitId} {s : Standing ω} (hs : l.standing? id = some s)
    (hloading : s.status = .loading) (deliver : Option (Outcome → Code ω)) :
    (l.await id (some (.importing deliver))).Knows leads [] := by
  refine h.of_keeps (l.keeps_await id _) (l.stage?_await id _) rfl rfl fun {other s'} hs' ↦ ?_
  rw [standing?_await, Option.map_eq_some_iff] at hs'
  obtain ⟨s₀, hs₀, rfl⟩ := hs'
  have hawaits := h.awaits hs₀
  by_cases hid : id = other
  · subst hid
    rw [hs] at hs₀
    cases hs₀
    rw [if_pos rfl]
    refine ⟨hawaits.roster, fun callback hcallback ↦ ?_, fun _ ↦ by simpa using hloading⟩
    rcases List.mem_append.mp hcallback with hold | hnew
    · exact hawaits.imports callback hold
    · rw [Option.toList_some, List.mem_singleton] at hnew
      rw [hnew]
      rfl
  · rw [if_neg hid]
    exact ⟨hawaits.roster, hawaits.imports, hawaits.waiting⟩

/-- A wave is begun for a unit, for which the callback of an import comes to wait. -/
theorem begin (h : l.Knows leads []) (hnone : l.wave = none) (id : UnitId)
    (deliver : Option (Outcome → Code ω)) (dependencies : List Reference) :
    ((l.beginWave id (some (.importing deliver))).enroll {} id dependencies).Knows leads [] := by
  have hkeeps : l.Keeps (l.beginWave id (some (.importing deliver))) := l.keeps_await id _
  have hstages (other : UnitId) :
      ((l.beginWave id (some (.importing deliver))).enroll {} id dependencies).stage? other
        = l.stage? other :=
    (stage?_setStatus { l.beginWave id (some (.importing deliver)) with wave := some _ } id .loading
      other).trans (stage?_await l id _ other)
  refine h.of_keeps (hkeeps.trans (keeps_enroll _ {} id dependencies)) hstages rfl rfl
    fun {other s'} hs' ↦ ?_
  have hawaited : (l.beginWave id (some (.importing deliver))).standing? other
      = (l.await id (some (.importing deliver))).standing? other := rfl
  rw [standing?_enroll, hawaited, standing?_await, Option.map_map, Option.map_eq_some_iff] at hs'
  obtain ⟨s₀, hs₀, rfl⟩ := hs'
  have hnot := h.status_ne_loading hnone hs₀
  have hempty := h.callbacks_eq_nil hnone hs₀
  by_cases hid : id = other
  · subst hid
    simp only [Function.comp_apply, if_pos, hempty]
    exact ⟨fun _ ↦ ⟨_, rfl, by simp⟩, by simp [Callback.isImport], fun _ ↦ rfl⟩
  · simp only [Function.comp_apply, if_neg hid]
    exact ⟨fun hloading ↦ absurd hloading hnot, by simp [hempty], fun hne ↦ absurd hempty hne⟩

theorem take {next : UnitId} {rest : List UnitId} (h : l.Knows leads (next :: rest)) :
    (l.modifyUnit next fun unit ↦ { unit with callbacks := [] }).Knows leads rest := by
  refine h.of_keeps (l.keeps_modifyCallbacks next fun _ ↦ []) (l.stage?_modifyUnit next fun _ ↦ rfl)
    rfl rfl fun {other s'} hs ↦ ?_
  rw [l.standing?_modifyCallbacks next fun _ ↦ [], Option.map_eq_some_iff] at hs
  obtain ⟨s, hs, rfl⟩ := hs
  have hawaits := h.awaits hs
  by_cases hid : next = other
  · rw [if_pos hid]
    exact ⟨hawaits.roster, by simp, fun hne ↦ absurd rfl hne⟩
  · rw [if_neg hid]
    refine ⟨hawaits.roster, hawaits.imports, fun hne ↦ ?_⟩
    simpa [Ne.symm hid] using hawaits.waiting hne

/-- Without a wave and lookups all imports are over. -/
theorem errands_eq_zero (h : l.Knows leads []) (hnone : l.wave = none) (hlookups : l.lookups = []) :
    l.errands leads = 0 := by
  have hlookedUp : l.lookedUp leads = 0 := by rw [lookedUp, hlookups]; rfl
  rw [errands, hlookedUp, zero_add]
  refine Finset.sum_eq_zero fun id _ ↦ ?_
  cases hs : l.standing? id with
  | none => exact waitingFor_of_unknown hs
  | some s =>
    rw [waitingFor_of_standing? hs, Standing.errands_of_callbacks (h.callbacks_eq_nil hnone hs)]

end Knows

end Loader

end ScriptLoader
