import Mathlib.Data.List.Nodup
import ScriptLoader.Proofs.Conservation

/-!
# Callbacks that wait

A callback waits for a unit that is being loaded, in the active wave, or for a unit of a closed wave
that has not had its turn. Every change that serves waves and callbacks keeps this so, and keeps the
books of closed waves right.

A unit is in one wave at most: it joins when its dependencies have not been asked for, and from then
on it is being loaded or loaded. That is what keeps the books of different waves apart.
-/

namespace ScriptLoader

variable {ω χ : Type}

open Journal

/-! ## Units of waves -/

namespace Loader

/-- How far a unit has been loaded. -/
def status? (l : Loader ω χ) (id : UnitId) : Option LoadStatus :=
  (l.standing? id).map (·.status)

variable {l l' : Loader ω χ} {id : UnitId} {s : Standing ω} {wave : Wave}

theorem status?_eq (h : l.standing? id = some s) : l.status? id = some s.status := by
  rw [status?, h]
  rfl

theorem status?_enroll (h : l.standing? id = some s) (wave : Wave)
    (dependencies : List Reference) (other : UnitId) :
    (l.enroll wave id dependencies).status? other
      = if other = id then some .loading else l.status? other := by
  rw [status?, standing?_enroll]
  by_cases hid : other = id
  · rw [if_pos hid, hid, h]
    simp
  · rw [if_neg hid, status?]
    cases l.standing? other with
    | none => rfl
    | some s => simp [Ne.symm hid]

theorem status?_close (l : Loader ω χ) (wave : Wave) (other : UnitId) :
    (l.close wave).status? other
      = (l.status? other).map fun status ↦
          if other ∈ wave.participants then .loaded else status := by
  rw [status?, standing?_close, status?]
  cases l.standing? other with
  | none => rfl
  | some s => by_cases h : other ∈ wave.participants <;> simp [h]

theorem status?_modifyCallbacks (l : Loader ω χ) (id : UnitId)
    (change : List (Callback ω) → List (Callback ω)) (other : UnitId) :
    (l.modifyUnit id fun unit ↦ { unit with callbacks := change unit.callbacks }).status? other
      = l.status? other := by
  rw [status?, standing?_modifyCallbacks, status?]
  cases l.standing? other with
  | none => rfl
  | some s => by_cases h : id = other <;> simp [h]

theorem Calm.status? (h : l.Calm l') (id : UnitId) :
    l'.status? id = l.status? id ∨
      l.status? id = none ∧ l'.status? id ≠ some .loading := by
  cases hs : l.standing? id with
  | some s => exact .inl (by rw [status?_eq (h.known hs), status?_eq hs])
  | none =>
    refine .inr ⟨by rw [Loader.status?, hs]; rfl, fun hstatus ↦ ?_⟩
    obtain ⟨s, hs', hstatus⟩ := Option.map_eq_some_iff.mp hstatus
    rcases h.fresh hs' with hold | ⟨-, hnew⟩
    · rw [hs] at hold
      cases hold
    · exact hnew.not_loading hstatus

theorem Calm.status?_eq (h : l.Calm l') {status : LoadStatus} (hid : l.status? id = some status) :
    l'.status? id = some status :=
  ((h.status? id).resolve_right fun hnone ↦ by rw [hid] at hnone; cases hnone.1).trans hid

/-- A unit is in one wave at most: in the active one while it is being loaded, and in a closed one
only when it is loaded. -/
structure Orderly (l : Loader ω χ) : Prop where
  distinct : ((waves l.journal).flatten ++ l.participants).Nodup
  loaded : ∀ {id}, id ∈ (waves l.journal).flatten → l.status? id = some .loaded
  loading : ∀ {id}, id ∈ l.participants ↔ l.status? id = some .loading

namespace Orderly

theorem nodup (h : l.Orderly) : (waves l.journal).flatten.Nodup :=
  (List.nodup_append.mp h.distinct).1

theorem not_closed (h : l.Orderly) (hid : l.status? id ≠ some .loaded) :
    id ∉ (waves l.journal).flatten :=
  fun hmem ↦ hid (h.loaded hmem)

theorem calm (h : l.Orderly) (hcalm : l.Calm l') : l'.Orderly where
  distinct := by
    rw [hcalm.waves, hcalm.participants]
    exact h.distinct
  loaded {id} hid := by
    rw [hcalm.waves] at hid
    rcases hcalm.status? id with heq | ⟨hnone, -⟩
    · rw [heq, h.loaded hid]
    · rw [h.loaded hid] at hnone
      cases hnone
  loading {id} := by
    rw [hcalm.participants, h.loading]
    rcases hcalm.status? id with heq | ⟨hnone, hnot⟩
    · rw [heq]
    · exact ⟨fun h ↦ (by rw [hnone] at h; cases h), fun h ↦ absurd h hnot⟩

theorem modifyCallbacks (h : l.Orderly) (id : UnitId)
    (change : List (Callback ω) → List (Callback ω)) :
    (l.modifyUnit id fun unit ↦ { unit with callbacks := change unit.callbacks }).Orderly where
  distinct := h.distinct
  loaded hid := (l.status?_modifyCallbacks id change _).trans (h.loaded hid)
  loading {other} := by
    rw [status?_modifyCallbacks]
    exact h.loading

theorem enroll (h : l.Orderly) (hs : l.standing? id = some s) (hunloaded : s.status = .unloaded)
    (hparticipants : l.participants = wave.participants) (dependencies : List Reference) :
    (l.enroll wave id dependencies).Orderly := by
  have hstatus : l.status? id = some .unloaded := hunloaded ▸ status?_eq hs
  have hclosed : id ∉ (waves l.journal).flatten := h.not_closed (by simp [hstatus])
  have hactive : id ∉ l.participants := fun hid ↦ by
    rw [h.loading.mp hid] at hstatus
    cases hstatus
  have hwaves : waves (l.enroll wave id dependencies).journal = waves l.journal := rfl
  have hnow : (l.enroll wave id dependencies).participants = l.participants ++ [id] := by
    rw [hparticipants]
    rfl
  refine ⟨?_, fun {other} hother ↦ ?_, fun {other} ↦ ?_⟩
  · rw [hwaves, hnow, ← List.append_assoc]
    refine List.Nodup.append h.distinct (List.nodup_singleton id) ?_
    rw [List.disjoint_singleton, List.mem_append]
    exact not_or.mpr ⟨hclosed, hactive⟩
  · rw [hwaves] at hother
    have hne : other ≠ id := fun heq ↦ hclosed (heq ▸ hother)
    rw [status?_enroll hs, if_neg hne, h.loaded hother]
  · rw [hnow, status?_enroll hs, List.mem_append, List.mem_singleton]
    split
    case isTrue heq => simp [heq]
    case isFalse hne => rw [or_iff_left hne, h.loading]

theorem beginWave (h : l.Orderly) (hnone : l.wave = none) (id : UnitId)
    (callback : Option (Callback ω)) : (l.beginWave id callback).Orderly := by
  have hawaited := h.modifyCallbacks id (· ++ callback.toList)
  have hsame : (l.beginWave id callback).participants = l.participants := by
    rw [participants, participants, hnone]
    rfl
  refine ⟨?_, hawaited.loaded, fun {other} ↦ ?_⟩
  · rw [hsame]
    exact hawaited.distinct
  · rw [hsame]
    exact hawaited.loading

theorem close (h : l.Orderly) (hwave : l.wave = some wave) : (l.close wave).Orderly := by
  have hparticipants := participants_of_wave hwave
  have hnone : (l.close wave).participants = [] := by
    rw [participants, wave_close]
    rfl
  have hwaves : (waves (l.close wave).journal).flatten
      = wave.participants ++ (waves l.journal).flatten := by
    rw [journal_close]
    rfl
  refine ⟨?_, fun {id} hid ↦ ?_, fun {id} ↦ ?_⟩
  · rw [hnone, hwaves, List.append_nil, ← hparticipants]
    exact List.nodup_append_comm.mp h.distinct
  · rw [hwaves, List.mem_append] at hid
    rw [status?_close]
    by_cases hmem : id ∈ wave.participants
    · rw [h.loading.mp (hparticipants ▸ hmem)]
      simp [hmem]
    · rw [h.loaded (hid.resolve_left hmem)]
      simp
  · rw [hnone, status?_close]
    by_cases hmem : id ∈ wave.participants
    · simp [hmem]
    · rw [← hparticipants] at hmem
      simpa [hparticipants ▸ hmem] using fun h' ↦ hmem (h.loading.mpr h')

end Orderly

/-! ## Queues -/

theorem queue_of_map {change : Standing ω → Standing ω}
    (h : l'.standing? id = (l.standing? id).map change)
    (hchange : ∀ s, (change s).callbacks = s.callbacks) : l'.queue id = l.queue id := by
  cases hs : l.standing? id with
  | none =>
    rw [hs] at h
    rw [queue_of_unknown hs, queue_of_unknown h]
  | some s =>
    rw [hs] at h
    rw [queue_of_standing? hs, queue_of_standing? h, hchange]

theorem queue_enroll (l : Loader ω χ) (wave : Wave) (id : UnitId) (dependencies : List Reference)
    (other : UnitId) : (l.enroll wave id dependencies).queue other = l.queue other :=
  queue_of_map (l.standing?_enroll wave id dependencies other) fun _ ↦ by split <;> rfl

theorem queue_close (l : Loader ω χ) (wave : Wave) (other : UnitId) :
    (l.close wave).queue other = l.queue other :=
  queue_of_map (l.standing?_close wave other) fun _ ↦ by split <;> rfl

theorem queue_modifyCallbacks (l : Loader ω χ) (id : UnitId)
    (change : List (Callback ω) → List (Callback ω)) {other : UnitId} (h : other ≠ id) :
    (l.modifyUnit id fun unit ↦ { unit with callbacks := change unit.callbacks }).queue other
      = l.queue other :=
  queue_of_map (l.standing?_modifyCallbacks id change other) fun _ ↦ by rw [if_neg h.symm]

theorem queue_await (h : l.standing? id = some s) (callback : Option (Callback ω))
    (other : UnitId) :
    (l.await id callback).queue other
      = if other = id then l.queue id ++ callback.toList else l.queue other := by
  split
  case isTrue heq =>
    rw [heq, queue_of_standing? (standing?_await_self h callback), queue_of_standing? h]
  case isFalse hne => exact l.queue_modifyCallbacks id (· ++ callback.toList) hne

theorem queue_take (l : Loader ω χ) (id : UnitId) :
    (l.modifyUnit id fun unit ↦ { unit with callbacks := [] }).queue id = [] := by
  have hs := l.standing?_modifyCallbacks id (fun _ ↦ []) id
  cases hold : l.standing? id with
  | none =>
    rw [hold] at hs
    exact queue_of_unknown hs
  | some s =>
    rw [hold, Option.map_some, if_pos rfl] at hs
    exact queue_of_standing? hs

/-- What has come to wait for a unit in addition to what waited before. -/
def gained (l l' : Loader ω χ) (id : UnitId) : List (Callback ω) :=
  (l'.queue id).drop (l.queue id).length

theorem queue_append_gained (h : l.queue id <+: l'.queue id) :
    l.queue id ++ l.gained l' id = l'.queue id :=
  List.prefix_iff_eq_append.mp h

/-- Calm changes before and after do not change what is gained. -/
theorem gained_of_calm {l₁ l₂ : Loader ω χ} (before : l.Calm l₁) (after : l₂.Calm l') :
    l.gained l' = l₁.gained l₂ := by
  funext id
  rw [gained, gained, before.queue, after.queue]

theorem gained_of_same (h : ∀ id, l'.queue id = l.queue id) : l.gained l' = fun _ ↦ [] := by
  funext id
  rw [gained, h, List.drop_length]

/-- The callbacks that wait belong to units of the active wave, or to units of closed waves that
have not had their turn; and the books of closed waves are right. -/
structure Delivers (called : List (UnitId × Callback ω)) (queued : UnitId → List (Callback ω))
    (l : Loader ω χ) (drains : List (Drain ω)) : Prop where
  orderly : l.Orderly
  waiting : ∀ {id}, l.queue id ≠ [] → id ∈ l.participants ∨ ∃ drain ∈ drains, id ∈ drain.rest
  kept : ∀ {id}, id ∉ (waves l.journal).flatten → l.queue id = queued id
  conserves : Conserves (waves l.journal) called queued l.queue drains

namespace Delivers

variable {called : List (UnitId × Callback ω)} {queued : UnitId → List (Callback ω)}
  {drains : List (Drain ω)}

theorem grow (h : Delivers called queued l drains) (horderly : l'.Orderly)
    (hwaves : waves l'.journal = waves l.journal)
    (hparticipants : ∀ id ∈ l.participants, id ∈ l'.participants)
    (hgrown : ∀ id, l.queue id <+: l'.queue id)
    (hgain : ∀ id, l'.queue id ≠ l.queue id → id ∈ l'.participants) :
    Delivers called (fun id ↦ queued id ++ l.gained l' id) l' drains := by
  -- units of closed waves are not in the active one, so nothing comes to wait for them
  have hsame : ∀ id ∈ (waves l.journal).flatten, l'.queue id = l.queue id := by
    intro id hid
    by_contra hne
    exact List.disjoint_of_nodup_append horderly.distinct (hwaves ▸ hid) (hgain id hne)
  refine ⟨horderly, fun {id} hid ↦ ?_, fun {id} hid ↦ ?_, ?_⟩
  · by_cases hold : l'.queue id = l.queue id
    · exact (h.waiting (hold ▸ hid)).imp_left (hparticipants id)
    · exact .inl (hgain id hold)
  · rw [← queue_append_gained (hgrown id), h.kept (hwaves ▸ hid)]
  · rw [hwaves]
    refine h.conserves.congr (fun id hid ↦ ?_) hsame
    rw [gained, hsame id hid, List.drop_length, List.append_nil]

theorem settle (h : Delivers called queued l drains) (horderly : l'.Orderly)
    (hwaves : waves l'.journal = waves l.journal)
    (hparticipants : ∀ id ∈ l.participants, id ∈ l'.participants)
    (hqueue : ∀ id, l'.queue id = l.queue id) : Delivers called queued l' drains := by
  have hgrown := h.grow horderly hwaves hparticipants (fun id ↦ hqueue id ▸ List.prefix_refl _)
    fun id hne ↦ absurd (hqueue id) hne
  rw [gained_of_same hqueue] at hgrown
  simpa using hgrown

theorem calm (h : Delivers called queued l drains) (hcalm : l.Calm l') :
    Delivers called queued l' drains :=
  h.settle (h.orderly.calm hcalm) hcalm.waves (fun _ hid ↦ hcalm.participants ▸ hid) hcalm.queue

private theorem starts_await (hs : l.standing? id = some s) (callback : Option (Callback ω))
    (other : UnitId) :
    l.queue other <+: (l.await id callback).queue other ∧
      ((l.await id callback).queue other ≠ l.queue other → other = id) := by
  rw [queue_await hs]
  split
  case isTrue heq => exact ⟨heq ▸ List.prefix_append _ _, fun _ ↦ heq⟩
  case isFalse => exact ⟨List.prefix_refl _, fun hne ↦ absurd rfl hne⟩

theorem await (h : Delivers called queued l drains) (hs : l.standing? id = some s)
    (hloading : s.status = .loading) (callback : Option (Callback ω)) :
    Delivers called (fun other ↦ queued other ++ l.gained (l.await id callback) other)
      (l.await id callback) drains := by
  refine h.grow (h.orderly.modifyCallbacks id (· ++ callback.toList)) rfl (fun _ hid ↦ hid)
    (fun other ↦ (starts_await hs callback other).1) fun other hne ↦ ?_
  rw [(starts_await hs callback other).2 hne]
  exact h.orderly.loading.mpr (hloading ▸ status?_eq hs)

theorem enroll (h : Delivers called queued l drains) (hwave : l.wave = some wave)
    (hs : l.standing? id = some s) (hunloaded : s.status = .unloaded)
    (dependencies : List Reference) :
    Delivers called queued (l.enroll wave id dependencies) drains := by
  have hparticipants := participants_of_wave hwave
  refine h.settle (h.orderly.enroll hs hunloaded hparticipants dependencies) rfl
    (fun other hother ↦ ?_) (l.queue_enroll wave id dependencies)
  rw [hparticipants] at hother
  exact List.mem_append_left _ hother

theorem begin (h : Delivers called queued l drains) (hnone : l.wave = none)
    (hs : l.standing? id = some s) (hunloaded : s.status = .unloaded)
    (callback : Option (Callback ω)) (dependencies : List Reference) :
    let l' := (l.beginWave id callback).enroll {} id dependencies
    Delivers called (fun other ↦ queued other ++ l.gained l' other) l' drains := by
  have hbegun := (h.orderly.beginWave hnone id callback).enroll (standing?_await_self hs callback)
    hunloaded rfl dependencies
  have hidle : l.participants = [] := by
    rw [participants, hnone]
    rfl
  have hqueue (other : UnitId) : ((l.beginWave id callback).enroll {} id dependencies).queue other
      = (l.await id callback).queue other := queue_enroll _ _ _ _ _
  refine h.grow hbegun rfl (by simp [hidle]) (fun other ↦ ?_) fun other hne ↦ ?_
  · rw [hqueue]
    exact (starts_await hs callback other).1
  · rw [hqueue] at hne
    rw [(starts_await hs callback other).2 hne]
    exact List.mem_singleton_self id

theorem close (h : Delivers called queued l drains) (hwave : l.wave = some wave) :
    Delivers called queued (l.close wave) (Drain.opening wave.participants ++ drains) := by
  have horderly := h.orderly.close hwave
  have hnodup := horderly.nodup
  have hparticipants := participants_of_wave hwave
  have hwaves : waves (l.close wave).journal = wave.participants :: waves l.journal := by
    rw [journal_close]
    rfl
  rw [hwaves] at hnodup
  have hqueue : (l.close wave).queue = l.queue := funext (l.queue_close wave)
  refine ⟨horderly, fun {id} hid ↦ ?_, fun {id} hid ↦ ?_, ?_⟩
  · rw [hqueue] at hid
    refine .inr ?_
    rcases h.waiting hid with hactive | ⟨drain, hdrain, hrest⟩
    · rw [hparticipants] at hactive
      rcases hp : wave.participants with _ | ⟨first, rest⟩
      all_goals rw [hp] at hactive
      · cases hactive
      · exact ⟨_, List.mem_cons_self, hactive⟩
    · exact ⟨drain, List.mem_append_right _ hdrain, hrest⟩
  · rw [hwaves, List.flatten_cons, List.mem_append] at hid
    rw [hqueue]
    exact h.kept fun hmem ↦ hid (.inr hmem)
  · rw [hwaves, hqueue]
    refine h.conserves.close hnodup fun id hid ↦ h.kept fun hmem ↦ ?_
    exact List.disjoint_of_nodup_append (List.flatten_cons ▸ hnodup) hid hmem

variable {next : UnitId} {callback : Callback ω} {callbacks : List (Callback ω)}
  {rest : List UnitId}

theorem call (h : Delivers called queued l (⟨id, callback :: callbacks, rest⟩ :: drains)) :
    Delivers (called ++ [(id, callback)]) queued l (⟨id, callbacks, rest⟩ :: drains) where
  orderly := h.orderly
  waiting hid := by simpa using h.waiting hid
  kept := h.kept
  conserves := h.conserves.call h.orderly.nodup

theorem take (h : Delivers called queued l (⟨id, [], next :: rest⟩ :: drains)) :
    Delivers called queued (l.modifyUnit next fun unit ↦ { unit with callbacks := [] })
      (⟨next, l.queue next, rest⟩ :: drains) where
  orderly := h.orderly.modifyCallbacks next fun _ ↦ []
  waiting {other} hother := by
    have hne : other ≠ next := by
      rintro rfl
      exact hother (l.queue_take other)
    rw [l.queue_modifyCallbacks next (fun _ ↦ []) hne] at hother
    refine (h.waiting hother).imp_right fun hdrain ↦ ?_
    simpa [hne] using hdrain
  kept {other} hother := by
    -- the unit whose callbacks are taken is in a closed wave
    obtain ⟨wave, hwave, -, ⟨before, heq, -⟩, -⟩ := h.conserves.draining _ List.mem_cons_self
    have hnext : next ∈ (waves l.journal).flatten :=
      List.mem_flatten_of_mem hwave (heq ▸ List.mem_append_right _ List.mem_cons_self)
    have hne : other ≠ next := by
      rintro rfl
      exact hother hnext
    rw [l.queue_modifyCallbacks next (fun _ ↦ []) hne]
    exact h.kept hother
  conserves := h.conserves.take h.orderly.nodup fun _ hother ↦
    l.queue_modifyCallbacks next (fun _ ↦ []) hother

theorem finish (h : Delivers called queued l (⟨id, [], []⟩ :: drains)) :
    Delivers called queued l drains where
  orderly := h.orderly
  waiting hid := by simpa using h.waiting hid
  kept := h.kept
  conserves := h.conserves.finish h.orderly.nodup

end Delivers

/-! ## Steps -/

variable {given : UnitId → Callback ω → Prop} {called : List (UnitId × Callback ω)}
  {queued : UnitId → List (Callback ω)} {drains opened : List (Drain ω)}

/-- What the loader does to waves and waiting callbacks keeps the books right, as long as no wave is
dropped. -/
theorem Delivers.serve (h : Delivers called queued l drains) (hserves : l.Serves given l' opened)
    (hkept : ∀ e ∈ l'.journal, e.dropsWave = false) :
    Delivers called (fun id ↦ queued id ++ l.gained l' id) l' (opened ++ drains) := by
  cases hserves with
  | calm calm =>
    rw [gained_of_same calm.queue]
    simpa using h.calm calm
  | keep before known loading =>
    rw [gained_of_calm before (.refl _)]
    exact (h.calm before).await known loading _
  | begin before known unloaded none _ after =>
    rw [gained_of_calm before after]
    exact ((h.calm before).begin none known unloaded _ _).calm after
  | join before active known unloaded after =>
    rw [gained_of_calm before after, gained_of_same (queue_enroll _ _ _ _)]
    simpa using ((h.calm before).enroll active known unloaded _).calm after
  | close before active =>
    rw [gained_of_calm before (.refl _), gained_of_same (queue_close _ _)]
    simpa using (h.calm before).close active
  | drop dropped drops =>
    rw [hkept _ dropped] at drops
    cases drops

/-- A callback that comes to wait is all that is gained. -/
theorem gained_await (hs : l.standing? id = some s) (callback : Option (Callback ω)) :
    l.gained (l.await id callback)
      = fun other ↦ if other = id then callback.toList else [] := by
  funext other
  rw [gained, queue_await hs]
  split
  case isTrue heq => rw [heq, List.drop_left]
  case isFalse => exact List.drop_length

theorem gained_begin (hs : l.standing? id = some s) (callback : Option (Callback ω))
    (dependencies : List Reference) :
    l.gained ((l.beginWave id callback).enroll {} id dependencies)
      = fun other ↦ if other = id then callback.toList else [] := by
  rw [← gained_await hs]
  funext other
  rw [gained, queue_enroll]
  rfl

/-- A callback is given or not, and either way belongs to the unit that it comes to wait for. -/
private theorem given_of_toList {callback : Option (Callback ω)}
    (source : ∀ c ∈ callback, given id c) (other : UnitId) :
    (if other = id then callback.toList else []) = [] ∨
      ∃ c, given other c ∧ (if other = id then callback.toList else []) = [c] ∧ other = id := by
  split
  case isTrue heq =>
    cases callback with
    | none => exact .inl rfl
    | some c => exact .inr ⟨c, heq ▸ source c rfl, rfl, heq⟩
  case isFalse => exact .inl rfl

/-- A callback only comes to wait when it is given, and for a unit of the active wave. -/
theorem Delivers.gained_cases (h : Delivers called queued l drains)
    (hserves : l.Serves given l' opened) (id : UnitId) :
    l.gained l' id = [] ∨
      ∃ c, given id c ∧ l.gained l' id = [c] ∧ id ∈ l'.participants := by
  cases hserves with
  | calm calm => exact .inl (congrFun (gained_of_same calm.queue) id)
  | keep before known loading source =>
    rw [gained_of_calm before (.refl _), gained_await known]
    refine (given_of_toList source id).imp_right fun ⟨c, hc, heq, hid⟩ ↦ ⟨c, hc, heq, ?_⟩
    exact (h.calm before).orderly.loading.mpr (hid ▸ loading ▸ status?_eq known)
  | begin before known unloaded none source after =>
    rw [gained_of_calm before after, gained_begin known]
    refine (given_of_toList source id).imp_right fun ⟨c, hc, heq, hid⟩ ↦ ⟨c, hc, heq, ?_⟩
    rw [after.participants, hid]
    exact List.mem_singleton_self _
  | join before active known unloaded after =>
    rw [gained_of_calm before after, gained_of_same (queue_enroll _ _ _ _)]
    exact .inl rfl
  | close before active =>
    rw [gained_of_calm before (.refl _), gained_of_same (queue_close _ _)]
    exact .inl rfl
  | drop _ _ before units =>
    have hqueue (id : UnitId) := (queue_congr units id).trans (before.queue id)
    exact .inl (congrFun (gained_of_same hqueue) id)

end Loader

end ScriptLoader
