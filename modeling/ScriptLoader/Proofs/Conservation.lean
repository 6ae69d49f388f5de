import Mathlib.Data.List.Nodup
import Mathlib.Data.List.Pairwise
import ScriptLoader.Proofs.Handling

/-!
# The books of closed waves

When a wave is closed, the callbacks that wait for its units are called one after the other. Any of
them may enter the loader again, so that another wave is closed in the middle of it. What keeps this
in order is a conservation law: for each closed wave, what has been called and what is taken to be
called next make up what came to wait for the units that have had their turn, in the order in which
they joined.

The law is stated for lists alone. What came to wait, what waits now and what has been called are
whatever lists they are, and the loader only comes in through what it does to them.
-/

namespace ScriptLoader

variable {ω χ : Type}

/-- All that came to wait for some units, with them, in their order. -/
def allQueued (queued : UnitId → List (Callback ω)) (ids : List UnitId) :
    List (UnitId × Callback ω) :=
  ids.flatMap fun id ↦ (queued id).map (Prod.mk id)

theorem allQueued_congr {queued queued' : UnitId → List (Callback ω)} {ids : List UnitId}
    (h : ∀ id ∈ ids, queued' id = queued id) : allQueued queued' ids = allQueued queued ids :=
  List.flatMap_congr fun id hid ↦ by rw [h id hid]

theorem filter_allQueued (queued : UnitId → List (Callback ω)) {ids : List UnitId}
    (hnodup : ids.Nodup) {id : UnitId} (hid : id ∈ ids) :
    (allQueued queued ids).filter (·.1 = id) = (queued id).map (Prod.mk id) := by
  have hother {other : UnitId} (hne : other ≠ id) :
      ((queued other).map (Prod.mk other)).filter (·.1 = id) = [] :=
    List.filter_eq_nil_iff.mpr fun call hcall ↦ by
      obtain ⟨callback, -, rfl⟩ := List.mem_map.mp hcall
      simpa using hne
  obtain ⟨before, after, rfl⟩ := List.append_of_mem hid
  rw [List.nodup_append, List.nodup_cons] at hnodup
  have hbefore : (allQueued queued before).filter (·.1 = id) = [] := by
    rw [allQueued, List.filter_flatMap, List.flatMap_eq_nil_iff]
    exact fun other hmem ↦ hother (hnodup.2.2 other hmem id List.mem_cons_self)
  have hafter : (allQueued queued after).filter (·.1 = id) = [] := by
    rw [allQueued, List.filter_flatMap, List.flatMap_eq_nil_iff]
    exact fun other hmem ↦ hother fun heq ↦ hnodup.2.1.1 (heq ▸ hmem)
  have hself : ((queued id).map (Prod.mk id)).filter (·.1 = id) = (queued id).map (Prod.mk id) :=
    List.filter_eq_self.mpr fun call hcall ↦ by
      obtain ⟨callback, -, rfl⟩ := List.mem_map.mp hcall
      simp
  rw [allQueued, List.flatMap_append, List.flatMap_cons, List.filter_append, List.filter_append,
    ← allQueued, ← allQueued, hbefore, hafter, hself, List.nil_append, List.append_nil]

/-- What has been called for some units. -/
def calledFor (called : List (UnitId × Callback ω)) (ids : List UnitId) :
    List (UnitId × Callback ω) :=
  called.filter (·.1 ∈ ids)

/-- A drain calls the callbacks of a wave: what has been called and what is next make up what came
to wait for the units that have had their turn, and nothing is missing of the others. -/
structure Drain.Empties (called : List (UnitId × Callback ω))
    (queued queue : UnitId → List (Callback ω)) (drain : Drain ω) (wave : List UnitId) : Prop where
  member : drain.unit ∈ wave
  balance : ∃ before, wave = before ++ drain.rest ∧
    calledFor called wave ++ drain.callbacks.map (Prod.mk drain.unit) = allQueued queued before
  rest : ∀ id ∈ drain.rest, queue id = queued id

/-- The books of closed waves: what came to wait for their units, what waits now, what has been
called, and which waves are being drained. -/
structure Conserves (waves : List (List UnitId)) (called : List (UnitId × Callback ω))
    (queued queue : UnitId → List (Callback ω)) (drains : List (Drain ω)) : Prop where
  /-- Only callbacks of closed waves have been called. -/
  closed : ∀ call ∈ called, call.1 ∈ waves.flatten
  draining : ∀ drain ∈ drains, ∃ wave ∈ waves, drain.Empties called queued queue wave
  /-- No wave is drained twice at once. -/
  apart : drains.Pairwise fun drain other ↦ ∀ wave ∈ waves, drain.unit ∈ wave → other.unit ∉ wave
  finished : ∀ wave ∈ waves, (∀ drain ∈ drains, drain.unit ∉ wave) →
    calledFor called wave = allQueued queued wave

private theorem wave_unique {waves : List (List UnitId)} (hnodup : waves.flatten.Nodup)
    {wave wave' : List UnitId} (h : wave ∈ waves) (h' : wave' ∈ waves) {id : UnitId}
    (hid : id ∈ wave) (hid' : id ∈ wave') : wave = wave' := by
  have : Std.Symm (@List.Disjoint UnitId) := ⟨fun _ _ h _ ha hb ↦ h hb ha⟩
  by_contra hne
  exact (List.nodup_flatten.mp hnodup).2.forall h h' hne hid hid'

namespace Conserves

variable {waves : List (List UnitId)} {called : List (UnitId × Callback ω)}
  {queued queued' queue queue' : UnitId → List (Callback ω)} {drains : List (Drain ω)}

/-- What waits for other units does not matter. -/
theorem congr (h : Conserves waves called queued queue drains)
    (hqueued : ∀ id ∈ waves.flatten, queued' id = queued id)
    (hqueue : ∀ id ∈ waves.flatten, queue' id = queue id) :
    Conserves waves called queued' queue' drains where
  closed := h.closed
  draining drain hdrain := by
    obtain ⟨wave, hwave, hmember, ⟨before, heq, hbalance⟩, hrest⟩ := h.draining drain hdrain
    have hof {id : UnitId} (hid : id ∈ wave) : id ∈ waves.flatten :=
      List.mem_flatten_of_mem hwave hid
    refine ⟨wave, hwave, hmember, ⟨before, heq, ?_⟩, fun id hid ↦ ?_⟩
    · rw [hbalance, allQueued_congr fun id hid ↦ hqueued id (hof ?_)]
      rw [heq]
      exact List.mem_append_left _ hid
    · have hid' := hof (heq ▸ List.mem_append_right before hid)
      rw [hqueue id hid', hqueued id hid', hrest id hid]
  apart := h.apart
  finished wave hwave hdrains := by
    rw [h.finished wave hwave hdrains,
      allQueued_congr fun id hid ↦ hqueued id (List.mem_flatten_of_mem hwave hid)]

theorem close (h : Conserves waves called queued queue drains) {wave : List UnitId}
    (hnodup : (wave :: waves).flatten.Nodup) (hkept : ∀ id ∈ wave, queue id = queued id) :
    Conserves (wave :: waves) called queued queue (Drain.opening wave ++ drains) := by
  have hdisjoint {id : UnitId} (hid : id ∈ wave) : id ∉ waves.flatten :=
    List.disjoint_of_nodup_append (List.flatten_cons ▸ hnodup) hid
  have hnone : calledFor called wave = [] :=
    List.filter_eq_nil_iff.mpr fun call hcall ↦ by
      simpa using fun hid ↦ hdisjoint hid (h.closed call hcall)
  have hdrained {drain : Drain ω} (hdrain : drain ∈ drains) : drain.unit ∉ wave := by
    obtain ⟨other, hother, hempties⟩ := h.draining drain hdrain
    exact fun hid ↦ hdisjoint hid (List.mem_flatten_of_mem hother hempties.member)
  refine ⟨fun call hcall ↦ ?_, fun drain hdrain ↦ ?_, ?_, fun other hother hdrains ↦ ?_⟩
  · rw [List.flatten_cons]
    exact List.mem_append_right _ (h.closed call hcall)
  · rcases List.mem_append.mp hdrain with hnew | hold
    · rcases hwave : wave with _ | ⟨first, rest⟩
      all_goals rw [hwave] at hnew hnone
      · cases hnew
      · rw [List.mem_singleton.mp hnew]
        exact ⟨_, List.mem_cons_self, List.mem_cons_self, ⟨[], rfl, by simp [hnone, allQueued]⟩,
          fun id hid ↦ hkept id (hwave ▸ hid)⟩
    · obtain ⟨other, hother, hempties⟩ := h.draining drain hold
      exact ⟨other, List.mem_cons_of_mem _ hother, hempties⟩
  · refine List.pairwise_append.mpr ⟨?_, ?_, fun drain hdrain other hother ↦ ?_⟩
    · rcases wave with _ | ⟨first, rest⟩ <;> simp [Drain.opening]
    · refine h.apart.imp_of_mem fun {drain other} hdrain _ hapart closed hclosed hmember ↦ ?_
      rcases List.mem_cons.mp hclosed with rfl | hclosed
      · exact absurd hmember (hdrained hdrain)
      · exact hapart closed hclosed hmember
    · intro closed hclosed hmember hmember'
      have hunit : drain.unit ∈ wave := by
        rcases hwave : wave with _ | ⟨first, rest⟩
        all_goals rw [hwave] at hdrain
        · cases hdrain
        · rw [List.mem_singleton.mp hdrain]
          exact List.mem_cons_self
      have := wave_unique hnodup hclosed List.mem_cons_self hmember hunit
      exact hdrained hother (this ▸ hmember')
  · rcases List.mem_cons.mp hother with rfl | hother
    · -- a wave that is drained is not finished, unless it has no units
      rcases hwave : other with _ | ⟨first, rest⟩
      · rw [hwave] at hnone
        exact hnone
      · refine absurd List.mem_cons_self (hwave ▸ hdrains ⟨first, [], first :: rest⟩ ?_)
        rw [hwave]
        exact List.mem_cons_self
    · refine h.finished other hother fun drain hdrain ↦ hdrains drain ?_
      exact List.mem_append_right _ hdrain

variable {id next : UnitId} {callback : Callback ω} {callbacks : List (Callback ω)}
  {rest : List UnitId}

/-- The innermost drain may go on within its wave, if the books of the wave stay right and those of
other waves stay as they are. -/
theorem advance (h : Conserves waves called queued queue (⟨id, callbacks, rest⟩ :: drains))
    (hnodup : waves.flatten.Nodup) {called' : List (UnitId × Callback ω)} {drain : Drain ω}
    (hclosed : ∀ call ∈ called', call.1 ∈ waves.flatten)
    (hempties : ∀ wave ∈ waves, Drain.Empties called queued queue ⟨id, callbacks, rest⟩ wave →
      drain.Empties called' queued queue' wave)
    (hcalled : ∀ wave ∈ waves, id ∉ wave → calledFor called' wave = calledFor called wave)
    (hqueue : ∀ wave ∈ waves, id ∉ wave → ∀ id ∈ wave, queue' id = queue id) :
    Conserves waves called' queued queue' (drain :: drains) := by
  obtain ⟨wave, hwave, hold⟩ := h.draining _ List.mem_cons_self
  have hnew := hempties wave hwave hold
  obtain ⟨hfirst, hapart⟩ := List.pairwise_cons.mp h.apart
  refine ⟨hclosed, fun other hother ↦ ?_, ?_, fun other hother hdrains ↦ ?_⟩
  · rcases List.mem_cons.mp hother with rfl | hother
    · exact ⟨wave, hwave, hnew⟩
    · obtain ⟨wave', hwave', hempties'⟩ := h.draining other (List.mem_cons_of_mem _ hother)
      have hid : id ∉ wave' := fun hid ↦ hfirst other hother wave' hwave' hid hempties'.member
      refine ⟨wave', hwave', hempties'.member, ?_, fun id' hid' ↦ ?_⟩
      · rw [hcalled wave' hwave' hid]
        exact hempties'.balance
      · obtain ⟨before, heq, -⟩ := hempties'.balance
        rw [hqueue wave' hwave' hid id' (heq ▸ List.mem_append_right _ hid'),
          hempties'.rest id' hid']
  · refine List.pairwise_cons.mpr ⟨fun other hother wave' hwave' hmember ↦ ?_, hapart⟩
    have := wave_unique hnodup hwave' hwave hmember hnew.member
    exact this ▸ hfirst other hother wave hwave hold.member
  · have hid : id ∉ other := by
      intro hid
      have := wave_unique hnodup hother hwave hid hold.member
      exact hdrains drain List.mem_cons_self (this ▸ hnew.member)
    rw [hcalled other hother hid]
    refine h.finished other hother fun drain' hdrain' ↦ ?_
    rcases List.mem_cons.mp hdrain' with rfl | hdrain'
    · exact hid
    · exact hdrains drain' (List.mem_cons_of_mem _ hdrain')

theorem call (h : Conserves waves called queued queue (⟨id, callback :: callbacks, rest⟩ :: drains))
    (hnodup : waves.flatten.Nodup) :
    Conserves waves (called ++ [(id, callback)]) queued queue
      (⟨id, callbacks, rest⟩ :: drains) := by
  obtain ⟨wave, hwave, hmember, -, -⟩ := h.draining _ List.mem_cons_self
  refine h.advance hnodup ?_ (fun wave _ hempties ↦ ?_) (fun wave _ hid ↦ ?_) fun _ _ _ _ _ ↦ rfl
  · refine List.forall_mem_append.mpr ⟨h.closed, ?_⟩
    simpa using ⟨wave, hwave, hmember⟩
  · obtain ⟨hmember, ⟨before, heq, hbalance⟩, hrest⟩ := hempties
    refine ⟨hmember, ⟨before, heq, ?_⟩, hrest⟩
    rw [← hbalance, calledFor, List.filter_append, List.filter_cons_of_pos (by simpa using hmember)]
    simp [calledFor]
  · rw [calledFor, List.filter_append, List.filter_cons_of_neg (by simpa using hid)]
    simp [calledFor]

theorem take (h : Conserves waves called queued queue (⟨id, [], next :: rest⟩ :: drains))
    (hnodup : waves.flatten.Nodup) (hother : ∀ other, other ≠ next → queue' other = queue other) :
    Conserves waves called queued queue' (⟨next, queue next, rest⟩ :: drains) := by
  obtain ⟨wave, hwave, hmember, ⟨before, heq, -⟩, -⟩ := h.draining _ List.mem_cons_self
  have hnext : next ∈ wave := heq ▸ List.mem_append_right _ List.mem_cons_self
  refine h.advance hnodup h.closed (fun wave hwave hempties ↦ ?_) (fun _ _ _ ↦ rfl)
    fun wave' hwave' hid id' hid' ↦ hother id' ?_
  · obtain ⟨hmember, ⟨before, heq, hbalance⟩, hrest⟩ := hempties
    have hwaveNodup := (List.nodup_flatten.mp hnodup).1 wave hwave
    rw [heq, List.nodup_append, List.nodup_cons] at hwaveNodup
    refine ⟨heq ▸ List.mem_append_right _ List.mem_cons_self, ⟨before ++ [next], by simp [heq], ?_⟩,
      fun id hid ↦ ?_⟩
    · rw [List.map_nil, List.append_nil] at hbalance
      rw [hbalance, hrest next List.mem_cons_self]
      simp [allQueued]
    · rw [hother id fun hid' ↦ hwaveNodup.2.1.1 (hid' ▸ hid),
        hrest id (List.mem_cons_of_mem _ hid)]
  · rintro rfl
    exact hid (wave_unique hnodup hwave' hwave hid' hnext ▸ hmember)

theorem finish (h : Conserves waves called queued queue (⟨id, [], []⟩ :: drains))
    (hnodup : waves.flatten.Nodup) : Conserves waves called queued queue drains := by
  obtain ⟨wave, hwave, hmember, ⟨before, heq, hbalance⟩, -⟩ := h.draining _ List.mem_cons_self
  refine ⟨h.closed, fun drain hdrain ↦ h.draining drain (List.mem_cons_of_mem _ hdrain),
    (List.pairwise_cons.mp h.apart).2, fun other hother hdrains ↦ ?_⟩
  by_cases hid : id ∈ other
  · rw [wave_unique hnodup hother hwave hid hmember]
    rw [List.append_nil] at heq
    rw [List.map_nil, List.append_nil, ← heq] at hbalance
    exact hbalance
  · refine h.finished other hother fun drain hdrain ↦ ?_
    rcases List.mem_cons.mp hdrain with rfl | hdrain
    · exact hid
    · exact hdrains drain hdrain

/-- What has been called for a closed wave is the first part of what came to wait for it. -/
theorem ordered (h : Conserves waves called queued queue drains) {wave : List UnitId}
    (hwave : wave ∈ waves) (hnodup : waves.flatten.Nodup) :
    calledFor called wave <+: allQueued queued wave := by
  by_cases hdrains : ∀ drain ∈ drains, drain.unit ∉ wave
  · exact (h.finished wave hwave hdrains) ▸ List.prefix_refl _
  · push Not at hdrains
    obtain ⟨drain, hdrain, hunit⟩ := hdrains
    obtain ⟨other, hother, hmember, ⟨before, heq, hbalance⟩, -⟩ := h.draining drain hdrain
    rw [wave_unique hnodup hwave hother hunit hmember]
    have hcalled : calledFor called other <+: allQueued queued before :=
      ⟨_, hbalance⟩
    refine hcalled.trans ?_
    rw [heq, allQueued, allQueued, List.flatMap_append]
    exact List.prefix_append _ _

end Conserves

end ScriptLoader
