import ScriptLoader.Proofs.Balance
import ScriptLoader.Proofs.Journal

/-!
# What the tables of a loader can be trusted in

A reference that has been asked for is skipped from then on. This is right only if it has led to a
loaded unit, or will have when the wave is over. The journal and the tables of a loader agree on
which of these is the case: a key that was asked for is lost, or belongs to the active wave, or led
to a unit that is loaded or stranded. A loaded unit has no references of the second kind.

Most changes do not touch any of this. They are *inert*; the few that are not are looked at one by
one.
-/

namespace ScriptLoader

variable {ω χ : Type}

/-- Two units differ in their callbacks at most. -/
structure Standing.Agrees (s s' : Standing ω) : Prop where
  url : s'.url = s.url
  directory : s'.directory = s.directory
  dependencies : s'.dependencies = s.dependencies
  status : s'.status = s.status

namespace Standing.Agrees

variable {s s' : Standing ω}

theorem refl (s : Standing ω) : s.Agrees s := ⟨rfl, rfl, rfl, rfl⟩

theorem key (h : s.Agrees s') (r : Reference) : s'.key r = s.key r := by
  rw [Standing.key, h.directory, Standing.key]

end Standing.Agrees

namespace Loader

open Journal

/-- A unit is loaded, or stranded and so never will be. -/
def Done (l : Loader ω χ) (id : UnitId) : Prop := l.isLoaded id = true ∨ Stranded l.journal id

/-- A key led to a unit that is done. -/
def Led (l : Loader ω χ) (key : String) : Prop :=
  ∃ id, l.cache.result? key = some id ∧ l.Done id

/-- The tables, the units and the journal of a loader agree. -/
structure Traced (l : Loader ω χ) : Prop where
  marked : ∀ {key}, key ∈ l.cache.markers → .searched key ∈ l.journal
  found : ∀ {key id}, l.cache.result? key = some id →
    ∃ url, .found key url ∈ l.journal ∧ l.cache.unit? url = some id
  waiting : ∀ {id s}, l.standing? id = some s → s.status = .loading →
    Stranded l.journal id ∨ .joined id ∈ active l.journal
  roster : ∀ {id}, .joined id ∈ active l.journal → ∃ wave, l.wave = some wave ∧
    id ∈ wave.participants
  idle : l.wave = none → ∀ {key}, .searched key ∉ active l.journal
  asked : ∀ {key}, .searched key ∈ l.journal →
    Lost l.journal key ∨ .searched key ∈ active l.journal ∨ l.Led key
  closed : ∀ {id s}, l.standing? id = some s → s.status = .loaded → ∀ r ∈ s.dependencies,
    .searched (s.key r) ∈ l.journal ∧ (Lost l.journal (s.key r) ∨ l.Led (s.key r))

/-! ## What is never lost -/

/-- Results stay, loaded units stay loaded, and the journal grows. -/
structure Upholds (l l' : Loader ω χ) : Prop where
  logs : l.journal <:+ l'.journal
  results : ∀ {key id}, l.cache.result? key = some id → l'.cache.result? key = some id
  loaded : ∀ {id}, l.isLoaded id = true → l'.isLoaded id = true

namespace Upholds

variable {l l' : Loader ω χ} {key : String}

theorem done (h : l.Upholds l') {id : UnitId} (hdone : l.Done id) : l'.Done id :=
  hdone.imp h.loaded fun hstranded ↦ hstranded.mono h.logs

theorem led (h : l.Upholds l') (hled : l.Led key) : l'.Led key := by
  obtain ⟨id, hresult, hdone⟩ := hled
  exact ⟨id, h.results hresult, h.done hdone⟩

theorem settled (h : l.Upholds l') (hkey : Lost l.journal key ∨ l.Led key) :
    Lost l'.journal key ∨ l'.Led key :=
  hkey.imp (fun hlost ↦ hlost.mono h.logs) h.led

end Upholds

/-! ## Inert changes -/

/-- A change that touches nothing that the journal tells of waves. -/
structure Inert (l l' : Loader ω χ) : Prop where
  participants : l'.wave.map (·.participants) = l.wave.map (·.participants)
  results : l'.cache.results = l.cache.results
  markers : l'.cache.markers = l.cache.markers
  kept : ∀ {id s}, l.standing? id = some s → ∃ s', l'.standing? id = some s' ∧ s.Agrees s'
  fresh : ∀ {id s'}, l'.standing? id = some s' →
    (∃ s, l.standing? id = some s ∧ s.Agrees s') ∨ s'.IsNew
  filed : ∀ {url id}, l.cache.unit? url = some id → l'.cache.unit? url = some id
  journal : ∃ events, l'.journal = events ++ l.journal ∧ ∀ e ∈ events, e.concernsWaves = false

namespace Inert

variable {l l' l'' : Loader ω χ}

theorem of_same (hwave : l'.wave.map (·.participants) = l.wave.map (·.participants))
    (hunits : l'.units = l.units) (hcache : l'.cache = l.cache)
    (hjournal : ∃ events, l'.journal = events ++ l.journal ∧
      ∀ e ∈ events, e.concernsWaves = false) : l.Inert l' where
  participants := hwave
  results := by rw [hcache]
  markers := by rw [hcache]
  kept hs := ⟨_, (standing?_congr hunits _).trans hs, .refl _⟩
  fresh hs := .inl ⟨_, (standing?_congr hunits _).symm.trans hs, .refl _⟩
  filed h := hcache ▸ h
  journal := hjournal

theorem record (l : Loader ω χ) {e : Event} (h : e.concernsWaves = false) : l.Inert (l.record e) :=
  .of_same rfl rfl rfl ⟨[e], rfl, by simpa using h⟩

theorem of_quiet (h : l.Quiet l') : l.Inert l' where
  participants := by rw [h.wave]
  results := h.results
  markers := h.markers
  kept hs := ⟨_, h.known hs, .refl _⟩
  fresh hs := (h.fresh hs).imp (fun hs ↦ ⟨_, hs, .refl _⟩) And.right
  filed := h.filed
  journal := by
    obtain ⟨events, heq, hquiet⟩ := h.journal
    exact ⟨events, heq, fun e he ↦ Event.not_concernsWaves (hquiet e he)⟩

theorem modifyCallbacks (l : Loader ω χ) (id : UnitId)
    (change : List (Callback ω) → List (Callback ω)) :
    l.Inert (l.modifyUnit id fun unit ↦ { unit with callbacks := change unit.callbacks }) where
  participants := rfl
  results := rfl
  markers := rfl
  kept {other s} hs := by
    rw [standing?_modifyCallbacks, hs]
    exact ⟨_, rfl, by split <;> exact ⟨rfl, rfl, rfl, rfl⟩⟩
  fresh {other s'} hs := by
    rw [standing?_modifyCallbacks, Option.map_eq_some_iff] at hs
    obtain ⟨s, hs, rfl⟩ := hs
    exact .inl ⟨s, hs, by split <;> exact ⟨rfl, rfl, rfl, rfl⟩⟩
  filed h := h
  journal := ⟨[], rfl, by simp⟩

theorem settle {wave : Wave} (h : l.wave = some wave) : l.Inert (l.settle wave) :=
  .of_same (by rw [h]; rfl) rfl rfl ⟨[.settled (some wave.outstanding)], rfl, by
    simp [Event.concernsWaves]⟩

theorem enlist (l : Loader ω χ) (world : ω) (request : Request) (lookup : Lookup ω) :
    l.Inert (l.enlist world request lookup) :=
  .of_same rfl rfl rfl ⟨[.lookedUp lookup.key request lookup.purpose.isImport], rfl, by
    simp [Event.concernsWaves]⟩

theorem noteFound (l : Loader ω χ) (world : ω) (key : String)
    (answer : Except LoaderError (Option Resource)) :
    l.Inert ({ l with world }.noteFound key answer) := by
  obtain ⟨events, heq, hevents⟩ := { l with world }.noteFound_eq key answer
  rw [heq]
  refine .of_same rfl rfl rfl ⟨events, rfl, fun e he ↦ ?_⟩
  obtain ⟨resource, -, rfl⟩ := hevents e he
  rfl

theorem logs (h : l.Inert l') : l.journal <:+ l'.journal := by
  obtain ⟨events, heq, -⟩ := h.journal
  exact ⟨events, heq.symm⟩

theorem isLoaded (h : l.Inert l') {id : UnitId} (hloaded : l.isLoaded id = true) :
    l'.isLoaded id = true := by
  obtain ⟨s, hs, hstatus⟩ := isLoaded_iff.mp hloaded
  obtain ⟨s', hs', hagrees⟩ := h.kept hs
  exact isLoaded_iff.mpr ⟨s', hs', hagrees.status.trans hstatus⟩

theorem upholds (h : l.Inert l') : l.Upholds l' where
  logs := h.logs
  results hresult := by rw [ResolutionCache.result?, h.results]; exact hresult
  loaded := h.isLoaded

theorem keeps (h : l.Inert l') : l.Keeps l' := by
  intro id s hs
  obtain ⟨s', hs', hagrees⟩ := h.kept hs
  exact ⟨s', hs', hagrees.url, hagrees.directory, hagrees.dependencies⟩

theorem mem_active_iff (h : l.Inert l') {e : Event} (he : e.concernsWaves = true) :
    e ∈ active l'.journal ↔ e ∈ active l.journal := by
  obtain ⟨events, heq, hevents⟩ := h.journal
  rw [heq, mem_active_append_iff hevents he]

theorem mem_journal_iff (h : l.Inert l') {e : Event} (he : e.concernsWaves = true) :
    e ∈ l'.journal ↔ e ∈ l.journal := by
  obtain ⟨events, heq, hevents⟩ := h.journal
  rw [heq, mem_append_iff hevents he]

/-- What a loader can be trusted in survives an inert change. -/
theorem traced (h : l.Inert l') (ht : l.Traced) : l'.Traced where
  marked hkey := h.logs.subset (ht.marked (h.markers ▸ hkey))
  found hresult := by
    rw [ResolutionCache.result?, h.results] at hresult
    obtain ⟨url, hfound, hfiled⟩ := ht.found hresult
    exact ⟨url, h.logs.subset hfound, h.filed hfiled⟩
  waiting {id s'} hs hstatus := by
    rcases h.fresh hs with ⟨s, hs, hagrees⟩ | hnew
    · exact (ht.waiting hs (hagrees.status.symm.trans hstatus)).imp
        (fun hstranded ↦ hstranded.mono h.logs) (h.mem_active_iff rfl).mpr
    · exact absurd hstatus hnew.not_loading
  roster {id} hjoined := by
    obtain ⟨wave, hwave, hmem⟩ := ht.roster ((h.mem_active_iff rfl).mp hjoined)
    have hparticipants := h.participants
    rw [hwave, Option.map_some, Option.map_eq_some_iff] at hparticipants
    obtain ⟨wave', hwave', heq⟩ := hparticipants
    exact ⟨wave', hwave', heq ▸ hmem⟩
  idle hwave key hsearched := by
    have hparticipants := h.participants
    rw [hwave, Option.map_none, eq_comm, Option.map_eq_none_iff] at hparticipants
    exact ht.idle hparticipants ((h.mem_active_iff rfl).mp hsearched)
  asked hsearched := by
    rcases ht.asked ((h.mem_journal_iff rfl).mp hsearched) with hlost | hactive | hled
    · exact .inl (hlost.mono h.logs)
    · exact .inr (.inl ((h.mem_active_iff rfl).mpr hactive))
    · exact .inr (.inr (h.upholds.led hled))
  closed {id s'} hs hstatus r hr := by
    rcases h.fresh hs with ⟨s, hs, hagrees⟩ | hnew
    · obtain ⟨hsearched, hkey⟩ :=
        ht.closed hs (hagrees.status.symm.trans hstatus) r (hagrees.dependencies ▸ hr)
      rw [hagrees.key]
      exact ⟨h.logs.subset hsearched, h.upholds.settled hkey⟩
    · rw [hnew.dependencies_eq_nil hstatus] at hr
      cases hr

end Inert

end Loader

/-! ## The active wave -/

namespace Stack

/-- A frame has still to visit a reference of a unit. -/
def Owes (stack : List (Frame ω χ)) (id : UnitId) (r : Reference) : Prop :=
  ∃ searcher rest, .dispatching id searcher rest ∈ stack ∧ r ∈ rest

variable {stack : List (Frame ω χ)} {id : UnitId} {r : Reference}

theorem Owes.append (h : Owes stack id r) (pushed : List (Frame ω χ)) :
    Owes (pushed ++ stack) id r := by
  obtain ⟨searcher, rest, hmem, hr⟩ := h
  exact ⟨searcher, rest, List.mem_append_right _ hmem, hr⟩

theorem Owes.of_cons {frame : Frame ω χ} (h : Owes (frame :: stack) id r) :
    (∃ searcher rest, frame = .dispatching id searcher rest ∧ r ∈ rest) ∨ Owes stack id r := by
  obtain ⟨searcher, rest, hmem, hr⟩ := h
  rcases List.mem_cons.mp hmem with rfl | hmem
  · exact .inl ⟨searcher, rest, rfl, hr⟩
  · exact .inr ⟨searcher, rest, hmem, hr⟩

theorem not_owes (h : owed stack = 0) : ¬Owes stack id r := by
  rintro ⟨searcher, rest, hmem, hr⟩
  rw [owed, List.sum_eq_zero_iff_forall_eq_nat] at h
  have hzero := h _ (List.mem_map_of_mem hmem)
  rw [Frame.owed, List.length_eq_zero_iff] at hzero
  rw [hzero] at hr
  cases hr

end Stack

namespace Loader

open Journal Stack

/-- A lookup of a key is under way for the wave, or the key is in hand. -/
def UnderWay (l : Loader ω χ) (inHand : Option String) (key : String) : Prop :=
  inHand = some key ∨ ∃ lookup ∈ l.lookups, lookup.purpose.isImport = false ∧ lookup.key = key

/-- What the active wave has asked for is accounted for, and the units that have joined it are
visited. -/
structure Tracks (inHand : Option String) (l : Loader ω χ) (stack : List (Frame ω χ)) : Prop where
  pending : ∀ {key}, .searched key ∈ active l.journal →
    Lost l.journal key ∨ l.UnderWay inHand key ∨
      ∃ id, l.cache.result? key = some id ∧ (l.Done id ∨ .joined id ∈ active l.journal)
  visited : ∀ {wave}, l.wave = some wave → ∀ id ∈ wave.participants,
    ∃ s, l.standing? id = some s ∧ ∀ r ∈ s.dependencies,
      .searched (s.key r) ∈ l.journal ∨ Owes stack id r

/-- Without a wave there is nothing to account for. -/
theorem Traced.tracks {l : Loader ω χ} (h : l.Traced) (hwave : l.wave = none)
    (inHand : Option String) (stack : List (Frame ω χ)) : Tracks inHand l stack where
  pending hsearched := absurd hsearched (h.idle hwave)
  visited hsome := by rw [hwave] at hsome; cases hsome

/-- Units and keys stay accounted for under an inert change, as long as no lookup is taken away. -/
theorem Tracks.inert {inHand inHand' : Option String} {l l' : Loader ω χ}
    {stack stack' : List (Frame ω χ)} (h : Tracks inHand l stack) (hi : l.Inert l')
    (hway : ∀ key, l.UnderWay inHand key → l'.UnderWay inHand' key)
    (howes : ∀ id r, Owes stack id r → Owes stack' id r) : Tracks inHand' l' stack' where
  pending hsearched := by
    rcases h.pending ((hi.mem_active_iff rfl).mp hsearched) with hlost | hunder | hresult
    · exact .inl (hlost.mono hi.logs)
    · exact .inr (.inl (hway _ hunder))
    · obtain ⟨id, hid, hdone⟩ := hresult
      exact .inr (.inr ⟨id, hi.upholds.results hid,
        hdone.imp hi.upholds.done (hi.mem_active_iff rfl).mpr⟩)
  visited hwave id hid := by
    have hparticipants := hi.participants
    rw [hwave, Option.map_some, eq_comm, Option.map_eq_some_iff] at hparticipants
    obtain ⟨wave, hold, heq⟩ := hparticipants
    obtain ⟨s, hs, hvisited⟩ := h.visited hold id (heq ▸ hid)
    obtain ⟨s', hs', hagrees⟩ := hi.kept hs
    refine ⟨s', hs', fun r hr ↦ ?_⟩
    rw [hagrees.key]
    exact (hvisited r (hagrees.dependencies ▸ hr)).imp (fun hmem ↦ hi.logs.subset hmem) (howes id r)

end Loader

end ScriptLoader
