import ScriptLoader.Proofs.Trace

/-!
# Changes that leave a trace

Joining a wave, closing it, asking for a reference, finding a result, dropping and forgetting: these
are the changes that the journal tells of. Each keeps the tables and the journal of a loader in
agreement, and what the active wave has asked for accounted for. Closing is the one that relies on
the account: with no lookup under way and no reference to visit, every key that the wave has asked
for has led to a unit, which is loaded or loaded now.
-/

namespace ScriptLoader

variable {ω χ : Type}

namespace Loader

open Journal Stack

variable {l : Loader ω χ} {wave : Wave} {id : UnitId} {s : Standing ω} {inHand : Option String}
  {stack : List (Frame ω χ)}

/-! ## Joining -/

theorem isLoaded_enroll (hs : l.standing? id = some s) (hunloaded : s.status = .unloaded)
    {other : UnitId} (hloaded : l.isLoaded other = true) :
    (l.enroll wave id s.dependencies).isLoaded other = true := by
  obtain ⟨s', hs', hstatus⟩ := isLoaded_iff.mp hloaded
  refine isLoaded_iff.mpr ⟨s', ?_, hstatus⟩
  rw [standing?_enroll, hs', Option.map_some, if_neg]
  rintro rfl
  rw [hs'] at hs
  cases hs
  rw [hstatus] at hunloaded
  cases hunloaded

theorem upholds_enroll (hs : l.standing? id = some s) (hunloaded : s.status = .unloaded) :
    l.Upholds (l.enroll wave id s.dependencies) where
  logs := List.suffix_cons _ _
  results h := h
  loaded := isLoaded_enroll hs hunloaded

theorem Traced.enroll (h : l.Traced) (hwave : l.wave = some wave) (hs : l.standing? id = some s)
    (hunloaded : s.status = .unloaded) : (l.enroll wave id s.dependencies).Traced where
  marked hkey := List.mem_cons_of_mem _ (h.marked hkey)
  found hresult := by
    obtain ⟨url, hfound, hfiled⟩ := h.found hresult
    exact ⟨url, List.mem_cons_of_mem _ hfound, hfiled⟩
  waiting {other s'} hs' hstatus := by
    rw [standing?_enroll, Option.map_eq_some_iff] at hs'
    obtain ⟨s'', hs'', rfl⟩ := hs'
    -- the unit that joins is the only one that has begun to wait
    by_cases hid : id = other
    · exact .inr (hid ▸ List.mem_cons_self)
    · rw [if_neg hid] at hstatus
      exact (h.waiting hs'' hstatus).imp_right (List.mem_cons_of_mem _)
  roster {other} hjoined := by
    refine ⟨_, rfl, ?_⟩
    rcases List.mem_cons.mp hjoined with heq | hjoined
    · cases heq
      exact List.mem_append_right _ (List.mem_singleton_self _)
    · obtain ⟨wave', hwave', hmem⟩ := h.roster hjoined
      rw [hwave] at hwave'
      cases hwave'
      exact List.mem_append_left _ hmem
  idle hnone := by cases hnone
  asked {key} hsearched := by
    have hsearched : .searched key ∈ l.journal := by simpa using hsearched
    rcases h.asked hsearched with hlost | hactive | hled
    · exact .inl hlost
    · exact .inr (.inl (List.mem_cons_of_mem _ hactive))
    · exact .inr (.inr ((upholds_enroll hs hunloaded).led hled))
  closed {other s'} hs' hstatus r hr := by
    rw [standing?_enroll, Option.map_eq_some_iff] at hs'
    obtain ⟨s'', hs'', rfl⟩ := hs'
    by_cases hid : id = other
    -- it is not loaded, so nothing is said of its references
    · rw [if_pos hid] at hstatus
      cases hstatus
    · rw [if_neg hid] at hstatus hr ⊢
      obtain ⟨hsearched, hkey⟩ := h.closed hs'' hstatus r hr
      exact ⟨List.mem_cons_of_mem _ hsearched, (upholds_enroll hs hunloaded).settled hkey⟩

/-- The key in hand has led to the unit that joins, so it is not in hand any more. -/
theorem Tracks.enroll (h : Tracks inHand l stack) (hwave : l.wave = some wave)
    (hs : l.standing? id = some s) (hunloaded : s.status = .unloaded)
    (hhand : ∀ key, inHand = some key → l.cache.result? key = some id) (searcher : Operation) :
    Tracks none (l.enroll wave id s.dependencies)
      (.dispatching id searcher s.dependencies :: stack) where
  pending {key} hsearched := by
    rcases List.mem_cons.mp hsearched with heq | hsearched
    · cases heq
    rcases h.pending hsearched with hlost | (hinHand | hlookup) | ⟨other, hother, hdone⟩
    · exact .inl hlost
    · exact .inr (.inr ⟨id, hhand key hinHand, .inr List.mem_cons_self⟩)
    · exact .inr (.inl (.inr hlookup))
    · exact .inr (.inr ⟨other, hother,
        hdone.imp (upholds_enroll hs hunloaded).done (List.mem_cons_of_mem _)⟩)
  visited {wave'} hwave' other hother := by
    cases hwave'
    rcases List.mem_append.mp hother with hother | hother
    · obtain ⟨s', hs', hvisited⟩ := h.visited hwave other hother
      obtain ⟨s'', hs'', -, hdirectory, hdependencies⟩ := keeps_enroll l wave id s.dependencies hs'
      refine ⟨s'', hs'', fun r hr ↦ ?_⟩
      rw [Standing.key, hdirectory]
      exact (hvisited r (hdependencies ▸ hr)).imp (fun hmem ↦ List.mem_cons_of_mem _ hmem)
        fun howes ↦ howes.append [_]
    · cases List.mem_singleton.mp hother
      obtain ⟨s', hs', -, -, hdependencies⟩ := keeps_enroll l wave id s.dependencies hs
      exact ⟨s', hs', fun r hr ↦ .inr ⟨searcher, s.dependencies, List.mem_cons_self,
        hdependencies ▸ hr⟩⟩

/-! ## Closing -/

theorem isLoaded_close {other : UnitId} (hloaded : l.isLoaded other = true) :
    (l.close wave).isLoaded other = true := by
  obtain ⟨s', hs', hstatus⟩ := isLoaded_iff.mp hloaded
  rw [isLoaded_iff, standing?_close, hs']
  refine ⟨_, rfl, ?_⟩
  split
  · rfl
  · exact hstatus

theorem upholds_close (l : Loader ω χ) (wave : Wave) : l.Upholds (l.close wave) where
  logs := by rw [journal_close]; exact List.suffix_cons _ _
  results h := by rw [cache_close]; exact h
  loaded := isLoaded_close

/-- The units that have joined the wave are loaded when it is closed. -/
theorem isLoaded_close_of_joined (h : l.Traced) (ht : Tracks inHand l stack)
    (hwave : l.wave = some wave) (hjoined : .joined id ∈ active l.journal) :
    (l.close wave).isLoaded id = true := by
  obtain ⟨wave', hwave', hmem⟩ := h.roster hjoined
  rw [hwave] at hwave'
  cases hwave'
  obtain ⟨s, hs, -⟩ := ht.visited hwave id hmem
  refine isLoaded_iff.mpr ⟨{ s with status := .loaded }, ?_, rfl⟩
  rw [standing?_close, hs, Option.map_some, if_pos hmem]

/-- When no lookup is under way for a wave, a key that it asked for has led to a unit that is loaded
once the wave is closed. -/
theorem settled_close (h : l.Traced) (ht : Tracks none l stack) (hwave : l.wave = some wave)
    (hlookups : l.waveLookups = 0) {key : String} (hsearched : .searched key ∈ l.journal) :
    Lost (l.close wave).journal key ∨ (l.close wave).Led key := by
  have hups := l.upholds_close wave
  rcases h.asked hsearched with hlost | hactive | hled
  · exact .inl (hlost.mono hups.logs)
  · rcases ht.pending hactive with hlost | (hnone | ⟨lookup, hmem, hpurpose, -⟩) | ⟨id, hid, hdone⟩
    · exact .inl (hlost.mono hups.logs)
    · cases hnone
    -- the key cannot still be looked up for the wave, which has no lookups left
    · rw [waveLookups, List.countP_eq_zero] at hlookups
      exact absurd (by rw [hpurpose]; rfl) (hlookups lookup hmem)
    · exact .inr ⟨id, hups.results hid, hdone.elim hups.done fun hjoined ↦
        .inl (isLoaded_close_of_joined h ht hwave hjoined)⟩
  · exact .inr (hups.led hled)

/-- All references of the units of a wave have been settled when it is closed, so they may count as
loaded. -/
theorem Traced.close (h : l.Traced) (ht : Tracks none l stack) (hwave : l.wave = some wave)
    (hlookups : l.waveLookups = 0) (hidle : owed stack = 0) : (l.close wave).Traced where
  marked {key} hkey := by
    rw [cache_close] at hkey
    exact (l.upholds_close wave).logs.subset (h.marked hkey)
  found {key id} hresult := by
    rw [cache_close] at hresult ⊢
    obtain ⟨url, hfound, hfiled⟩ := h.found hresult
    exact ⟨url, (l.upholds_close wave).logs.subset hfound, hfiled⟩
  waiting {id s'} hs' hstatus := by
    rw [standing?_close, Option.map_eq_some_iff] at hs'
    obtain ⟨s, hs, rfl⟩ := hs'
    -- a unit that still waits was not in the wave, so an earlier wave has left it behind
    split at hstatus
    case isTrue => cases hstatus
    case isFalse hmem =>
      rcases h.waiting hs hstatus with hstranded | hjoined
      · exact .inl (hstranded.mono (l.upholds_close wave).logs)
      · obtain ⟨wave', hwave', hmem'⟩ := h.roster hjoined
        rw [hwave] at hwave'
        cases hwave'
        exact absurd hmem' hmem
  roster {id} hjoined := by
    rw [journal_close, active_cons_of_ends rfl] at hjoined
    cases hjoined
  idle _ key hsearched := by
    rw [journal_close, active_cons_of_ends rfl] at hsearched
    cases hsearched
  asked {key} hsearched := by
    have hold : .searched key ∈ l.journal := by simpa using hsearched
    exact (settled_close h ht hwave hlookups hold).imp_right .inr
  closed {id s'} hs' hstatus r hr := by
    rw [standing?_close, Option.map_eq_some_iff] at hs'
    obtain ⟨s, hs, rfl⟩ := hs'
    -- all references of a unit of the wave have been visited, since no frame owes any
    have hsearched : .searched (s.key r) ∈ l.journal := by
      by_cases hmem : id ∈ wave.participants
      · rw [if_pos hmem] at hr
        obtain ⟨s', hs', hvisited⟩ := ht.visited hwave id hmem
        rw [hs] at hs'
        cases hs'
        exact (hvisited r hr).resolve_right (not_owes hidle)
      · rw [if_neg hmem] at hr hstatus
        exact (h.closed hs hstatus r hr).1
    have hkey : (if id ∈ wave.participants then { s with status := .loaded } else s).key r
        = s.key r := by split <;> rfl
    rw [hkey]
    exact ⟨(l.upholds_close wave).logs.subset hsearched,
      settled_close h ht hwave hlookups hsearched⟩

/-! ## Beginning -/

theorem Traced.beginWave (h : l.Traced) (hnone : l.wave = none) (id : UnitId)
    (callback : Option (Callback ω)) : (l.beginWave id callback).Traced := by
  have hawait := (Inert.modifyCallbacks l id (· ++ callback.toList)).traced h
  exact { hawait with
    roster := fun hjoined ↦ by
      obtain ⟨wave, hwave, -⟩ := h.roster hjoined
      rw [hnone] at hwave
      cases hwave
    idle := fun hwave ↦ by cases hwave }

/-- Nothing has been done yet for a wave that is begun. -/
theorem Traced.tracks_beginWave (h : l.Traced) (hnone : l.wave = none) (id : UnitId)
    (callback : Option (Callback ω)) (stack : List (Frame ω χ)) :
    Tracks none (l.beginWave id callback) stack where
  pending hsearched := absurd hsearched (h.idle hnone)
  visited hwave id hid := by cases hwave; cases hid

/-! ## Asking -/

theorem upholds_ask (l : Loader ω χ) (key : String) : l.Upholds (l.ask key) where
  logs := List.suffix_cons _ _
  results h := (ResolutionCache.result?_mark _ _ _).trans h
  loaded h := h

theorem Traced.ask (h : l.Traced) (hwave : l.wave = some wave) (key : String) :
    (l.ask key).Traced where
  marked {other} hkey := by
    rcases (l.cache.mem_markers_mark key other).mp hkey with rfl | hkey
    · exact List.mem_cons_self
    · exact List.mem_cons_of_mem _ (h.marked hkey)
  found {other id} hresult := by
    obtain ⟨url, hfound, hfiled⟩ := h.found ((l.cache.result?_mark key other).symm.trans hresult)
    exact ⟨url, List.mem_cons_of_mem _ hfound, (l.cache.unit?_mark key url).trans hfiled⟩
  waiting hs hstatus := (h.waiting hs hstatus).imp_right (List.mem_cons_of_mem _)
  roster hjoined := by
    rcases List.mem_cons.mp hjoined with heq | hjoined
    · cases heq
    · exact h.roster hjoined
  idle hnone := by
    have hsome : (l.ask key).wave = some wave := hwave
    rw [hsome] at hnone
    cases hnone
  asked {other} hsearched := by
    rcases List.mem_cons.mp hsearched with heq | hsearched
    · cases heq
      exact .inr (.inl List.mem_cons_self)
    · rcases h.asked hsearched with hlost | hactive | hled
      · exact .inl hlost
      · exact .inr (.inl (List.mem_cons_of_mem _ hactive))
      · exact .inr (.inr ((l.upholds_ask key).led hled))
  closed hs hstatus r hr := by
    obtain ⟨hsearched, hkey⟩ := h.closed hs hstatus r hr
    exact ⟨List.mem_cons_of_mem _ hsearched, (l.upholds_ask key).settled hkey⟩

/-- A reference of a unit has been visited when its key has been asked for. -/
theorem Tracks.visit {searcher : Operation} {reference : Reference} {rest : List Reference}
    (h : Tracks none l (.dispatching id searcher (reference :: rest) :: stack))
    (hdeclares : l.Declares id searcher (reference :: rest)) (events : List Event)
    (hsearched : .searched (reference.key searcher.context.text) ∈ events ++ l.journal)
    {wave : Wave} (hwave : l.wave = some wave) {other : UnitId}
    (hother : other ∈ wave.participants) :
    ∃ s, l.standing? other = some s ∧ ∀ r ∈ s.dependencies,
      .searched (s.key r) ∈ events ++ l.journal ∨
        Owes (.dispatching id searcher rest :: stack) other r := by
  obtain ⟨s, hs, hvisited⟩ := h.visited hwave other hother
  refine ⟨s, hs, fun r hr ↦ (hvisited r hr).elim (fun hmem ↦ .inl (List.mem_append_right _ hmem))
    fun howes ↦ ?_⟩
  rcases howes.of_cons with ⟨_, _, heq, hmem⟩ | howes
  · cases heq
    rcases List.mem_cons.mp hmem with rfl | hmem
    · obtain ⟨s', hs', -, hcontext⟩ := hdeclares
      rw [hs] at hs'
      cases hs'
      rw [Standing.key, ← hcontext]
      exact .inl hsearched
    · exact .inr ⟨searcher, rest, List.mem_cons_self, hmem⟩
  · exact .inr (howes.append [_])

/-! ## Results -/

/-- A result is not changed by another lookup of its key, if all of them find the same file. -/
theorem result?_insertResult_of_consistent (h : l.Traced) (hconsistent : Consistent l.journal)
    {key : String} {url : Url} (hfound : .found key url ∈ l.journal)
    (hfiled : l.cache.unit? url = some id) {other : String} {id' : UnitId}
    (hresult : l.cache.result? other = some id') :
    (l.cache.insertResult key id).result? other = some id' := by
  rw [ResolutionCache.result?_insertResult]
  split
  case isTrue heq =>
    subst heq
    obtain ⟨url', hfound', hfiled'⟩ := h.found hresult
    rw [hconsistent hfound' hfound, hfiled] at hfiled'
    exact hfiled'
  case isFalse => exact hresult

theorem upholds_insertResult (h : l.Traced) (hconsistent : Consistent l.journal) {key : String}
    {url : Url} (hfound : .found key url ∈ l.journal) (hfiled : l.cache.unit? url = some id) :
    l.Upholds { l with cache := l.cache.insertResult key id } where
  logs := List.suffix_refl _
  results := result?_insertResult_of_consistent h hconsistent hfound hfiled
  loaded h := h

theorem Traced.insertResult (h : l.Traced) (hconsistent : Consistent l.journal) {key : String}
    {url : Url} (hfound : .found key url ∈ l.journal) (hfiled : l.cache.unit? url = some id) :
    ({ l with cache := l.cache.insertResult key id } : Loader ω χ).Traced := by
  have hups := upholds_insertResult h hconsistent hfound hfiled
  refine ⟨h.marked, fun {other id'} hresult ↦ ?_, h.waiting, h.roster, h.idle,
    fun hsearched ↦ (h.asked hsearched).imp_right (Or.imp_right hups.led),
    fun hs hstatus r hr ↦ ?_⟩
  · rw [ResolutionCache.result?_insertResult] at hresult
    split at hresult
    case isTrue heq =>
      cases hresult
      exact ⟨url, heq ▸ hfound, hfiled⟩
    case isFalse => exact h.found hresult
  · obtain ⟨hsearched, hkey⟩ := h.closed hs hstatus r hr
    exact ⟨hsearched, hups.settled hkey⟩

theorem Tracks.insertResult (h : l.Traced) (ht : Tracks inHand l stack)
    (hconsistent : Consistent l.journal) {key : String} {url : Url}
    (hfound : .found key url ∈ l.journal) (hfiled : l.cache.unit? url = some id) :
    Tracks inHand { l with cache := l.cache.insertResult key id } stack where
  pending hsearched := by
    have hups := upholds_insertResult h hconsistent hfound hfiled
    rcases ht.pending hsearched with hlost | hunder | ⟨other, hother, hdone⟩
    · exact .inl hlost
    · exact .inr (.inl hunder)
    · exact .inr (.inr ⟨other, hups.results hother, hdone.imp_left hups.done⟩)
  visited := ht.visited

/-! ## Dropping and forgetting -/

/-- What a wave that is dropped had done is remembered as such. -/
theorem Traced.drop {l' : Loader ω χ} (h : l.Traced) {e : Event} (he : e.dropsWave = true)
    (hjournal : l'.journal = e :: l.journal) (hunits : l'.units = l.units)
    (hcache : l'.cache = l.cache) : l'.Traced := by
  have hdropped : dropped l'.journal = active l.journal ++ dropped l.journal := by
    rw [hjournal, dropped_cons_of_drops he]
  have hactive : active l'.journal = [] := by
    rw [hjournal, active_cons_of_ends (Event.endsWave_of_dropsWave he)]
  have hstanding := standing?_congr hunits
  have hups : l.Upholds l' := by
    refine ⟨by rw [hjournal]; exact List.suffix_cons _ _, fun hr ↦ hcache ▸ hr, fun hl ↦ ?_⟩
    obtain ⟨s, hs, hstatus⟩ := isLoaded_iff.mp hl
    exact isLoaded_iff.mpr ⟨s, (hstanding _).trans hs, hstatus⟩
  exact
    { marked := fun hkey ↦ hups.logs.subset (h.marked (hcache ▸ hkey))
      found := by
        intro key id hresult
        rw [hcache] at hresult ⊢
        obtain ⟨url, hfound, hfiled⟩ := h.found hresult
        exact ⟨url, hups.logs.subset hfound, hfiled⟩
      waiting := by
        intro id s hs hstatus
        rw [hstanding] at hs
        left
        rw [Stranded, hdropped, List.mem_append]
        exact (h.waiting hs hstatus).symm
      roster := by
        intro id hjoined
        rw [hactive] at hjoined
        cases hjoined
      idle := by
        intro _ key hsearched
        rw [hactive] at hsearched
        cases hsearched
      asked := by
        intro key hsearched
        have hold : .searched key ∈ l.journal := by
          rw [hjournal] at hsearched
          rcases List.mem_cons.mp hsearched with rfl | hsearched
          · cases he
          · exact hsearched
        -- what was under way for the wave is lost now
        rcases h.asked hold with hlost | hactive | hled
        · exact .inl (hlost.mono hups.logs)
        · exact .inl (.inl (hdropped ▸ List.mem_append_left _ hactive))
        · exact .inr (.inr (hups.led hled))
      closed := by
        intro id s hs hstatus r hr
        rw [hstanding] at hs
        obtain ⟨hsearched, hkey⟩ := h.closed hs hstatus r hr
        exact ⟨hups.logs.subset hsearched, hups.settled hkey⟩ }

theorem Traced.abort (h : l.Traced) (p : Platform ω χ) (error : LoaderError) :
    (l.abort p error).Traced := by
  obtain ⟨world, heq⟩ := l.abort_eq p error
  rw [heq]
  cases hwave : l.wave with
  | some wave =>
    refine h.drop (e := .aborted error) rfl ?_ rfl rfl
    rw [abortJournal, hwave]
    rfl
  | none =>
    -- without a wave only lookups for imports can be dropped
    rw [abortJournal, hwave, Option.isSome_none, Bool.false_or]
    split
    · exact h.drop (e := .aborted error) rfl rfl rfl rfl
    · refine Inert.traced (l := l) ?_ h
      exact .of_same (by rw [hwave]) rfl rfl ⟨[], rfl, by simp⟩

theorem Traced.release (h : l.Traced) (p : Platform ω χ) : (l.release p).Traced := by
  obtain ⟨world, heq⟩ := l.release_eq p
  rw [heq]
  exact h.drop (e := .released) rfl rfl rfl rfl

/-- After a reset every key that was asked for is lost. -/
theorem lost_reset {key : String} (h : .searched key ∈ l.journal) :
    Lost (.reset :: l.journal) key := .inr h

theorem Traced.reset (h : l.Traced) :
    ({ l.record .reset with cache := {} } : Loader ω χ).Traced where
  marked hkey := by cases hkey
  found hresult := by cases hresult
  waiting hs hstatus := (h.waiting hs hstatus).imp_right (List.mem_cons_of_mem _)
  roster {id} hjoined := by
    rcases List.mem_cons.mp hjoined with heq | hjoined
    · cases heq
    · exact h.roster hjoined
  idle hwave key hsearched := by
    rcases List.mem_cons.mp hsearched with heq | hsearched
    · cases heq
    · exact h.idle hwave hsearched
  asked {key} hsearched := by
    rcases List.mem_cons.mp hsearched with heq | hsearched
    · cases heq
    · exact .inl (lost_reset hsearched)
  closed hs hstatus r hr := by
    obtain ⟨hsearched, -⟩ := h.closed hs hstatus r hr
    exact ⟨List.mem_cons_of_mem _ hsearched, .inl (lost_reset hsearched)⟩

theorem Tracks.reset (h : Tracks inHand l stack) :
    Tracks inHand { l.record .reset with cache := {} } stack where
  pending hsearched := by
    rcases List.mem_cons.mp hsearched with heq | hsearched
    · cases heq
    · exact .inl (lost_reset (mem_of_mem_active hsearched))
  visited hwave id hid := by
    obtain ⟨s, hs, hvisited⟩ := h.visited hwave id hid
    exact ⟨s, hs, fun r hr ↦ (hvisited r hr).imp_left (List.mem_cons_of_mem _)⟩

end Loader

end ScriptLoader
