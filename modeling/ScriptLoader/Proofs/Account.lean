import ScriptLoader.Proofs.Barrier
import ScriptLoader.Proofs.Changes

/-!
# Every reference is accounted for

The agreement of tables and journal is kept by every turn of a machine, provided that all lookups of
a key find the same file. While an error falls to the frame that drops the wave, nothing is claimed
of what the wave has asked for: it is lost in a moment.

The functions that load, search and complete come in the same order as for the count of a wave, and
each needs to know that the machine is ready or engaged.
-/

namespace ScriptLoader

variable {ω χ : Type}

namespace Machine

open Stack Loader Journal

/-- A loader and a stack between steps whose references are accounted for, apart from a key that is
in hand. -/
structure Tracing (inHand : Option String) (l : Loader ω χ) (stack : List (Frame ω χ)) : Prop where
  traced : l.Traced
  fits : ∀ f ∈ stack, f.Fits l
  tracks : Tracks inHand l stack

/-- References are accounted for, or will not matter. -/
structure Tracked (m : Machine ω χ) : Prop where
  traced : m.loader.Traced
  fits : ∀ f ∈ m.stack, f.Fits m.loader
  tracks : ¬m.Falls → Tracks none m.loader m.stack

namespace Tracing

variable {inHand inHand' : Option String} {l l' : Loader ω χ} {stack : List (Frame ω χ)}

theorem tracked {m : Machine ω χ} (h : Tracing none m.loader m.stack) : m.Tracked :=
  ⟨h.traced, h.fits, fun _ ↦ h.tracks⟩

theorem inert (h : Tracing inHand l stack) (hi : l.Inert l')
    (hway : ∀ key, l.UnderWay inHand key → l'.UnderWay inHand' key) : Tracing inHand' l' stack :=
  ⟨hi.traced h.traced, fun f hf ↦ (h.fits f hf).mono hi.keeps,
    h.tracks.inert hi hway fun _ _ howes ↦ howes⟩

theorem inert_of_lookups (h : Tracing inHand l stack) (hi : l.Inert l')
    (hlookups : l'.lookups = l.lookups) : Tracing inHand l' stack :=
  h.inert hi fun key hway ↦ by rw [UnderWay, hlookups]; exact hway

theorem quiet (h : Tracing inHand l stack) (hq : l.Quiet l') : Tracing inHand l' stack :=
  h.inert_of_lookups (.of_quiet hq) hq.lookups

theorem noteFound (h : Tracing inHand l stack) (world : ω) (key : String)
    (answer : Except LoaderError (Option Resource)) :
    Tracing inHand ({ l with world }.noteFound key answer) stack :=
  h.inert_of_lookups (.noteFound l world key answer) (lookups_noteFound _ _ _)

theorem pushAll (h : Tracing inHand l stack) {pushed : List (Frame ω χ)}
    (hfits : ∀ f ∈ pushed, f.Fits l) : Tracing inHand l (pushed ++ stack) :=
  ⟨h.traced, List.forall_mem_append.mpr ⟨hfits, h.fits⟩,
    h.tracks.inert (.of_quiet (.refl l)) (fun _ hway ↦ hway) fun _ _ howes ↦ howes.append pushed⟩

theorem push (h : Tracing inHand l stack) {frame : Frame ω χ} (hfits : frame.Fits l) :
    Tracing inHand l ([frame] ++ stack) :=
  h.pushAll (by simpa using hfits)

theorem grows {m m' : Machine ω χ} {popped : List (Frame ω χ)}
    (h : Tracing none m.loader m.stack) (hbound : m.loader.OperationsBound)
    (hpopped : ∀ f ∈ popped, f.Fits m.loader) (hg : m.Grows popped m') :
    Tracing none m'.loader m'.stack := by
  obtain ⟨hquiet, pushed, hstack, -, hfits⟩ := hg
  rw [hstack]
  exact (h.quiet hquiet).pushAll (hfits hbound hpopped)

theorem of_none (htraced : l.Traced) (hfits : ∀ f ∈ stack, f.Fits l) (hwave : l.wave = none) :
    Tracing inHand l stack :=
  ⟨htraced, hfits, htraced.tracks hwave inHand stack⟩

variable {m : Machine ω χ} {wave : Wave} {n : Nat}

theorem tracked_throw (h : Tracing inHand m.loader m.stack)
    (he : Engaged n m.loader m.stack wave) (error : LoaderError) : (m.throw error).Tracked where
  traced := h.traced
  fits := h.fits
  tracks hfalls := by
    refine absurd ⟨⟨error, rfl⟩, ?_, he.catching⟩ hfalls
    have hactive : m.loader.wave = some wave := he.active
    rw [throw, give, hactive]
    rfl

/-! ## The wave -/

theorem tracked_join {id : UnitId} {s : Standing ω} (h : Tracing inHand m.loader m.stack)
    (he : Engaged n m.loader m.stack wave) (hs : m.loader.standing? id = some s)
    (hunloaded : s.status = .unloaded)
    (hhand : ∀ key, inHand = some key → m.loader.cache.result? key = some id) :
    (m.join id).Tracked := by
  rw [join_eq he.active hs]
  have hkeeps : m.loader.Keeps (m.loader.enroll wave id s.dependencies) :=
    m.loader.keeps_enroll wave id s.dependencies
  have hquiet := (m.loader.enroll wave id s.dependencies).quiet_operation .searcher s.directory
  have hcontext := operation_context (he.tidy.enroll wave id s.dependencies).bound .searcher
    s.directory
  have htracing : Tracing none (m.loader.enroll wave id s.dependencies)
      (.dispatching id ((m.loader.enroll wave id s.dependencies).operation .searcher
        s.directory).2 s.dependencies :: m.stack) := by
    refine ⟨h.traced.enroll he.active hs hunloaded, ?_,
      h.tracks.enroll he.active hs hunloaded hhand _⟩
    refine List.forall_mem_cons.mpr ⟨?_, fun f hf ↦ (h.fits f hf).mono hkeeps⟩
    obtain ⟨s', hs', -, hdirectory, hdependencies⟩ := hkeeps hs
    exact ⟨s', hs', fun r hr ↦ hdependencies ▸ hr, hcontext.trans (by rw [hdirectory])⟩
  exact tracked (m := { m with loader := _, control := _, stack := _ }) (htracing.quiet hquiet)

theorem tracked_closeWave (h : Tracing none m.loader m.stack)
    (he : Engaged 0 m.loader m.stack wave) (hzero : wave.outstanding = 0) :
    m.closeWave.Tracked := by
  rw [closeWave_eq he.active]
  have hcounted := he.counted
  have hlookups : m.loader.waveLookups = 0 := by omega
  have hidle : owed m.stack = 0 := by omega
  have htraced := h.traced.close h.tracks he.active hlookups hidle
  have hfits : ∀ f ∈ m.stack, f.Fits (m.loader.close wave) :=
    fun f hf ↦ (h.fits f hf).mono (m.loader.keeps_close wave)
  refine tracked (m := { m with loader := _, control := _, stack := _ })
    ((of_none htraced hfits (m.loader.wave_close wave)).pushAll fun f hf ↦ ?_)
  rcases hp : wave.participants with _ | ⟨first, rest⟩
  all_goals rw [hp] at hf
  · cases hf
  · rw [List.mem_singleton.mp hf]; trivial

/-- A key in hand that has led to a unit which has been asked for is not in hand any more. -/
theorem release {id : UnitId} {s : Standing ω} (h : Tracing inHand l stack)
    (hs : l.standing? id = some s) (hasked : s.status ≠ .unloaded)
    (hhand : ∀ key, inHand = some key → l.cache.result? key = some id) : Tracing none l stack := by
  refine ⟨h.traced, h.fits, fun {key} hsearched ↦ ?_, h.tracks.visited⟩
  rcases h.tracks.pending hsearched with hlost | (hinHand | hlookup) | hresult
  · exact .inl hlost
  · refine .inr (.inr ⟨id, hhand key hinHand, ?_⟩)
    cases hstatus : s.status with
    | unloaded => exact absurd hstatus hasked
    | loading => exact (h.traced.waiting hs hstatus).imp_left .inr
    | loaded => exact .inl (.inl (isLoaded_iff.mpr ⟨s, hs, hstatus⟩))
  · exact .inr (.inl (.inr hlookup))
  · exact .inr (.inr hresult)

theorem tracked_searchFinished {id : UnitId} {s : Standing ω}
    (h : Tracing inHand m.loader m.stack) (he : Engaged 1 m.loader m.stack wave)
    (hs : m.loader.standing? id = some s)
    (hhand : ∀ key, inHand = some key → m.loader.cache.result? key = some id) :
    (m.searchFinished id).Tracked := by
  rw [searchFinished_eq he.active hs]
  have hengaged := he.settle
  have hsettled := h.inert_of_lookups (.settle he.active) rfl
  dsimp only
  split
  case isTrue hunloaded =>
    exact tracked_join (m := { m with loader := m.loader.settle wave }) hsettled hengaged hs
      hunloaded hhand
  case isFalse hasked =>
    have hreleased := hsettled.release hs hasked hhand
    split
    case isTrue hzero =>
      exact tracked_closeWave (m := { m with loader := m.loader.settle wave }) hreleased hengaged
        hzero
    case isFalse =>
      exact tracked (m := { m with loader := m.loader.settle wave, control := _ }) hreleased

/-! ## Loading -/

theorem tracked_callBack (h : Tracing none m.loader m.stack) (hr : Ready m.loader m.stack)
    (id : UnitId) (callback : Callback ω) : (m.callBack id callback).Tracked := by
  cases callback with
  | code code => exact tracked (m := m.start code) h
  | importing deliver =>
    have hpushed : Tracing none m.loader (.delivering deliver :: m.stack) := h.push trivial
    exact (grows (m := m.push (.delivering deliver)) hpushed hr.tidy.bound (by simp)
      (grows_execute [] _ id)).tracked

theorem tracked_loadDependencies (p : Platform ω χ) (h : Tracing none m.loader m.stack)
    (hr : Ready m.loader m.stack) (id : UnitId) (callback : Option (Callback ω)) :
    (m.loadDependencies p id callback).Tracked := by
  cases hs : m.loader.standing? id with
  | none =>
    rw [loadDependencies_unknown p hs]
    exact tracked (m := m.done) h
  | some s =>
    rw [loadDependencies_eq p hs]
    cases hstatus : s.status with
    | loaded =>
      cases callback with
      | none => exact tracked (m := m.done) h
      | some callback =>
        exact tracked_callBack (m := m.update (·.record (.delivered id)))
          (h.inert_of_lookups (.record _ rfl) rfl) (hr.record rfl) id callback
    | loading =>
      exact tracked (m := (m.update (·.await id callback)).done)
        (h.inert_of_lookups (.modifyCallbacks m.loader id (· ++ callback.toList)) rfl)
    | unloaded =>
      dsimp only
      split
      -- another wave is active, and the load is turned down
      case isTrue =>
        exact tracked (m := { m with loader := m.loader.endImports p _, control := _ })
          (h.quiet (m.loader.quiet_endImports p _))
      case isFalse hwave =>
        have hnone : m.loader.wave = none := by simpa using hwave
        have hkeeps : m.loader.Keeps (m.loader.beginWave id callback) :=
          m.loader.keeps_await id callback
        have hbegun : Tracing none (m.loader.beginWave id callback) (.aborting :: m.stack) := by
          refine ⟨h.traced.beginWave hnone id callback, ?_,
            h.traced.tracks_beginWave hnone id callback _⟩
          exact List.forall_mem_cons.mpr ⟨trivial, fun f hf ↦ (h.fits f hf).mono hkeeps⟩
        exact tracked_join (m := (m.update (·.beginWave id callback)).push .aborting) hbegun
          (hr.beginWave hnone id callback) (standing?_await_self hs callback) hstatus
          fun _ hkey ↦ by cases hkey

theorem tracked_continueDraining (h : Tracing none m.loader m.stack)
    (hr : Ready m.loader m.stack) (id : UnitId) (callbacks : List (Callback ω))
    (rest : List UnitId) : (m.continueDraining id callbacks rest).Tracked := by
  cases callbacks with
  | cons callback callbacks =>
    have hpushed : Tracing none m.loader (.draining id callbacks rest :: m.stack) := h.push trivial
    have hready : Ready m.loader (.draining id callbacks rest :: m.stack) := hr.push rfl
    exact tracked_callBack (m := (m.push (.draining id callbacks rest)).update
      (·.record (.delivered id))) (hpushed.inert_of_lookups (.record _ rfl) rfl)
      (hready.record rfl) id callback
  | nil =>
    cases rest with
    | nil => exact tracked (m := m.done) h
    | cons next rest =>
      have hinert := Inert.modifyCallbacks m.loader next fun _ ↦ []
      exact tracked (m := { m with loader := _, control := _, stack := _ })
        ((h.inert_of_lookups hinert rfl).push trivial)

/-! ## Searching -/

variable (p : Platform ω χ)

/-- A lookup for the wave takes over the key in hand. -/
theorem tracked_searchWave {searcher : Operation} {reference : Reference}
    (h : Tracing (some (reference.key searcher.context.text)) m.loader m.stack)
    (he : Engaged 1 m.loader m.stack wave) (origin : Option Url) :
    (m.search p searcher reference origin .wave).Tracked := by
  rcases search_cases p m searcher reference origin .wave with
    ⟨id, hresult, heq⟩ | ⟨-, ⟨cause, -, heq⟩ | ⟨request, -, heq⟩⟩
  all_goals rw [heq]
  -- the key has led to a unit before, which a lookup for an import may have found
  · obtain ⟨s, hs⟩ := he.tidy.result hresult
    refine h.tracked_searchFinished he hs fun key hkey ↦ ?_
    cases hkey
    exact hresult
  · have hquiet := m.loader.quiet_endImports p 0
    exact tracked_throw (m := m.update (·.endImports p 0)) (h.quiet hquiet) (he.quiet hquiet) _
  · refine tracked (m := (m.update (·.enlist _ request _)).done)
      (h.inert (.enlist m.loader _ request _) fun key hway ↦ .inr ?_)
    rcases hway with hhand | ⟨lookup, hmem, hpurpose⟩
    · cases hhand
      exact ⟨_, List.mem_append_right _ (List.mem_singleton_self _), rfl, rfl⟩
    · exact ⟨lookup, List.mem_append_left _ hmem, hpurpose⟩

theorem tracked_searchImport (h : Tracing none m.loader m.stack) (hr : Ready m.loader m.stack)
    (searcher : Operation) (reference : Reference) (origin : Option Url)
    (deliver : Option (Outcome → Code ω)) :
    (m.search p searcher reference origin (.importing deliver)).Tracked := by
  rcases search_cases p m searcher reference origin (.importing deliver) with
    ⟨id, -, heq⟩ | ⟨-, ⟨cause, -, heq⟩ | ⟨request, -, heq⟩⟩
  all_goals rw [heq]
  · exact h.tracked_loadDependencies p hr id (some (.importing deliver))
  · exact tracked (m := { m with loader := m.loader.endImports p 1, control := _ })
      (h.quiet (m.loader.quiet_endImports p 1))
  · refine tracked (m := (m.update (·.enlist _ request _)).done)
      (h.inert (.enlist m.loader _ request _) fun key hway ↦ hway.imp_right ?_)
    rintro ⟨lookup, hmem, hpurpose⟩
    exact ⟨lookup, List.mem_append_left _ hmem, hpurpose⟩

theorem tracked_continueDispatching {id : UnitId} {searcher : Operation} {reference : Reference}
    {rest : List Reference}
    (h : Tracing none m.loader (.dispatching id searcher (reference :: rest) :: m.stack))
    (he : Engaged 1 m.loader (.dispatching id searcher rest :: m.stack) wave) :
    (m.continueDispatching p id searcher (reference :: rest)).Tracked := by
  have hactive : m.loader.wave = some wave := he.active
  obtain ⟨hdeclares, hbase⟩ := List.forall_mem_cons.mp h.fits
  have hfits : ∀ f ∈ .dispatching id searcher rest :: m.stack, f.Fits m.loader :=
    List.forall_mem_cons.mpr ⟨Declares.mono hdeclares (Quiet.refl _).keeps fun _ hr ↦
      List.mem_cons_of_mem _ hr, hbase⟩
  by_cases hmarked : reference.key searcher.context.text ∈ m.loader.cache.markers
  -- a marked key has been asked for, and that is all that visiting a reference means
  · have hvisited : Tracing none m.loader (.dispatching id searcher rest :: m.stack) := by
      refine ⟨h.traced, hfits, h.tracks.pending, fun hwave other hother ↦ ?_⟩
      exact h.tracks.visit hdeclares [] (h.traced.marked hmarked) hwave hother
    have hsettled := hvisited.inert_of_lookups (.settle hactive) rfl
    rw [continueDispatching_marked p hactive id rest hmarked]
    dsimp only
    split
    case isTrue hzero =>
      exact tracked_closeWave (m := (m.push (.dispatching id searcher rest)).update (·.settle wave))
        hsettled he.settle hzero
    case isFalse =>
      exact tracked (m := ((m.push (.dispatching id searcher rest)).update (·.settle wave)).done)
        hsettled
  -- otherwise the key is in hand until it has led to a unit or is looked up
  · rw [continueDispatching_unmarked p m id rest hmarked]
    have hasked : Tracing (some (reference.key searcher.context.text))
        (m.loader.ask (reference.key searcher.context.text))
        (.dispatching id searcher rest :: m.stack) := by
      refine ⟨h.traced.ask hactive _, hfits, fun {key} hsearched ↦ ?_, fun hwave other hother ↦ ?_⟩
      · rcases List.mem_cons.mp hsearched with heq | hsearched
        · cases heq
          exact .inr (.inl (.inl rfl))
        · rcases h.tracks.pending hsearched with hlost | (hnone | hlookup) | ⟨other, hother, hdone⟩
          · exact .inl hlost
          · cases hnone
          · exact .inr (.inl (.inr hlookup))
          · have hups := m.loader.upholds_ask (reference.key searcher.context.text)
            exact .inr (.inr ⟨other, hups.results hother,
              hdone.imp hups.done (List.mem_cons_of_mem _)⟩)
      · exact h.tracks.visit hdeclares [.searched _] List.mem_cons_self hwave hother
    exact tracked_searchWave (m := (m.push (.dispatching id searcher rest)).update (·.ask _)) p
      hasked (he.ask _) _

theorem tracked_importFile (h : Tracing none m.loader m.stack) (hr : Ready m.loader m.stack)
    (importer : Operation) (reference : Reference) (deliver : Option (Outcome → Code ω)) :
    (m.importFile p importer reference deliver).Tracked := by
  obtain ⟨l, searcher, origin, hquiet, heq⟩ := importFile_eq p m importer reference deliver
  rw [heq]
  exact tracked_searchImport (m := { m with loader := l }) p (h.quiet hquiet) (hr.quiet hquiet)
    searcher reference origin deliver

/-! ## Completing -/

/-- What has been found is in the journal, so a result that is recorded can be traced. -/
theorem insertResult {l : Loader ω χ} {stack : List (Frame ω χ)} (h : Tracing inHand l stack)
    (hconsistent : Consistent l.journal) {key : String} {url : Url} {id : UnitId}
    (hfound : .found key url ∈ l.journal) (hfiled : l.cache.unit? url = some id) :
    Tracing inHand { l with cache := l.cache.insertResult key id } stack :=
  ⟨h.traced.insertResult hconsistent hfound hfiled,
    fun f hf ↦ (h.fits f hf).mono fun _ _ hs ↦ ⟨_, hs, rfl, rfl, rfl⟩,
    h.tracks.insertResult h.traced hconsistent hfound hfiled⟩

theorem tracked_completeWave {lookup : Lookup ω} (hpurpose : lookup.purpose = .wave)
    (h : Tracing (some lookup.key) m.loader m.stack) (he : Engaged 1 m.loader m.stack wave)
    (hconsistent : Consistent (m.completeLookup p lookup).loader.journal) :
    (m.completeLookup p lookup).Tracked := by
  rcases completeLookup_cases p m lookup with
    ⟨l, e, hquiet, heq⟩ | ⟨l, id, resource, hanswer, hquiet, hfiled, heq⟩
  all_goals
    rw [heq, hpurpose] at hconsistent ⊢
    have hmade := (h.noteFound _ _ _).quiet hquiet
    have hengaged := (he.noteFound _ _ _).quiet hquiet
  · have hquiet := l.quiet_endImports p 0
    exact tracked_throw (m := { m with loader := l.endImports p 0 }) (hmade.quiet hquiet)
      (hengaged.quiet hquiet) e
  · obtain ⟨s, hs, -⟩ := hengaged.tidy.unit hfiled
    have hfound : .found lookup.key resource.url ∈ l.journal :=
      hquiet.logs.subset (by rw [hanswer]; exact List.mem_cons_self)
    have hleads := leads_continueSearch
      { m with loader := { l with cache := l.cache.insertResult lookup.key id } } p id .wave
    have hold : Consistent l.journal := hconsistent.of_suffix (Extends.of_leads hleads).logs
    refine tracked_searchFinished (m := { m with loader := { l with cache := _ } })
      (hmade.insertResult hold hfound hfiled)
      (hengaged.change (hengaged.tidy.insertResult _ hs) hengaged.flawless rfl rfl) hs
      fun key hkey ↦ ?_
    cases hkey
    exact (ResolutionCache.result?_insertResult _ _ _ _).trans (if_pos rfl)

theorem tracked_completeImport {lookup : Lookup ω} {deliver : Option (Outcome → Code ω)}
    (hpurpose : lookup.purpose = .importing deliver) (h : Tracing none m.loader m.stack)
    (hr : Ready m.loader m.stack)
    (hconsistent : Consistent (m.completeLookup p lookup).loader.journal) :
    (m.completeLookup p lookup).Tracked := by
  rcases completeLookup_cases p m lookup with
    ⟨l, e, hquiet, heq⟩ | ⟨l, id, resource, hanswer, hquiet, hfiled, heq⟩
  all_goals
    rw [heq, hpurpose] at hconsistent ⊢
    have hmade := (h.noteFound _ _ _).quiet hquiet
    have hready := (hr.noteFound _ _ _).quiet hquiet
  · exact tracked (m := { m with loader := l.endImports p 1, control := _ })
      (hmade.quiet (l.quiet_endImports p 1))
  · obtain ⟨s, hs, -⟩ := hready.tidy.unit hfiled
    have hfound : .found lookup.key resource.url ∈ l.journal :=
      hquiet.logs.subset (by rw [hanswer]; exact List.mem_cons_self)
    have hleads := leads_continueSearch
      { m with loader := { l with cache := l.cache.insertResult lookup.key id } } p id
      (.importing deliver)
    have hold : Consistent l.journal := hconsistent.of_suffix (Extends.of_leads hleads).logs
    exact tracked_loadDependencies (m := { m with loader := { l with cache := _ } }) p
      (hmade.insertResult hold hfound hfiled)
      (hready.change (hready.tidy.insertResult _ hs) hready.flawless rfl rfl) id
      (some (.importing deliver))

/-- The key of a lookup that has been taken is in hand, if it was for the wave. -/
theorem leave {l : Loader ω χ} {stack : List (Frame ω χ)} (h : Tracing none l stack) (world : ω)
    {before after : List (Lookup ω)} {lookup : Lookup ω}
    (hsplit : l.lookups = before ++ lookup :: after)
    (hhand : lookup.purpose.isImport = false → inHand = some lookup.key) :
    Tracing inHand (l.leave world (before ++ after)) stack := by
  refine h.inert (.of_same rfl rfl rfl ⟨[], rfl, by simp⟩) fun key hway ↦ ?_
  rcases hway with hnone | ⟨other, hmem, hpurpose, rfl⟩
  · cases hnone
  · rw [hsplit, List.mem_append, List.mem_cons] at hmem
    rcases hmem with hmem | rfl | hmem
    · exact .inr ⟨other, List.mem_append_left _ hmem, hpurpose, rfl⟩
    · exact .inl (hhand hpurpose)
    · exact .inr ⟨other, List.mem_append_right _ hmem, hpurpose, rfl⟩

theorem tracked_drive (h : Tracing none m.loader m.stack) (hr : Ready m.loader m.stack)
    (next : Awaited Unit → Code ω) (hconsistent : Consistent (m.drive p next).loader.journal) :
    (m.drive p next).Tracked := by
  rcases drive_cases p m next with
    ⟨-, heq⟩ | ⟨world, -, heq⟩ | ⟨world, before, lookup, after, -, hsplit, heq⟩
  all_goals rw [heq] at hconsistent ⊢
  · exact tracked (m := m.start _) h
  · exact tracked (m := (m.update fun l ↦ { l with world }).start _)
      (h.quiet (m.loader.quiet_world _))
  · cases hpurpose : lookup.purpose with
    | wave =>
      obtain ⟨wave, hengaged⟩ := hr.takeWave world hsplit hpurpose next
      have htaken : Tracing (some lookup.key) _ (.driving next :: m.stack) :=
        (h.leave world hsplit fun _ ↦ rfl).push trivial
      exact tracked_completeWave
        (m := (m.update (·.leave world (before ++ after))).push (.driving next)) p hpurpose htaken
        hengaged hconsistent
    | importing deliver =>
      have hready := hr.takeImport world hsplit hpurpose next
      have htaken : Tracing none _ (.driving next :: m.stack) :=
        (h.leave world hsplit fun himport ↦ by rw [hpurpose] at himport; cases himport).push trivial
      exact tracked_completeImport
        (m := (m.update (·.leave world (before ++ after))).push (.driving next)) p hpurpose htaken
        hready hconsistent

end Tracing

/-! ## Turns -/

namespace Tracked

variable {m : Machine ω χ} {frame : Frame ω χ} {base : List (Frame ω χ)}

theorem tracing (h : m.Tracked) (hfalls : ¬m.Falls) : Tracing none m.loader m.stack :=
  ⟨h.traced, h.fits, h.tracks hfalls⟩

theorem fits_base (h : m.Tracked) (hs : m.stack = frame :: base) : ∀ f ∈ base, f.Fits m.loader :=
  fun f hf ↦ h.fits f (hs ▸ List.mem_cons_of_mem _ hf)

/-- Below a frame that owes nothing the account is the same. -/
theorem below (h : m.Tracked) (hs : m.stack = frame :: base) (howed : frame.owed = 0)
    (hfalls : ¬m.Falls) : Tracing none m.loader base := by
  have htracks := h.tracks hfalls
  refine ⟨h.traced, h.fits_base hs, htracks.inert (.of_quiet (.refl _)) (fun _ hway ↦ hway)
    fun id r howes ↦ ?_⟩
  rw [hs] at howes
  rcases howes.of_cons with ⟨searcher, rest, rfl, hr⟩ | howes
  · rw [Frame.owed, List.length_eq_zero_iff] at howed
    rw [howed] at hr
    cases hr
  · exact howes

/-- Code only runs when nothing falls. -/
theorem tracing_of_code (h : m.Tracked) {code : Code ω} (hcontrol : m.control = .running code) :
    Tracing none m.loader m.stack := by
  refine h.tracing ?_
  rintro ⟨⟨e, he⟩, -⟩
  rw [hcontrol] at he
  cases he

variable {p : Platform ω χ}

theorem abort (h : m.Tracked) (hs : m.stack = frame :: base) (error : LoaderError) :
    Tracing none (m.loader.abort p error) base := by
  have htraced := h.traced.abort p error
  obtain ⟨world, heq⟩ := m.loader.abort_eq p error
  rw [heq] at htraced ⊢
  exact .of_none htraced
    (fun f hf ↦ (h.fits_base hs f hf).mono fun _ _ hs' ↦ ⟨_, hs', rfl, rfl, rfl⟩) rfl

/-- **A turn keeps references accounted for**, if all lookups of a key find the same file. -/
theorem turn {m' : Machine ω χ} (h : m.Tracked) (hsound : m.Sound) (hturn : m.Turn p m')
    (hconsistent : Consistent m'.loader.journal) : m'.Tracked := by
  cases hturn with
  | halted => exact h
  | code hcontrol hgrows =>
    exact ((h.tracing_of_code hcontrol).grows hsound.tidy.bound (by simp) hgrows).tracked
  | @frame outcome frame base _ hcontrol hs hneutral hgrows =>
    have hbase := h.below hs (Frame.owed_eq_zero (Frame.isDispatching_of_isNeutral hneutral))
      (not_falls_of_top hs (.inl hneutral))
    refine (Tracing.grows (m := { m with stack := base }) hbase hsound.tidy.bound ?_ hgrows).tracked
    exact List.forall_mem_singleton.mpr (h.fits frame (hs ▸ List.mem_cons_self))
  | @load _ _ next hcontrol =>
    have hpushed : Tracing none m.loader (.resumeAfter next :: m.stack) :=
      (h.tracing_of_code hcontrol).push trivial
    exact Tracing.tracked_loadDependencies (m := m.push (.resumeAfter next)) p hpushed
      ((hsound.ready hcontrol).push rfl) _ _
  | @importing _ _ _ next hcontrol =>
    have hpushed : Tracing none m.loader (.resumeAfter next :: m.stack) :=
      (h.tracing_of_code hcontrol).push trivial
    exact Tracing.tracked_importFile (m := m.push (.resumeAfter next)) p hpushed
      ((hsound.ready hcontrol).push rfl) _ _ _
  | drive hcontrol =>
    exact (h.tracing_of_code hcontrol).tracked_drive p (hsound.ready hcontrol) _ hconsistent
  | reset hcontrol =>
    have htracing := h.tracing_of_code hcontrol
    exact Tracing.tracked (m := { m with loader := _, control := _ })
      ⟨htracing.traced.reset, fun f hf ↦ (h.fits f hf).mono fun _ _ hs ↦ ⟨_, hs, rfl, rfl, rfl⟩,
        htracing.tracks.reset⟩
  | release hcontrol =>
    have htraced := h.traced.release p
    obtain ⟨world, heq⟩ := m.loader.release_eq p
    rw [heq] at htraced ⊢
    exact Tracing.tracked (m := { m with loader := _, control := _ }) (.of_none htraced
      (fun f hf ↦ (h.fits f hf).mono fun _ _ hs ↦ ⟨_, hs, rfl, rfl, rfl⟩) rfl)
  | @driveOn _ _ base hcontrol hs =>
    have hfalls := not_falls_of_ok hcontrol
    exact Tracing.tracked_drive (m := { m with stack := base }) p (h.below hs rfl hfalls)
      (hsound.ready_below hs rfl hfalls) _ hconsistent
  | driveError _ hs =>
    exact Tracing.tracked (m := { m with stack := _, loader := _, control := _ }) (h.abort hs _)
  | @dispatch _ id searcher rest base hcontrol hs =>
    have hfalls := not_falls_of_ok hcontrol
    cases rest with
    | nil =>
      exact Tracing.tracked (m := { m with stack := _, control := _ }) (h.below hs rfl hfalls)
    | cons reference rest =>
      obtain ⟨wave, hengaged⟩ := hsound.engaged_of_dispatching hs hfalls
      have htracing := h.tracing hfalls
      rw [hs] at htracing
      exact Tracing.tracked_continueDispatching (m := { m with stack := base }) p htracing hengaged
  | @dispatchError error _ _ _ base hcontrol hs =>
    -- while the error falls on, nothing is said of the stack; without a wave nothing need be
    have harranged := hsound.arranged
    rw [hs, arranged_dispatching] at harranged
    refine ⟨h.traced, h.fits_base hs, fun hfalls ↦ h.traced.tracks ?_ _ _⟩
    by_contra hwave
    exact hfalls ⟨⟨error, rfl⟩, Option.isSome_iff_ne_none.mpr hwave, harranged.1⟩
  | @drain _ _ _ _ base hcontrol hs =>
    have hfalls := not_falls_of_ok hcontrol
    exact Tracing.tracked_continueDraining (m := { m with stack := base }) (h.below hs rfl hfalls)
      (hsound.ready_below hs rfl hfalls) _ _ _
  | @drainError error id callbacks rest base hcontrol hs =>
    have hbase := h.below hs rfl (not_falls_of_top hs (.inr ⟨_, _, _, rfl⟩))
    exact Tracing.tracked (m := { m with stack := _, loader := _, control := _ })
      (hbase.quiet (m.loader.quiet_endImports p (callbacks.countP Callback.isImport)))
  | arrive hcontrol hs =>
    exact Tracing.tracked (m := { m with stack := _, control := _ })
      (h.below hs rfl (not_falls_of_ok hcontrol))
  | abort _ hs =>
    exact Tracing.tracked (m := { m with stack := _, loader := _, control := _ }) (h.abort hs _)

end Tracked

/-! ## Runs -/

theorem tracked_of_fresh {l : Loader ω χ} (h : l.IsFresh) (code : Code ω) :
    ({ loader := l, control := .running code } : Machine ω χ).Tracked := by
  refine Tracing.tracked (.of_none ⟨?_, ?_, ?_, ?_, ?_, ?_, ?_⟩ (by simp) h.wave)
  · rw [h.cache]; simp
  · rw [h.cache]; simp
  · simp [h.standing?]
  · rw [h.journal]; simp [active]
  · rw [h.journal]; simp [active]
  · rw [h.journal]; simp
  · simp [h.standing?]

/-- **In every machine that can be reached, references are accounted for**, if all lookups of a key
found the same file. -/
theorem Reachable.tracked {p : Platform ω χ} {m : Machine ω χ} (h : m.Reachable p)
    (hconsistent : Consistent m.loader.journal) : m.Tracked := by
  induction h with
  | start fresh code => exact tracked_of_fresh fresh code
  | @step m hreachable ih =>
    have htracked := ih (hconsistent.of_suffix (extends_step p m).1)
    exact htracked.turn (hreachable.sound p) (step_turn p m) hconsistent
  | @again m _ hhalted code ih =>
    obtain ⟨outcome, -, hs⟩ := exists_of_isHalted hhalted
    exact Tracing.tracked (m := { m with control := .running code })
      ((ih hconsistent).tracing (not_falls_of_nil hs))

end Machine

end ScriptLoader
