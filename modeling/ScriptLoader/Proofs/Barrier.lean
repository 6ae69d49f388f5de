import ScriptLoader.Proofs.Balance
import ScriptLoader.Proofs.Project

/-!
# What a wave waits for

Every turn of a machine keeps it sound, so every machine that can be reached is. Between operations,
and whenever code runs, an active wave therefore counts the lookups that are under way for it and
has at least one, and without a wave there is none. The count never falls below zero, and no unit or
file arrives when the wave is over.

## Order of the lemmas

The functions that load, search and complete come first, each from a loader that is ready or
engaged; then the turns, which only take frames off the stack; then whole runs.
-/

namespace ScriptLoader

variable {ω χ : Type}

namespace Machine

open Stack Loader

variable {m : Machine ω χ} (p : Platform ω χ)

/-! ## Loading -/

theorem Ready.sound_callBack (h : Ready m.loader m.stack) (id : UnitId) (callback : Callback ω) :
    (m.callBack id callback).Sound := by
  cases callback with
  | code code => exact h.sound_start code
  | importing deliver =>
    have hpushed : Ready (m.push (.delivering deliver)).loader
        (m.push (.delivering deliver)).stack := h.push rfl
    exact (hpushed.grows (grows_execute [] _ id)).sound

theorem Ready.beginWave {l : Loader ω χ} {stack : List (Frame ω χ)} (h : Ready l stack)
    (hnone : l.wave = none) (id : UnitId) (callback : Option (Callback ω)) :
    Engaged 0 (l.beginWave id callback) (.aborting :: stack) {} := by
  have htidy : (l.beginWave id callback).Tidy :=
    (h.tidy.modifyCallbacks id (· ++ callback.toList)).congr rfl rfl rfl rfl
  have hlookups : (l.beginWave id callback).waveLookups = 0 := by
    have hbalanced := h.balanced
    rw [Balances, hnone] at hbalanced
    exact hbalanced.1
  refine ⟨htidy, h.flawless, (arranged_cons rfl).mpr ⟨h.idle, h.arranged⟩, trivial, rfl, ?_⟩
  rw [hlookups, owed_cons, h.idle]
  rfl

theorem Ready.sound_loadDependencies (h : Ready m.loader m.stack) (id : UnitId)
    (callback : Option (Callback ω)) : (m.loadDependencies p id callback).Sound := by
  cases hs : m.loader.standing? id with
  | none =>
    rw [loadDependencies_unknown p hs]
    exact h.sound_done
  | some s =>
    rw [loadDependencies_eq p hs]
    cases hstatus : s.status with
    | loaded =>
      cases callback with
      | none => exact h.sound_done
      | some callback =>
        exact sound_callBack (m := m.update (·.record (.delivered id))) (h.record rfl) id callback
    | loading =>
      have htidy := h.tidy.modifyCallbacks id (· ++ callback.toList)
      exact sound_done (m := m.update (·.await id callback)) (h.change htidy h.flawless rfl rfl)
    | unloaded =>
      dsimp only
      split
      -- another wave is active, and the load is turned down
      case isTrue =>
        have hquiet := m.loader.quiet_endImports p (callback.toList.countP Callback.isImport)
        exact sound_throw
          (m := m.update (·.endImports p (callback.toList.countP Callback.isImport)))
          (h.quiet hquiet) _
      case isFalse hwave =>
        have hnone : m.loader.wave = none := by simpa using hwave
        have hne : s.dependencies ≠ [] := h.tidy.dependencies hs hstatus
        exact (h.beginWave hnone id callback).sound_join
          (m := (m.update (·.beginWave id callback)).push .aborting)
          (standing?_await_self hs callback) hne

/-- The callbacks of a closed wave may run any code. -/
theorem Ready.sound_continueDraining (h : Ready m.loader m.stack) (id : UnitId)
    (callbacks : List (Callback ω)) (rest : List UnitId) :
    (m.continueDraining id callbacks rest).Sound := by
  cases callbacks with
  | cons callback callbacks =>
    have hpushed : Ready m.loader (.draining id callbacks rest :: m.stack) := h.push rfl
    exact sound_callBack (m := (m.push (.draining id callbacks rest)).update
      (·.record (.delivered id))) (hpushed.record rfl) id callback
  | nil =>
    cases rest with
    | nil => exact h.sound_done
    | cons next rest =>
      have htidy := h.tidy.modifyCallbacks next fun _ ↦ []
      have hpushed : Ready _ (.draining next (((m.loader.unit? next).map (·.callbacks)).getD [])
          rest :: m.stack) := (h.change htidy h.flawless rfl rfl).push rfl
      exact sound (m := { m with loader := _, control := _, stack := _ }) hpushed

/-! ## Searching -/

theorem Engaged.sound_searchWave {wave : Wave} (h : Engaged 1 m.loader m.stack wave)
    (searcher : Operation) (reference : Reference) (origin : Option Url) :
    (m.search p searcher reference origin .wave).Sound := by
  rcases search_cases p m searcher reference origin .wave with
    ⟨id, hresult, heq⟩ | ⟨-, ⟨cause, -, heq⟩ | ⟨request, -, heq⟩⟩
  all_goals rw [heq]
  · obtain ⟨s, hs⟩ := h.tidy.result hresult
    exact h.sound_searchFinished hs
  · have hquiet := m.loader.quiet_endImports p 0
    exact sound_throw (m := m.update (·.endImports p 0)) (h.quiet hquiet) _
  · have hpos : 0 < wave.outstanding := by have := h.counted; omega
    have hstarted : ∀ world (lookup : Lookup ω), lookup.purpose = .wave →
        Engaged 0 (m.loader.enlist world request lookup) m.stack wave := by
      intro world lookup hpurpose
      refine ⟨h.tidy.congr rfl rfl rfl rfl, h.flawless.cons rfl rfl, h.arranged, h.catching,
        h.active, ?_⟩
      have hcounted := h.counted
      simp only [waveLookups_enlist, hpurpose, Purpose.isImport, Bool.false_eq_true, if_false]
      omega
    exact sound_done (m := m.update (·.enlist _ request _)) (hstarted _ _ rfl) hpos

/-- A lookup for an import does not count. -/
theorem Ready.sound_searchImport (h : Ready m.loader m.stack) (searcher : Operation)
    (reference : Reference) (origin : Option Url) (deliver : Option (Outcome → Code ω)) :
    (m.search p searcher reference origin (.importing deliver)).Sound := by
  rcases search_cases p m searcher reference origin (.importing deliver) with
    ⟨id, -, heq⟩ | ⟨-, ⟨cause, -, heq⟩ | ⟨request, -, heq⟩⟩
  all_goals rw [heq]
  · exact h.sound_loadDependencies p id (some (.importing deliver))
  · have hquiet := m.loader.quiet_endImports p 1
    exact sound_throw (m := m.update (·.endImports p 1)) (h.quiet hquiet) _
  · exact sound_done (m := m.update (·.enlist _ request _)) (h.change (h.tidy.congr rfl rfl rfl rfl)
      (h.flawless.cons rfl rfl) rfl (waveLookups_enlist _ _ _ _))

theorem Engaged.ask {n : Nat} {l : Loader ω χ} {stack : List (Frame ω χ)} {wave : Wave}
    (h : Engaged n l stack wave) (key : String) : Engaged n (l.ask key) stack wave := by
  have htidy : (l.ask key).Tidy :=
    h.tidy.congr rfl (by simp [Loader.ask, record]) (by simp [Loader.ask, record])
      (by simp [Loader.ask, record])
  exact h.change htidy (h.flawless.cons rfl rfl) rfl rfl

/-- A reference of a unit that has joined is searched, or settled at once. -/
theorem Engaged.sound_continueDispatching {id : UnitId} {searcher : Operation}
    {reference : Reference} {rest : List Reference} {wave : Wave}
    (h : Engaged 1 m.loader (.dispatching id searcher rest :: m.stack) wave) :
    (m.continueDispatching p id searcher (reference :: rest)).Sound := by
  have hactive : m.loader.wave = some wave := h.active
  by_cases hmarked : reference.key searcher.context.text ∈ m.loader.cache.markers
  · have hsettled := h.settle
    rw [continueDispatching_marked p hactive id rest hmarked]
    dsimp only
    split
    case isTrue hzero =>
      exact sound_closeWave (m := (m.push (.dispatching id searcher rest)).update (·.settle wave))
        hsettled hzero
    case isFalse hne =>
      exact sound_done (m := (m.push (.dispatching id searcher rest)).update (·.settle wave))
        hsettled (Nat.pos_of_ne_zero hne)
  · rw [continueDispatching_unmarked p m id rest hmarked]
    exact sound_searchWave p (m := (m.push (.dispatching id searcher rest)).update (·.ask _))
      (h.ask _) searcher reference _

theorem Ready.sound_importFile (h : Ready m.loader m.stack) (importer : Operation)
    (reference : Reference) (deliver : Option (Outcome → Code ω)) :
    (m.importFile p importer reference deliver).Sound := by
  obtain ⟨l, searcher, origin, hquiet, heq⟩ := importFile_eq p m importer reference deliver
  rw [heq]
  exact sound_searchImport p (m := { m with loader := l }) (h.quiet hquiet) searcher reference
    origin deliver

/-! ## Completing -/

/-- A lookup that has been taken is completed: one for the wave is in hand. -/
theorem Engaged.sound_completeLookup {wave : Wave} (h : Engaged 1 m.loader m.stack wave)
    {lookup : Lookup ω} (hpurpose : lookup.purpose = .wave) :
    (m.completeLookup p lookup).Sound := by
  rcases completeLookup_cases p m lookup with
    ⟨l, e, hquiet, heq⟩ | ⟨l, id, resource, -, hquiet, hfiled, heq⟩
  all_goals
    rw [heq, hpurpose]
    have hmade := (h.noteFound _ _ _).quiet hquiet
  · have hquiet := l.quiet_endImports p 0
    exact sound_throw (m := { m with loader := l.endImports p 0 }) (hmade.quiet hquiet) e
  · obtain ⟨s, hs, -⟩ := hmade.tidy.unit hfiled
    exact sound_searchFinished (m := { m with loader := { l with cache := _ } })
      (hmade.change (hmade.tidy.insertResult _ hs) hmade.flawless rfl rfl) hs

theorem Ready.sound_completeLookup (h : Ready m.loader m.stack) {lookup : Lookup ω}
    {deliver : Option (Outcome → Code ω)} (hpurpose : lookup.purpose = .importing deliver) :
    (m.completeLookup p lookup).Sound := by
  rcases completeLookup_cases p m lookup with
    ⟨l, e, hquiet, heq⟩ | ⟨l, id, resource, -, hquiet, hfiled, heq⟩
  all_goals
    rw [heq, hpurpose]
    have hmade := (h.noteFound _ _ _).quiet hquiet
  · have hquiet := l.quiet_endImports p 1
    exact sound_throw (m := { m with loader := l.endImports p 1 }) (hmade.quiet hquiet) e
  · obtain ⟨s, hs, -⟩ := hmade.tidy.unit hfiled
    exact sound_loadDependencies p (m := { m with loader := { l with cache := _ } })
      (hmade.change (hmade.tidy.insertResult _ hs) hmade.flawless rfl rfl) id
      (some (.importing deliver))

section Taking

variable {l : Loader ω χ} {stack : List (Frame ω χ)} {before after : List (Lookup ω)}
  {lookup : Lookup ω}

private theorem waveLookups_leave (world : ω) (hsplit : l.lookups = before ++ lookup :: after) :
    l.waveLookups = (l.leave world (before ++ after)).waveLookups
      + if lookup.purpose.isImport then 0 else 1 := by
  rw [waveLookups, hsplit, waveLookups, leave, List.countP_append, List.countP_cons,
    List.countP_append]
  cases lookup.purpose.isImport
  all_goals simp only [Bool.not_true, Bool.not_false, Bool.false_eq_true, if_true, if_false]
  all_goals omega

/-- A lookup for the wave that is taken is one of its references in hand. There is a wave, since a
lookup was under way for it. -/
theorem Ready.takeWave (h : Ready l stack) (world : ω)
    (hsplit : l.lookups = before ++ lookup :: after) (hpurpose : lookup.purpose = .wave)
    (next : Awaited Unit → Code ω) :
    ∃ wave, Engaged 1 (l.leave world (before ++ after)) (.driving next :: stack) wave := by
  have hcount := waveLookups_leave world hsplit
  rw [hpurpose] at hcount
  have hbalanced := h.balanced
  rw [Balances] at hbalanced
  split at hbalanced
  case h_1 =>
    rw [hbalanced.1] at hcount
    cases hcount
  case h_2 wave hactive =>
    refine ⟨wave, h.tidy.congr rfl rfl rfl rfl, h.flawless,
      (arranged_cons rfl).mpr ⟨h.idle, h.arranged⟩, trivial, hactive, ?_⟩
    rw [hbalanced.1, hcount, owed_cons, h.idle]
    rfl

theorem Ready.takeImport (h : Ready l stack) (world : ω)
    (hsplit : l.lookups = before ++ lookup :: after) {deliver : Option (Outcome → Code ω)}
    (hpurpose : lookup.purpose = .importing deliver) (next : Awaited Unit → Code ω) :
    Ready (l.leave world (before ++ after)) (.driving next :: stack) := by
  have hcount := waveLookups_leave world hsplit
  rw [hpurpose] at hcount
  have hleft : Ready (l.leave world (before ++ after)) stack :=
    h.change (h.tidy.congr rfl rfl rfl rfl) h.flawless rfl hcount.symm
  exact hleft.push rfl

end Taking

theorem Ready.sound_drive (h : Ready m.loader m.stack) (next : Awaited Unit → Code ω) :
    (m.drive p next).Sound := by
  rcases drive_cases p m next with
    ⟨-, heq⟩ | ⟨world, -, heq⟩ | ⟨world, before, lookup, after, -, hsplit, heq⟩
  all_goals rw [heq]
  · exact h.sound_start _
  · exact sound_start (m := m.update fun l ↦ { l with world }) (h.quiet (m.loader.quiet_world _)) _
  · cases hpurpose : lookup.purpose with
    | wave =>
      obtain ⟨wave, hengaged⟩ := h.takeWave world hsplit hpurpose next
      exact Engaged.sound_completeLookup p
        (m := (m.update (·.leave world (before ++ after))).push (.driving next)) hengaged hpurpose
    | importing deliver =>
      have hready := h.takeImport world hsplit hpurpose next
      exact sound_completeLookup p
        (m := (m.update (·.leave world (before ++ after))).push (.driving next)) hready hpurpose

/-! ## Dropping -/

theorem Ready.abort {l : Loader ω χ} {stack : List (Frame ω χ)} (htidy : l.Tidy)
    (hflawless : l.Flawless) (harranged : Arranged stack) (hidle : owed stack = 0)
    (error : LoaderError) : Ready (l.abort p error) stack := by
  obtain ⟨world, heq⟩ := l.abort_eq p error
  rw [heq]
  refine .drop (htidy.congr rfl rfl rfl rfl) ?_ harranged hidle rfl rfl
  rw [Flawless, abortJournal]
  split
  · exact hflawless.cons rfl rfl
  · exact hflawless

theorem Ready.release (h : Ready m.loader m.stack) : Ready (m.loader.release p) m.stack := by
  obtain ⟨world, heq⟩ := m.loader.release_eq p
  rw [heq]
  exact .drop (h.tidy.congr rfl rfl rfl rfl) (h.flawless.cons rfl rfl) h.arranged h.idle rfl rfl

theorem Ready.reset (h : Ready m.loader m.stack) :
    Ready { m.loader.record .reset with cache := {} } m.stack := by
  refine h.change ⟨fun hr ↦ ?_, fun hu ↦ ?_, h.tidy.dependencies, fun ho ↦ ?_⟩
    (h.flawless.cons rfl rfl) rfl rfl
  · cases hr
  · cases hu
  · cases ho

/-! ## Turns -/

variable {base : List (Frame ω χ)}

/-- A frame that has references to visit belongs to a wave, and the next of them is in hand. -/
theorem Sound.engaged_of_dispatching (h : m.Sound) {id : UnitId} {searcher : Operation}
    {reference : Reference} {rest : List Reference}
    (hs : m.stack = .dispatching id searcher (reference :: rest) :: base) (hfalls : ¬m.Falls) :
    ∃ wave, Engaged 1 m.loader (.dispatching id searcher rest :: base) wave := by
  have hbalanced := h.balances_of_not_falls hfalls
  have harranged := h.arranged
  rw [hs, arranged_dispatching] at harranged
  rw [hs, owed_cons, Frame.owed, List.length_cons, Balances] at hbalanced
  split at hbalanced
  case h_1 => omega
  case h_2 wave hactive =>
    refine ⟨wave, h.tidy, h.flawless, arranged_dispatching.mpr harranged, trivial, hactive, ?_⟩
    rw [hbalanced.1, owed_cons, Frame.owed]
    omega

theorem Sound.dispatchError (h : m.Sound) {error : LoaderError} {id : UnitId} {searcher : Operation}
    {rest : List Reference} (hs : m.stack = .dispatching id searcher rest :: base) :
    ({ m with stack := base }.throw error).Sound := by
  have harranged := h.arranged
  rw [hs, arranged_dispatching] at harranged
  refine ⟨h.tidy, h.flawless, harranged.2, fun hc ↦ (by cases hc), ?_⟩
  -- as long as there is a wave the error falls on to the frame that drops it
  cases hwave : m.loader.wave with
  | some wave =>
    refine .inl ⟨⟨error, rfl⟩, ?_, harranged.1⟩
    rw [throw, give, hwave]
    rfl
  | none =>
    have hbalanced := h.balances_of_not_falls fun hf ↦ by
      have := hf.2.1
      rw [hwave] at this
      cases this
    rw [Balances, hwave, hs, owed_cons] at hbalanced
    refine .inr ?_
    rw [Balances, throw, give, hwave]
    exact ⟨hbalanced.1, (Nat.add_eq_zero_iff.mp hbalanced.2).2⟩

/-- **A turn keeps a machine sound.** -/
theorem Sound.turn {m' : Machine ω χ} (h : m.Sound) (hturn : m.Turn p m') : m'.Sound := by
  cases hturn with
  | halted => exact h
  | code hcontrol hgrows => exact ((h.ready hcontrol).grows hgrows).sound
  | frame hcontrol hs hneutral hgrows =>
    have hready := h.ready_below hs (Frame.isDispatching_of_isNeutral hneutral)
      (not_falls_of_top hs (.inl hneutral))
    exact (Ready.grows (m := { m with stack := _ }) hready hgrows).sound
  | load hcontrol =>
    exact Ready.sound_loadDependencies p (m := m.push _) ((h.ready hcontrol).push rfl) _ _
  | importing hcontrol =>
    exact Ready.sound_importFile p (m := m.push _) ((h.ready hcontrol).push rfl) _ _ _
  | drive hcontrol => exact (h.ready hcontrol).sound_drive p _
  | reset hcontrol =>
    exact Ready.sound_start (m := { m with loader := _ }) (h.ready hcontrol).reset _
  | release hcontrol =>
    exact Ready.sound_start (m := { m with loader := _ }) ((h.ready hcontrol).release p) _
  | driveOn hcontrol hs =>
    have hready := h.ready_below hs rfl (not_falls_of_ok hcontrol)
    exact Ready.sound_drive p (m := { m with stack := _ }) hready _
  | driveError hcontrol hs =>
    have harranged := h.arranged
    rw [hs, arranged_cons rfl] at harranged
    exact Ready.sound_start (m := { m with stack := _, loader := _ })
      (.abort p h.tidy h.flawless harranged.2 harranged.1 _) _
  | @dispatch value id searcher rest base hcontrol hs =>
    have hfalls := not_falls_of_ok hcontrol
    cases rest with
    | nil =>
      -- a frame without references left owes nothing
      have hbalanced := h.balances_of_not_falls hfalls
      have harranged := h.arranged
      rw [hs, arranged_dispatching] at harranged
      rw [hs, owed_cons, Frame.owed, List.length_nil, Nat.zero_add] at hbalanced
      exact ⟨h.tidy, h.flawless, harranged.2, fun hc ↦ (by cases hc), .inr hbalanced⟩
    | cons reference rest =>
      obtain ⟨wave, hengaged⟩ := h.engaged_of_dispatching hs hfalls
      exact Engaged.sound_continueDispatching p (m := { m with stack := base }) hengaged
  | dispatchError hcontrol hs => exact h.dispatchError hs
  | drain hcontrol hs =>
    have hready := h.ready_below hs rfl (not_falls_of_ok hcontrol)
    exact Ready.sound_continueDraining (m := { m with stack := _ }) hready _ _ _
  | @drainError error id callbacks rest base hcontrol hs =>
    have hready := h.ready_below hs rfl (not_falls_of_top hs (.inr ⟨_, _, _, rfl⟩))
    have hquiet := m.loader.quiet_endImports p (callbacks.countP Callback.isImport)
    exact Ready.sound_throw (m := { m with stack := base, loader := _ }) (hready.quiet hquiet) _
  | arrive hcontrol hs =>
    exact Ready.sound_done (m := { m with stack := _ })
      (h.ready_below hs rfl (not_falls_of_ok hcontrol))
  | abort hcontrol hs =>
    have harranged := h.arranged
    rw [hs, arranged_cons rfl] at harranged
    exact Ready.sound_throw (m := { m with stack := _, loader := _ })
      (.abort p h.tidy h.flawless harranged.2 harranged.1 _) _

/-! ## Runs -/

theorem sound_of_fresh {l : Loader ω χ} (h : l.IsFresh) (code : Code ω) :
    ({ loader := l, control := .running code } : Machine ω χ).Sound := by
  have htidy : l.Tidy :=
    { result := by simp [h.cache]
      unit := by simp [h.cache]
      dependencies := by simp [h.standing?]
      bound := by simp [OperationsBound, h.cache] }
  have hflawless : l.Flawless := by simp [Flawless, h.journal]
  have hready : Ready l [] := .drop htidy hflawless trivial rfl h.wave h.lookups
  exact hready.sound

theorem Reachable.run (h : m.Reachable p) (fuel : Nat) : (m.run p fuel).Reachable p := by
  induction fuel generalizing m with
  | zero => exact h
  | succ fuel ih =>
    rw [Machine.run]
    split
    · exact h
    · exact ih h.step

theorem not_falls_of_nil (hs : m.stack = []) : ¬m.Falls := by
  rintro ⟨-, -, hcatching⟩
  rw [hs] at hcatching
  exact hcatching

theorem Sound.ready_of_nil (h : m.Sound) (hs : m.stack = []) : Ready m.loader m.stack := by
  have hbalanced := h.balances_of_not_falls (not_falls_of_nil hs)
  rw [hs] at hbalanced
  exact ⟨h.tidy, h.flawless, h.arranged, by rw [hs]; rfl, hbalanced⟩

/-- **Every machine that can be reached is sound.** -/
theorem Reachable.sound (h : m.Reachable p) : m.Sound := by
  induction h with
  | start fresh code => exact sound_of_fresh fresh code
  | step _ ih => exact ih.turn p (step_turn p _)
  | again _ hhalted code ih =>
    -- with nothing on the stack, even after an error the balance holds
    obtain ⟨outcome, -, hs⟩ := exists_of_isHalted hhalted
    exact (ih.ready_of_nil hs).sound_start code

/-- **A wave counts its lookups.** Whenever no call of the loader is on the stack, and also whenever
code runs, an active wave counts the lookups under way for it, of which there is at least one, and
without a wave there is none. It was never the case that a reference was settled when none was left,
or a unit arrived when no wave was active. -/
theorem Reachable.wave_counts (h : m.Reachable p) :
    ((m.stack = [] ∨ ∃ code, m.control = .running code) →
      match m.loader.wave with
      | some wave => wave.outstanding = m.loader.waveLookups ∧ 0 < wave.outstanding
      | none => m.loader.waveLookups = 0) ∧
    (∀ before, .settled before ∈ m.loader.journal → ∃ count, before = some (count + 1)) ∧
    ∀ id, .turnedAway id ∉ m.loader.journal := by
  have hsound := h.sound p
  refine ⟨fun hcalm ↦ ?_, fun before hmem ↦ ?_, fun id hmem ↦ ?_⟩
  · have hbalanced : m.loader.Balances 0 := by
      rcases hcalm with hempty | ⟨code, hcode⟩
      · exact (hsound.ready_of_nil hempty).balanced
      · exact (hsound.ready hcode).balanced
    rw [Balances] at hbalanced
    split at hbalanced
    case h_1 hwave => rw [hwave]; exact hbalanced.1
    case h_2 wave hwave => rw [hwave]; exact hbalanced
  · have hslip := hsound.flawless _ hmem
    rcases before with _ | _ | count
    · cases hslip
    · cases hslip
    · exact ⟨count, rfl⟩
  · exact absurd (hsound.flawless _ hmem) (by simp [Event.isSlip])

/-- One of two files that refer to each other is being loaded: the other is looked up. -/
def loadingPair : Machine (List Request) Unit :=
  let load : Code (List Request) := .openUnit (.file "/a".toList) fun
    | .settled (.ok id) => .loadDependencies id none fun _ ↦ .finish (.ok .undefined)
    | _ => .finish (.ok .undefined)
  run (Project.pair.platform List.head?) 12
    { loader := { world := [], base := .file "/".toList }, control := .running load }

theorem wave_counts_loadingPair :
    loadingPair.stack = [] ∧ loadingPair.loader.wave = some ⟨[0], 1⟩ ∧
      loadingPair.loader.waveLookups = 1 := by
  have hreachable : loadingPair.Reachable (Project.pair.platform List.head?) :=
    (Reachable.start (isFresh_mk _ _) _).run _ 12
  have hstack : loadingPair.stack = [] := by
    rw [← List.isEmpty_iff]
    decide +kernel
  have hwave : loadingPair.loader.wave = some ⟨[0], 1⟩ := by decide +kernel
  have hcounts := (Reachable.wave_counts _ hreachable).1 (.inl hstack)
  rw [hwave] at hcounts
  exact ⟨hstack, hwave, hcounts.1.symm⟩

end Machine

end ScriptLoader
