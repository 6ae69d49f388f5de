import ScriptLoader.Proofs.Bounded
import ScriptLoader.Proofs.Handling

/-!
# Whom a failed search blames

A lookup for the wave carries the reference that is looked up and the file that asked for it. By the
time it completes without a result, other units have joined, callbacks have run and what was
remembered may have been forgotten. The report is right all the same: the file it names belongs to
the wave and declares the reference as it is reported.

## The invariant

Lookups for the wave are started from frames that visit the references of a unit. As long as such a
frame has references left, its unit belongs to the active wave, and units keep what they declare.
Participants only ever join. When a wave ends, no lookup for it and no reference to visit is left,
since the count of a wave is right, so nothing is carried over to the next one.
-/

namespace ScriptLoader

variable {ω χ : Type}

namespace Loader

/-- What is looked up has been asked for by a unit of the active wave, which declares it. -/
structure Asks (l : Loader ω χ) (id : UnitId) (unit : LoadedUnit ω χ) (reference : Reference)
    (lookup : Lookup ω) : Prop where
  joined : id ∈ l.participants
  known : l.unit? id = some unit
  declared : reference ∈ unit.info.dependencies
  origin : lookup.origin = some unit.info.url
  locator : lookup.locator = reference.locator
  key : lookup.key = unit.info.key reference

/-- What is looked up has been asked for. -/
def Asked (l : Loader ω χ) (lookup : Lookup ω) : Prop :=
  ∃ id unit reference, l.Asks id unit reference lookup

/-- What has been asked for stays so while units keep what they declare and stay in the wave. -/
theorem Asked.mono {l l' : Loader ω χ} {lookup : Lookup ω} (h : l.Asked lookup)
    (hkeeps : l.Keeps l') (hjoined : l.participants ⊆ l'.participants) : l'.Asked lookup := by
  obtain ⟨id, unit, reference, hasks⟩ := h
  obtain ⟨s', hs', hurl, hdirectory, hdependencies⟩ := hkeeps (standing?_of_unit? hasks.known)
  obtain ⟨unit', hunit', rfl⟩ := standing?_eq_some.mp hs'
  have hdeclared : unit'.info.dependencies = unit.info.dependencies := hdependencies
  have hkey : unit'.info.key reference = unit.info.key reference :=
    congrArg (fun directory : Url ↦ reference.key directory.text) hdirectory
  exact ⟨id, unit', reference,
    { joined := hjoined hasks.joined
      known := hunit'
      declared := hdeclared ▸ hasks.declared
      origin := hasks.origin.trans (congrArg some hurl.symm)
      locator := hasks.locator
      key := hasks.key.trans hkey.symm }⟩

end Loader

open Loader

/-- Every lookup for the wave has been asked for, and units that have references to visit have
joined. -/
structure Attributed (l : Loader ω χ) (stack : List (Frame ω χ)) : Prop where
  lookups : ∀ lookup ∈ l.lookups, lookup.purpose = .wave → l.Asked lookup
  visits : ∀ {id searcher reference rest},
    .dispatching id searcher (reference :: rest) ∈ stack → id ∈ l.participants

namespace Attributed

variable {l l' : Loader ω χ} {stack stack' : List (Frame ω χ)}

theorem mono (h : Attributed l stack) (hkeeps : l.Keeps l')
    (hjoined : l.participants ⊆ l'.participants) (hlookups : l'.lookups ⊆ l.lookups) :
    Attributed l' stack where
  lookups lookup hlookup hpurpose :=
    (h.lookups lookup (hlookups hlookup) hpurpose).mono hkeeps hjoined
  visits hframe := hjoined (h.visits hframe)

theorem calm (h : Attributed l stack) (hcalm : l.Calm l') (hlookups : l'.lookups ⊆ l.lookups) :
    Attributed l' stack :=
  h.mono (fun _ s hs ↦ ⟨s, hcalm.known hs, rfl, rfl, rfl⟩)
    (by rw [hcalm.participants]; exact List.Subset.refl _) hlookups

theorem quiet (h : Attributed l stack) (hquiet : l.Quiet l') : Attributed l' stack :=
  h.calm (.of_quiet hquiet) (by rw [hquiet.lookups]; exact List.Subset.refl _)

theorem below (h : Attributed l stack) (hsub : stack' ⊆ stack) : Attributed l stack' :=
  ⟨h.lookups, fun hframe ↦ h.visits (hsub hframe)⟩

/-- Frames may be pushed whose units have joined if they have references to visit. -/
theorem pushAll (h : Attributed l stack) (frames : List (Frame ω χ))
    (hframes : ∀ {id searcher reference rest},
      .dispatching id searcher (reference :: rest) ∈ frames → id ∈ l.participants) :
    Attributed l (frames ++ stack) where
  lookups := h.lookups
  visits hframe := (List.mem_append.mp hframe).elim hframes h.visits

theorem push (h : Attributed l stack) (frame : Frame ω χ) (hframe : frame.isDispatching = false) :
    Attributed l (frame :: stack) := by
  refine h.pushAll [frame] fun hmem ↦ ?_
  rw [← List.mem_singleton.mp hmem] at hframe
  cases hframe

theorem grows {m m' : Machine ω χ} {popped : List (Frame ω χ)} (h : Attributed m.loader m.stack)
    (hgrows : m.Grows popped m') : Attributed m'.loader m'.stack := by
  obtain ⟨hquiet, pushed, hstack, hneutral, -⟩ := hgrows
  rw [hstack]
  refine (h.quiet hquiet).pushAll pushed fun hframe ↦ ?_
  cases hneutral _ hframe

end Attributed

namespace Machine

variable {m m' : Machine ω χ}

/-- The wave is over, or its lookups have been asked for. -/
def Credits (m : Machine ω χ) : Prop := m.loader.wave = none ∨ Attributed m.loader m.stack

/-- When the wave is over, no lookup for it is left and no reference is to be visited. -/
theorem Sound.attributed (h : m.Sound) (hwave : m.loader.wave = none) :
    Attributed m.loader m.stack := by
  have hfalls : ¬m.Falls := by
    rintro ⟨-, hsome, -⟩
    rw [hwave] at hsome
    cases hsome
  have hbalanced := h.balances_of_not_falls hfalls
  rw [Balances, hwave] at hbalanced
  obtain ⟨hlookups, howed⟩ := hbalanced
  refine ⟨fun lookup hlookup hpurpose ↦ ?_, fun hframe ↦ ?_⟩
  · have hnot := List.countP_eq_zero.mp hlookups lookup hlookup
    rw [hpurpose] at hnot
    exact absurd rfl hnot
  · have hzero := List.sum_eq_zero_iff_forall_eq_nat.mp howed _ (List.mem_map_of_mem hframe)
    cases hzero

/-! ## The functions of the loader -/

theorem wave_closeWave (m : Machine ω χ) : m.closeWave.loader.wave = none := by
  cases hwave : m.loader.wave with
  | none =>
    rw [closeWave, hwave]
    exact hwave
  | some wave =>
    rw [closeWave_eq hwave]
    exact m.loader.wave_close wave

/-- A unit that joins may have references to visit. -/
theorem credits_join (h : Attributed m.loader m.stack) (id : UnitId) : (m.join id).Credits := by
  cases hwave : m.loader.wave with
  | none =>
    rw [join, hwave]
    exact .inl hwave
  | some wave =>
    cases hs : m.loader.standing? id with
    | none =>
      rw [join, hwave, standing?_eq_none.mp hs]
      exact .inr h
    | some s =>
      rw [join_eq hwave hs]
      have hjoined : m.loader.participants ⊆
          (m.loader.enroll wave id s.dependencies).participants := by
        rw [participants_of_wave hwave]
        exact List.subset_append_left _ _
      have henrolled := (h.mono (m.loader.keeps_enroll wave id s.dependencies) hjoined
        (List.Subset.refl _)).quiet (quiet_operation _ .searcher s.directory)
      refine .inr (henrolled.pushAll [_] fun hframe ↦ ?_)
      obtain ⟨rfl, -, -⟩ := Frame.dispatching.inj (List.mem_singleton.mp hframe)
      rw [(Calm.of_quiet (quiet_operation _ .searcher s.directory)).participants]
      exact List.mem_append_right _ (List.mem_singleton_self _)

theorem credits_searchFinished (h : Attributed m.loader m.stack) (id : UnitId) :
    (m.searchFinished id).Credits := by
  have hsettled : Attributed m.loader.settleOne.1 m.stack :=
    h.calm m.loader.calm_settleOne m.loader.bides_settleOne.lookups.subset
  rw [searchFinished]
  dsimp only
  split
  · exact .inr hsettled
  · split
    · exact credits_join (m := { m with loader := m.loader.settleOne.1 }) hsettled id
    · split
      · exact .inl (wave_closeWave _)
      · exact .inr hsettled

theorem attributed_callBack (h : Attributed m.loader m.stack) (id : UnitId)
    (callback : Callback ω) :
    Attributed (m.callBack id callback).loader (m.callBack id callback).stack := by
  cases callback with
  | code code => exact h
  | importing deliver =>
    have hpushed : Attributed (m.push (.delivering deliver)).loader
        (m.push (.delivering deliver)).stack := h.push _ rfl
    exact hpushed.grows (grows_execute [] _ id)

variable (p : Platform ω χ)

theorem credits_loadDependencies (h : Attributed m.loader m.stack) (id : UnitId)
    (callback : Option (Callback ω)) : (m.loadDependencies p id callback).Credits := by
  cases hs : m.loader.standing? id with
  | none =>
    rw [loadDependencies_unknown p hs]
    exact .inr h
  | some s =>
    rw [loadDependencies_eq p hs]
    cases hstatus : s.status with
    | loaded =>
      cases callback with
      | none => exact .inr h
      | some callback =>
        have hrecorded := h.calm (m.loader.calm_record (e := .delivered id) rfl)
          (List.Subset.refl _)
        exact .inr (attributed_callBack (m := m.update (·.record (.delivered id))) hrecorded id
          callback)
    | loading => exact .inr (h.mono (m.loader.keeps_await id callback) (List.Subset.refl _)
        (List.Subset.refl _))
    | unloaded =>
      dsimp only
      split
      case isTrue => exact .inr (h.quiet (m.loader.quiet_endImports p _))
      case isFalse hwave =>
        -- there was no wave, so the new one inherits nothing
        have hnone : m.loader.participants = [] := by
          rw [Loader.participants, Option.not_isSome_iff_eq_none.mp hwave]
          rfl
        have hbegun : Attributed (m.loader.beginWave id callback) m.stack :=
          h.mono (m.loader.keeps_await id callback) (by rw [hnone]; exact List.nil_subset _)
            (List.Subset.refl _)
        exact credits_join (m := (m.update (·.beginWave id callback)).push .aborting)
          (hbegun.push _ rfl) id

theorem credits_continueSearch (h : Attributed m.loader m.stack) (id : UnitId)
    (purpose : Purpose ω) : (m.continueSearch p id purpose).Credits := by
  cases purpose with
  | wave => exact credits_searchFinished h id
  | importing deliver => exact credits_loadDependencies p h id (some (.importing deliver))

/-- A search for the wave may start a lookup, which must have been asked for. -/
theorem credits_search (h : Attributed m.loader m.stack) (searcher : Operation)
    (reference : Reference) (origin : Option Url) (purpose : Purpose ω)
    (hasked : purpose = .wave → ∀ ticket, m.loader.Asked
      ⟨ticket, reference.key searcher.context.text, reference.locator, origin, purpose⟩) :
    (m.search p searcher reference origin purpose).Credits := by
  rcases search_cases p m searcher reference origin purpose with
    ⟨id, -, heq⟩ | ⟨-, ⟨cause, -, heq⟩ | ⟨request, -, heq⟩⟩
  all_goals rw [heq]
  · exact credits_continueSearch p h id purpose
  · exact .inr (h.quiet (m.loader.quiet_endImports p _))
  · refine .inr ⟨fun lookup hlookup hpurpose ↦ ?_, h.visits⟩
    have hstays {started : Lookup ω} (hstarted : m.loader.Asked lookup) (world : ω) :
        (m.loader.enlist world request started).Asked lookup :=
      hstarted.mono (Quiet.refl _).keeps (List.Subset.refl _)
    rcases List.mem_append.mp hlookup with hold | hnew
    · exact hstays (h.lookups lookup hold hpurpose) _
    · cases List.mem_singleton.mp hnew
      exact hstays (hasked hpurpose _) _

theorem credits_continueDispatching (h : Attributed m.loader m.stack) {id : UnitId}
    {searcher : Operation} {rest : List Reference} (hdeclares : m.loader.Declares id searcher rest)
    (hjoined : rest ≠ [] → id ∈ m.loader.participants) :
    (m.continueDispatching p id searcher rest).Credits := by
  cases rest with
  | nil => exact .inr h
  | cons reference rest =>
    have hid := hjoined (List.cons_ne_nil _ _)
    have hpushed : Attributed m.loader (.dispatching id searcher rest :: m.stack) := by
      refine h.pushAll [_] fun hframe ↦ ?_
      cases List.mem_singleton.mp hframe
      exact hid
    by_cases hmarked : reference.key searcher.context.text ∈ m.loader.cache.markers
    · rw [continueDispatching]
      have hloader : (m.push (.dispatching id searcher rest)).loader = m.loader := rfl
      rw [hloader, if_pos ((m.loader.cache.isMarked_iff _).mpr hmarked)]
      dsimp only
      split
      · exact .inl (wave_closeWave _)
      · exact .inr (hpushed.calm m.loader.calm_settleOne
          m.loader.bides_settleOne.lookups.subset)
    · rw [continueDispatching_unmarked p m id rest hmarked]
      refine credits_search p (m := (m.push (.dispatching id searcher rest)).update (·.ask _))
        (hpushed.calm (m.loader.calm_ask _) (List.Subset.refl _)) searcher reference _ _
        fun _ ticket ↦ ?_
      obtain ⟨s, hs, hreferences, hcontext⟩ := hdeclares
      obtain ⟨unit, hunit, rfl⟩ := standing?_eq_some.mp hs
      exact ⟨id, unit, reference,
        { joined := hid
          known := hunit
          declared := hreferences reference List.mem_cons_self
          origin := by rw [hunit]; rfl
          locator := rfl
          key := congrArg reference.key hcontext }⟩

theorem credits_importFile (h : Attributed m.loader m.stack) (importer : Operation)
    (reference : Reference) (deliver : Option (Outcome → Code ω)) :
    (m.importFile p importer reference deliver).Credits := by
  obtain ⟨l, searcher, origin, hquiet, heq⟩ := importFile_eq p m importer reference deliver
  rw [heq]
  exact credits_search p (m := { m with loader := l }) (h.quiet hquiet) searcher reference origin _
    fun hpurpose ↦ by cases hpurpose

theorem credits_completeLookup (h : Attributed m.loader m.stack) (lookup : Lookup ω) :
    (m.completeLookup p lookup).Credits := by
  have hnoted (world : ω) (answer : Except LoaderError (Option Resource)) :
      Attributed ({ m.loader with world }.noteFound lookup.key answer) m.stack :=
    h.calm (m.loader.calm_noteFound world lookup.key answer)
      (by rw [lookups_noteFound]; exact List.Subset.refl _)
  rcases completeLookup_cases p m lookup with
    ⟨l, e, hquiet, heq⟩ | ⟨l, id, resource, -, hquiet, -, heq⟩
  all_goals
    rw [heq]
    have hmade := (hnoted _ _).quiet hquiet
  · exact .inr (hmade.quiet (l.quiet_endImports p _))
  · exact credits_continueSearch p
      (m := { m with loader := { l with cache := l.cache.insertResult lookup.key id } })
      (hmade.calm (l.calm_cache _) (List.Subset.refl _)) id lookup.purpose

theorem credits_drive (h : Attributed m.loader m.stack) (next : Awaited Unit → Code ω) :
    (m.drive p next).Credits := by
  rcases drive_cases p m next with
    ⟨-, heq⟩ | ⟨world, -, heq⟩ | ⟨world, before, lookup, after, -, hsplit, heq⟩
  all_goals rw [heq]
  · exact .inr h
  · exact .inr (h.quiet (m.loader.quiet_world world))
  · have hsub : before ++ after ⊆ m.loader.lookups := by
      rw [hsplit]
      exact ((List.sublist_cons_self lookup after).append_left before).subset
    exact credits_completeLookup p
      (m := (m.update (·.leave world (before ++ after))).push (.driving next))
      ((h.calm (m.loader.calm_leave _ _) hsub).push _ rfl) lookup

theorem attributed_continueDraining (h : Attributed m.loader m.stack) (id : UnitId)
    (callbacks : List (Callback ω)) (rest : List UnitId) :
    Attributed (m.continueDraining id callbacks rest).loader
      (m.continueDraining id callbacks rest).stack := by
  cases callbacks with
  | cons callback callbacks =>
    have hrecorded := (h.push (.draining id callbacks rest) rfl).calm
      (m.loader.calm_record (e := .delivered id) rfl) (List.Subset.refl _)
    exact attributed_callBack (m := (m.push (.draining id callbacks rest)).update
      (·.record (.delivered id))) hrecorded id callback
  | nil =>
    cases rest with
    | nil => exact h
    | cons next rest =>
      have htaken := h.mono (m.loader.keeps_modifyCallbacks next fun _ ↦ []) (List.Subset.refl _)
        (List.Subset.refl _)
      exact htaken.push _ rfl

/-! ## Turns -/

/-- **A turn credits the lookups that it starts.** -/
theorem credits_turn (h : Attributed m.loader m.stack) (hfits : m.scene.Fits)
    (hturn : m.Turn p m') : m'.Credits := by
  have hbelow {frame : Frame ω χ} {base : List (Frame ω χ)} (hs : m.stack = frame :: base) :
      Attributed m.loader base :=
    h.below (by rw [hs]; exact List.subset_cons_self _ _)
  cases hturn with
  | halted => exact .inr h
  | code _ hgrows => exact .inr (h.grows hgrows)
  | @frame outcome frame base _ _ hs _ hgrows =>
    exact .inr (Attributed.grows (m := { m with stack := base }) (hbelow hs) hgrows)
  | load => exact credits_loadDependencies p (m := m.push _) (h.push _ rfl) _ _
  | importing => exact credits_importFile p (m := m.push _) (h.push _ rfl) _ _ _
  | drive => exact credits_drive p h _
  | reset =>
    exact .inr (h.calm ((m.loader.calm_record (e := .reset) rfl).trans (calm_cache _ _))
      (List.Subset.refl _))
  | release =>
    obtain ⟨world, heq⟩ := m.loader.release_eq p
    exact .inl (by rw [heq]; rfl)
  | @driveOn value next base _ hs =>
    exact credits_drive p (m := { m with stack := base }) (hbelow hs) next
  | @driveError error =>
    obtain ⟨world, heq⟩ := m.loader.abort_eq p error
    exact .inl (congrArg Loader.wave heq)
  | @dispatch value id searcher rest base _ hs =>
    have hframe : .dispatching id searcher rest ∈ m.stack := hs ▸ List.mem_cons_self
    refine credits_continueDispatching p (m := { m with stack := base }) (hbelow hs)
      (hfits.declares hframe) fun hne ↦ ?_
    obtain ⟨reference, rest, rfl⟩ := List.exists_cons_of_ne_nil hne
    exact h.visits hframe
  | dispatchError _ hs => exact .inr (hbelow hs)
  | @drain value id callbacks rest base _ hs =>
    exact .inr (attributed_continueDraining (m := { m with stack := base }) (hbelow hs) id callbacks
      rest)
  | drainError _ hs => exact .inr ((hbelow hs).quiet (m.loader.quiet_endImports p _))
  | arrive _ hs => exact .inr (hbelow hs)
  | @abort error =>
    obtain ⟨world, heq⟩ := m.loader.abort_eq p error
    exact .inl (congrArg Loader.wave heq)

/-- Every lookup for the wave has been asked for by a unit of the wave. -/
theorem Reachable.attributed (h : m.Reachable p) : Attributed m.loader m.stack := by
  induction h with
  | start fresh code =>
    refine ⟨fun lookup hlookup ↦ ?_, fun hframe ↦ by cases hframe⟩
    rw [fresh.lookups] at hlookup
    cases hlookup
  | step hm ih =>
    rcases credits_turn p ih (hm.fits) (step_turn p _) with hwave | hattributed
    · exact (Reachable.sound p hm.step).attributed hwave
    · exact hattributed
  | again _ _ _ ih => exact ih

/-! ## Failures -/

variable {p} {base : List (Frame ω χ)} {next : Awaited Unit → Code ω} {lookup : Lookup ω}
  {world : ω}

/-- Code on a stack is about to have the next lookup completed. -/
inductive IsAwaiting (next : Awaited Unit → Code ω) (base : List (Frame ω χ)) :
    Machine ω χ → Prop
  | begin (l : Loader ω χ) : IsAwaiting next base ⟨l, .running (.drive next), base⟩
  | goOn (l : Loader ω χ) (value : Value) :
      IsAwaiting next base ⟨l, .returning (.ok value), .driving next :: base⟩

theorem exists_isAwaiting (h : m.drives = true) : ∃ next base, m.IsAwaiting next base := by
  obtain ⟨l, control, stack⟩ := m
  rw [drives] at h
  split at h
  case h_1 next hcontrol =>
    cases hcontrol
    exact ⟨next, stack, .begin l⟩
  case h_2 value next base hcontrol hstack =>
    cases hcontrol
    cases hstack
    exact ⟨next, base, .goOn l value⟩
  case h_3 => cases h

theorem IsAwaiting.step (h : m.IsAwaiting next base) :
    m.step p = ({ m with stack := base } : Machine ω χ).drive p next := by
  cases h with
  | begin l => rfl
  | goOn l value => rfl

/-- A lookup for the wave is completed next and finds nothing; the world afterwards. -/
structure FindsNothing (p : Platform ω χ) (m : Machine ω χ) (lookup : Lookup ω) (world : ω) :
    Prop where
  next : m.loader.nextLookup? p = some lookup
  purpose : lookup.purpose = .wave
  answer : p.resolver.answer
    (p.resolver.next? m.loader.world (m.loader.lookups.map (·.ticket))).1 lookup.ticket
      = (world, .ok none)

theorem completeLookup_of_nothing
    (hanswer : p.resolver.answer m.loader.world lookup.ticket = (world, .ok none)) :
    m.completeLookup p lookup =
      { m with loader := { m.loader with world } }.failSearch p lookup.purpose
        (({ m.loader with world } : Loader ω χ).notFound p lookup.locator lookup.origin) := by
  rw [completeLookup]
  simp only [hanswer]
  rfl

/-- The code that drives hears of the failure in two steps. -/
theorem IsAwaiting.step_step_of_findsNothing (h : m.IsAwaiting next base)
    (hfinds : m.FindsNothing p lookup world) :
    ∃ l, (m.step p).step p = ⟨l, .running (next (.settled (.error (.resolutionFailure
      lookup.locator (lookup.origin.map Url.text)
        ((p.resolver.includePaths world).map Url.text))))), base⟩ := by
  obtain ⟨picked, before, after, rfl, -, heq⟩ :=
    drive_of_nextLookup? (m := { m with stack := base }) hfinds.next next
  rw [h.step, heq, completeLookup_of_nothing hfinds.answer]
  exact ⟨_, rfl⟩

/-- **A failed search blames the file that asked.** Whatever has been completed, imported, dropped
or forgotten, every lookup for the wave is for a reference that a unit of the wave declares: it has
the URL of this unit as its origin, the locator as it is declared, and the key that the reference
has there. So when driving ends because such a lookup finds nothing, the failure names this file,
this locator and the include paths of the resolver. -/
theorem Reachable.blames (h : m.Reachable p) :
    (∀ lookup ∈ m.loader.lookups, lookup.purpose = .wave →
      ∃ id unit reference, m.loader.Asks id unit reference lookup) ∧
    ∀ {next base lookup world}, m.IsAwaiting next base → m.FindsNothing p lookup world →
      ∃ id unit reference, m.loader.Asks id unit reference lookup ∧
        ∃ l, (m.step p).step p = ⟨l, .running (next (.settled (.error (.resolutionFailure
          reference.locator (some unit.info.url.text)
            ((p.resolver.includePaths world).map Url.text))))), base⟩ := by
  have hattributed := (Reachable.attributed p h).lookups
  refine ⟨hattributed, fun {next base lookup world} hawaiting hfinds ↦ ?_⟩
  obtain ⟨ticket, -, hfound⟩ := Option.bind_eq_some_iff.mp hfinds.next
  obtain ⟨id, unit, reference, hasks⟩ :=
    hattributed lookup (List.mem_of_find?_eq_some hfound) hfinds.purpose
  obtain ⟨l, heq⟩ := hawaiting.step_step_of_findsNothing hfinds
  rw [hasks.locator, hasks.origin] at heq
  exact ⟨id, unit, reference, hasks, l, heq⟩

def openDiamond : Platform (List Request) Unit :=
  (Project.diamond.restrict (["/a", "/b", "/c"].map fun path ↦ .file path.toList)).platform
    List.head?

/-- The last file of the diamond is looked up. Two files have asked for it by now. -/
def seekingCorner : Machine (List Request) Unit :=
  let load : Code (List Request) := .openUnit (.file "/a".toList) fun
    | .settled (.ok id) =>
      .loadDependencies id none fun _ ↦ .drive fun _ ↦ .finish (.ok .undefined)
    | _ => .finish (.ok .undefined)
  run openDiamond 14
    { loader := { world := [], base := .file "/".toList }, control := .running load }

/-- The file that asked first is blamed. -/
theorem blames_seekingCorner :
    ∃ next base l, seekingCorner.IsAwaiting next base ∧
      (seekingCorner.step openDiamond).step openDiamond
        = ⟨l, .running (next (.settled (.error (.resolutionFailure "d" (some "file:///b") [])))),
            base⟩ := by
  have hreachable : seekingCorner.Reachable openDiamond :=
    (Reachable.start (isFresh_mk _ _) _).run _ 14
  obtain ⟨next, base, hawaiting⟩ := exists_isAwaiting (m := seekingCorner) (by decide +kernel)
  have hseen : (seekingCorner.loader.nextLookup? openDiamond).map
      (fun lookup ↦ (lookup.ticket, lookup.locator, lookup.origin.map Url.text,
        lookup.purpose.isImport)) = some (3, "d", some "file:///b", false) := by decide +kernel
  obtain ⟨⟨ticket, key, locator, origin, purpose⟩, hnext, hlookup⟩ :=
    Option.map_eq_some_iff.mp hseen
  obtain ⟨rfl, rfl, horigin, hwave⟩ :
      ticket = 3 ∧ locator = "d" ∧ origin.map Url.text = some "file:///b" ∧
        purpose.isImport = false := by simpa using hlookup
  cases purpose with
  | importing deliver => cases hwave
  | wave =>
    have hanswer : openDiamond.resolver.answer seekingCorner.loader.world 3
        = (seekingCorner.loader.world, .ok none) := by decide +kernel
    obtain ⟨id, unit, reference, hasks, l, heq⟩ :=
      (Reachable.blames hreachable).2 hawaiting ⟨hnext, rfl, hanswer⟩
    have hurl : unit.info.url.text = "file:///b" := by
      have horigin' : origin = some unit.info.url := hasks.origin
      rw [horigin'] at horigin
      exact Option.some.inj horigin
    have hlocator : reference.locator = "d" := hasks.locator.symm
    rw [hlocator, hurl] at heq
    exact ⟨next, base, l, hawaiting, heq⟩

end Machine

end ScriptLoader
