import ScriptLoader.Proofs.Journal

/-!
# What a step does to callbacks

Callbacks wait for units while a wave is active, and are called when it is closed. Most of what a
loader does leaves them alone: it is *calm*. Apart from that a callback comes to wait, a wave is
begun, joined, closed or dropped, and the closing of a wave calls the callbacks of one unit after
the other. `Machine.step_handles` says so once and for all.

Every callback that comes to wait has been *given*: by code that loads the unit, or by an import
that has found it.

## Drains

A closed wave whose callbacks are being called is a *drain*. There can be several at once, one in a
callback of the other, and the innermost comes first.
-/

namespace ScriptLoader

variable {ω χ : Type}

/-- A closed wave whose callbacks are being called: those that are left of one unit, and the units
that come after. -/
structure Drain (ω : Type) where
  unit : UnitId
  callbacks : List (Callback ω)
  rest : List UnitId

def Frame.drain? : Frame ω χ → Option (Drain ω)
  | draining unit callbacks rest => some ⟨unit, callbacks, rest⟩
  | _ => none

theorem Frame.drain?_of_isNeutral {frame : Frame ω χ} (h : frame.isNeutral = true) :
    frame.drain? = none := by
  cases frame <;> first | rfl | cases h

/-- The drain that the closing of a wave begins with, unless nobody has joined. -/
def Drain.opening : List UnitId → List (Drain ω)
  | [] => []
  | first :: rest => [⟨first, [], first :: rest⟩]

/-- The waves that have been closed, the latest first. -/
def Journal.waves (journal : List Event) : List (List UnitId) :=
  journal.filterMap fun
    | .closed participants => some participants
    | _ => none

namespace Journal

theorem mem_waves {journal : List Event} {participants : List UnitId} :
    participants ∈ waves journal ↔ .closed participants ∈ journal := by
  rw [waves, List.mem_filterMap]
  constructor
  · rintro ⟨e, he, heq⟩
    cases e <;> cases heq
    exact he
  · exact fun h ↦ ⟨_, h, rfl⟩

theorem waves_append {events journal : List Event} (h : ∀ e ∈ events, e.endsWave = false) :
    waves (events ++ journal) = waves journal := by
  rw [waves, List.filterMap_append, List.filterMap_eq_nil_iff.mpr, List.nil_append, waves]
  intro e he
  have := h e he
  cases e <;> first | rfl | cases this

end Journal

namespace Loader

open Journal

/-- The units of the active wave, in the order in which they joined. -/
def participants (l : Loader ω χ) : List UnitId := (l.wave.map (·.participants)).getD []

/-- The callbacks that wait for a unit, the oldest first. -/
def queue (l : Loader ω χ) (id : UnitId) : List (Callback ω) :=
  ((l.unit? id).map (·.callbacks)).getD []

theorem participants_of_wave {l : Loader ω χ} {wave : Wave} (h : l.wave = some wave) :
    l.participants = wave.participants := by
  rw [participants, h]
  rfl

theorem queue_of_standing? {l : Loader ω χ} {id : UnitId} {s : Standing ω}
    (h : l.standing? id = some s) : l.queue id = s.callbacks := by
  obtain ⟨unit, hunit, rfl⟩ := standing?_eq_some.mp h
  rw [queue, hunit]
  rfl

theorem queue_of_unknown {l : Loader ω χ} {id : UnitId} (h : l.standing? id = none) :
    l.queue id = [] := by
  rw [queue, standing?_eq_none.mp h]
  rfl

theorem queue_congr {l l' : Loader ω χ} (h : l'.units = l.units) (id : UnitId) :
    l'.queue id = l.queue id := by
  rw [queue, unit?, h, ← unit?, ← queue]

/-! ## Calm changes -/

/-- A change that leaves the callbacks and the waves alone. -/
structure Calm (l l' : Loader ω χ) : Prop where
  participants : l'.participants = l.participants
  /-- Units keep their standing. -/
  known : ∀ {id s}, l.standing? id = some s → l'.standing? id = some s
  /-- Any other unit is new. -/
  fresh : ∀ {id s}, l'.standing? id = some s →
    l.standing? id = some s ∨ l.standing? id = none ∧ s.IsNew
  journal : ∃ events, l'.journal = events ++ l.journal ∧ ∀ e ∈ events, e.endsWave = false

namespace Calm

variable {l l' l'' : Loader ω χ}

theorem of_quiet (h : l.Quiet l') : l.Calm l' where
  participants := by rw [Loader.participants, h.wave, Loader.participants]
  known := h.known
  fresh := h.fresh
  journal := by
    obtain ⟨events, heq, hquiet⟩ := h.journal
    exact ⟨events, heq, fun e he ↦ Event.not_endsWave (Event.not_concernsWaves (hquiet e he))⟩

theorem of_units (hunits : l'.units = l.units) (hparticipants : l'.participants = l.participants)
    (hjournal : ∃ events, l'.journal = events ++ l.journal ∧ ∀ e ∈ events, e.endsWave = false) :
    l.Calm l' where
  participants := hparticipants
  known h := (standing?_congr hunits _).trans h
  fresh h := .inl ((standing?_congr hunits _).symm.trans h)
  journal := hjournal

theorem refl (l : Loader ω χ) : l.Calm l := .of_quiet (.refl l)

theorem trans (h : l.Calm l') (h' : l'.Calm l'') : l.Calm l'' where
  participants := h'.participants.trans h.participants
  known hs := h'.known (h.known hs)
  fresh {id s} hs := by
    rcases h'.fresh hs with hs | ⟨hnone, hnew⟩
    · exact h.fresh hs
    · refine .inr ⟨?_, hnew⟩
      by_contra hsome
      obtain ⟨s', hs'⟩ := Option.ne_none_iff_exists'.mp hsome
      rw [h.known hs'] at hnone
      cases hnone
  journal := by
    obtain ⟨events, heq, hends⟩ := h.journal
    obtain ⟨events', heq', hends'⟩ := h'.journal
    refine ⟨events' ++ events, by rw [heq', heq, List.append_assoc], fun e he ↦ ?_⟩
    exact (List.mem_append.mp he).elim (hends' e) (hends e)

theorem waves (h : l.Calm l') : Journal.waves l'.journal = Journal.waves l.journal := by
  obtain ⟨events, heq, hends⟩ := h.journal
  rw [heq, waves_append hends]

theorem queue (h : l.Calm l') (id : UnitId) : l'.queue id = l.queue id := by
  cases hs : l.standing? id with
  | some s => rw [queue_of_standing? hs, queue_of_standing? (h.known hs)]
  | none =>
    rw [queue_of_unknown hs]
    cases hs' : l'.standing? id with
    | none => exact queue_of_unknown hs'
    | some s =>
      rcases h.fresh hs' with hold | ⟨-, hnew⟩
      · rw [hs] at hold
        cases hold
      · rw [queue_of_standing? hs', hnew.callbacks]

end Calm

variable (l : Loader ω χ)

theorem calm_record {e : Event} (h : e.endsWave = false) : l.Calm (l.record e) :=
  .of_units rfl rfl ⟨[e], rfl, by simpa using h⟩

theorem calm_settle {wave : Wave} (h : l.wave = some wave) : l.Calm (l.settle wave) :=
  .of_units rfl (participants_of_wave h).symm ⟨[_], rfl, by simp [Event.endsWave]⟩

theorem calm_settleOne : l.Calm l.settleOne.1 := by
  cases hwave : l.wave with
  | some wave =>
    rw [settleOne_eq hwave]
    exact l.calm_settle hwave
  | none =>
    have hsettled : l.settleOne.1 = l.record (.settled none) := by
      simp only [settleOne, record, hwave, Option.map_none]
    rw [hsettled]
    exact l.calm_record rfl

theorem calm_ask (key : String) : l.Calm (l.ask key) :=
  .of_units rfl rfl ⟨[.searched key], rfl, by simp [Event.endsWave]⟩

theorem calm_enlist (world : ω) (request : Request) (lookup : Lookup ω) :
    l.Calm (l.enlist world request lookup) :=
  .of_units rfl rfl ⟨[_], rfl, by simp [Event.endsWave]⟩

theorem calm_leave (world : ω) (lookups : List (Lookup ω)) : l.Calm (l.leave world lookups) :=
  .of_units rfl rfl ⟨[], rfl, by simp⟩

theorem calm_cache (cache : ResolutionCache UnitId) : l.Calm { l with cache } :=
  .of_units rfl rfl ⟨[], rfl, by simp⟩

theorem calm_noteFound (world : ω) (key : String)
    (answer : Except LoaderError (Option Resource)) :
    l.Calm ({ l with world }.noteFound key answer) := by
  obtain ⟨events, heq, hevents⟩ := { l with world }.noteFound_eq key answer
  rw [heq]
  refine .of_units rfl rfl ⟨events, rfl, fun e he ↦ ?_⟩
  obtain ⟨resource, -, rfl⟩ := hevents e he
  rfl

/-- When there is nothing to drop, dropping it changes nothing of importance. -/
theorem calm_abort (p : Platform ω χ) (error : LoaderError)
    (h : (l.wave.isSome || !l.lookups.isEmpty) = false) : l.Calm (l.abort p error) := by
  obtain ⟨world, heq⟩ := l.abort_eq p error
  rw [Bool.or_eq_false_iff, Option.isSome_eq_false_iff, Option.isNone_iff_eq_none] at h
  rw [heq, abortJournal, h.1, if_neg (by simpa using h.2)]
  refine .of_units rfl ?_ ⟨[], rfl, by simp⟩
  rw [participants, participants, h.1]

/-! ## What concerns callbacks -/

variable (given : UnitId → Callback ω → Prop)

/-- What a step can do to waves and to the callbacks that wait, if it does not call them; and the
drain that it begins, if it does. -/
inductive Serves (l : Loader ω χ) : Loader ω χ → List (Drain ω) → Prop
  | calm {l'} (calm : l.Calm l') : Serves l l' []
  /-- A callback comes to wait for a unit that is being loaded. -/
  | keep {l' id s} {callback : Option (Callback ω)} (before : l.Calm l')
      (known : l'.standing? id = some s) (loading : s.status = .loading)
      (source : ∀ c ∈ callback, given id c) : Serves l (l'.await id callback) []
  /-- A wave is begun for a unit, for which a callback comes to wait. -/
  | begin {l₁ l₂ id s} {callback : Option (Callback ω)} (before : l.Calm l₁)
      (known : l₁.standing? id = some s) (unloaded : s.status = .unloaded) (none : l₁.wave = none)
      (source : ∀ c ∈ callback, given id c)
      (after : ((l₁.beginWave id callback).enroll {} id s.dependencies).Calm l₂) : Serves l l₂ []
  /-- A unit joins the wave. -/
  | join {l₁ l₂ wave id s} (before : l.Calm l₁) (active : l₁.wave = some wave)
      (known : l₁.standing? id = some s) (unloaded : s.status = .unloaded)
      (after : (l₁.enroll wave id s.dependencies).Calm l₂) : Serves l l₂ []
  | close {l' wave} (before : l.Calm l') (active : l'.wave = some wave) :
      Serves l (l'.close wave) (Drain.opening wave.participants)
  | drop {l₁ l' e} (dropped : e ∈ l'.journal) (drops : e.dropsWave = true) (before : l.Calm l₁)
      (units : l'.units = l₁.units) (none : l'.wave = none) : Serves l l' []

variable {given}

theorem Serves.of_calm {l l₁ l₂ : Loader ω χ} {drains : List (Drain ω)} (h : l.Calm l₁)
    (h' : l₁.Serves given l₂ drains) : l.Serves given l₂ drains := by
  cases h' with
  | calm h' => exact .calm (h.trans h')
  | keep before known loading source => exact .keep (h.trans before) known loading source
  | begin before known unloaded hnone source after =>
    exact .begin (h.trans before) known unloaded hnone source after
  | join before active known unloaded after =>
    exact .join (h.trans before) active known unloaded after
  | close before active => exact .close (h.trans before) active
  | drop dropped drops before units hnone =>
    exact .drop dropped drops (h.trans before) units hnone

theorem serves_abort (p : Platform ω χ) (error : LoaderError) :
    l.Serves given (l.abort p error) [] := by
  cases h : l.wave.isSome || !l.lookups.isEmpty with
  | false => exact .calm (l.calm_abort p error h)
  | true =>
    obtain ⟨world, heq⟩ := l.abort_eq p error
    rw [heq]
    refine .drop (e := .aborted error) ?_ rfl (.refl _) rfl rfl
    rw [abortJournal, h]
    exact List.mem_cons_self

end Loader

namespace Machine

open Loader

/-- The closed waves whose callbacks are being called, the innermost first. -/
def drains (m : Machine ω χ) : List (Drain ω) := m.stack.filterMap Frame.drain?

/-- The callback of a closed wave that the next step calls, with its unit. -/
def nextCall? (m : Machine ω χ) : Option (UnitId × Callback ω) :=
  match m.control, m.stack with
  | .returning (.ok _), .draining id (callback :: _) _ :: _ => some (id, callback)
  | _, _ => none

/-- Whether a callback of a closed wave has returned an error. -/
def failsCallback (m : Machine ω χ) : Bool :=
  match m.control, m.stack with
  | .returning (.error _), .draining .. :: _ => true
  | _, _ => false

/-- The callbacks that the next step may have to keep for a unit: that of a load of the unit, or of
an import that may find it. -/
inductive Gives (m : Machine ω χ) : UnitId → Callback ω → Prop
  | load {id code next} (control : m.control = .running (.loadDependencies id (some code) next)) :
      Gives m id (.code code)
  | importing {id importer reference deliver next}
      (control : m.control = .running (.importFile importer reference deliver next)) :
      Gives m id (.importing deliver)
  | lookup {id deliver lookup} (pending : lookup ∈ m.loader.lookups)
      (purpose : lookup.purpose = .importing deliver) : Gives m id (.importing deliver)

variable (given : UnitId → Callback ω → Prop)

/-- The loader serves waves and waiting callbacks, and at most one drain is begun. -/
def Serves (m m' : Machine ω χ) : Prop :=
  ∃ drains, m.loader.Serves given m'.loader drains ∧ m'.drains = drains ++ m.drains

variable {given}

namespace Serves

variable {m n m' : Machine ω χ}

theorem of_calm (h : m.loader.Calm m'.loader) (hdrains : m'.drains = m.drains) :
    m.Serves given m' :=
  ⟨[], .calm h, hdrains⟩

/-- What a machine serves after a calm change it serves in all. -/
theorem after_calm (h : m.loader.Calm n.loader) (hdrains : n.drains = m.drains)
    (h' : n.Serves given m') : m.Serves given m' := by
  obtain ⟨drains, hserves, heq⟩ := h'
  exact ⟨drains, .of_calm h hserves, by rw [heq, hdrains]⟩

end Serves

theorem Grows.drains {m m' : Machine ω χ} {popped : List (Frame ω χ)} (h : m.Grows popped m') :
    m'.drains = m.drains := by
  obtain ⟨-, pushed, hstack, hneutral, -⟩ := h
  rw [Machine.drains, hstack, List.filterMap_append, List.filterMap_eq_nil_iff.mpr, List.nil_append,
    Machine.drains]
  exact fun frame hframe ↦ Frame.drain?_of_isNeutral (hneutral frame hframe)

/-! ## The functions of the loader -/

variable (p : Platform ω χ) (m : Machine ω χ)

theorem serves_closeWave : m.Serves given m.closeWave := by
  cases hwave : m.loader.wave with
  | none =>
    rw [closeWave, hwave]
    exact .of_calm (.refl _) rfl
  | some wave =>
    rw [closeWave_eq hwave]
    refine ⟨_, .close (.refl _) hwave, ?_⟩
    rcases hp : wave.participants with _ | ⟨first, rest⟩
    all_goals rfl

theorem serves_join {id : UnitId}
    (h : ∀ s, m.loader.standing? id = some s → s.status = .unloaded) :
    m.Serves given (m.join id) := by
  cases hwave : m.loader.wave with
  | none =>
    rw [join, hwave]
    exact .of_calm (m.loader.calm_record rfl) rfl
  | some wave =>
    cases hs : m.loader.standing? id with
    | none =>
      rw [join, hwave, standing?_eq_none.mp hs]
      exact .of_calm (.refl _) rfl
    | some s =>
      rw [join_eq hwave hs]
      exact ⟨[], .join (.refl _) hwave hs (h s hs) (.of_quiet (quiet_operation _ _ _)), rfl⟩

theorem serves_searchFinished (id : UnitId) : m.Serves given (m.searchFinished id) := by
  have hsettled := m.loader.calm_settleOne
  rw [searchFinished]
  dsimp only
  split
  · exact .of_calm hsettled rfl
  case h_2 unit hunit =>
    split
    case isTrue hunloaded =>
      refine .after_calm (n := { m with loader := m.loader.settleOne.1 }) hsettled rfl
        (serves_join _ fun s hs ↦ ?_)
      rw [standing?_of_unit? hunit] at hs
      cases hs
      exact hunloaded
    case isFalse =>
      split
      · exact .after_calm (n := { m with loader := m.loader.settleOne.1 }) hsettled rfl
          (serves_closeWave _)
      · exact .of_calm hsettled rfl

/-- Calling a callback is calm in itself. -/
theorem calm_callBack (id : UnitId) (callback : Callback ω) :
    m.loader.Calm (m.callBack id callback).loader ∧ (m.callBack id callback).drains = m.drains := by
  cases callback with
  | code code => exact ⟨.refl _, rfl⟩
  | importing deliver =>
    have hgrows := grows_execute [] (m.push (.delivering deliver)) id
    exact ⟨.of_quiet hgrows.quiet, hgrows.drains⟩

theorem serves_loadDependencies {id : UnitId} {callback : Option (Callback ω)}
    (source : ∀ c ∈ callback, given id c) : m.Serves given (m.loadDependencies p id callback) := by
  cases hs : m.loader.standing? id with
  | none =>
    rw [loadDependencies_unknown p hs]
    exact .of_calm (.refl _) rfl
  | some s =>
    rw [loadDependencies_eq p hs]
    cases hstatus : s.status with
    | loaded =>
      cases callback with
      | none => exact .of_calm (.refl _) rfl
      | some callback =>
        obtain ⟨hcalm, hdrains⟩ := calm_callBack (m.update (·.record (.delivered id))) id callback
        exact .of_calm ((m.loader.calm_record rfl).trans hcalm) hdrains
    | loading => exact ⟨[], .keep (.refl _) hs hstatus source, rfl⟩
    | unloaded =>
      dsimp only
      split
      case isTrue => exact .of_calm (.of_quiet (quiet_endImports p _ _)) rfl
      case isFalse hwave =>
        have hnone : m.loader.wave = none := by simpa using hwave
        rw [join_eq (m := (m.update (·.beginWave id callback)).push .aborting) rfl
          (standing?_await_self hs callback)]
        have hafter := Calm.of_quiet (((m.loader.beginWave id callback).enroll {} id
          s.dependencies).quiet_operation .searcher s.directory)
        exact ⟨[], .begin (.refl _) hs hstatus hnone source hafter, rfl⟩

theorem serves_continueSearch (id : UnitId) {purpose : Purpose ω}
    (source : ∀ id deliver, purpose = .importing deliver → given id (.importing deliver)) :
    m.Serves given (m.continueSearch p id purpose) := by
  cases purpose with
  | wave => exact m.serves_searchFinished id
  | importing deliver =>
    exact m.serves_loadDependencies p fun c hc ↦ by
      rw [← Option.mem_some_iff.mp hc]
      exact source id deliver rfl

theorem serves_search (searcher : Operation) (reference : Reference) (origin : Option Url)
    {purpose : Purpose ω}
    (source : ∀ id deliver, purpose = .importing deliver → given id (.importing deliver)) :
    m.Serves given (m.search p searcher reference origin purpose) := by
  rcases search_cases p m searcher reference origin purpose with
    ⟨id, -, heq⟩ | ⟨-, ⟨cause, -, heq⟩ | ⟨request, -, heq⟩⟩
  all_goals rw [heq]
  · exact m.serves_continueSearch p id source
  · exact .of_calm (.of_quiet (quiet_endImports p _ _)) rfl
  · exact .of_calm (m.loader.calm_enlist _ _ _) rfl

theorem serves_continueDispatching (id : UnitId) (searcher : Operation) (rest : List Reference) :
    m.Serves given (m.continueDispatching p id searcher rest) := by
  cases rest with
  | nil => exact .of_calm (.refl _) rfl
  | cons reference rest =>
    by_cases hmarked : reference.key searcher.context.text ∈ m.loader.cache.markers
    · have hsettled := m.loader.calm_settleOne
      rw [continueDispatching]
      have hloader : (m.push (.dispatching id searcher rest)).loader = m.loader := rfl
      rw [hloader, if_pos ((m.loader.cache.isMarked_iff _).mpr hmarked)]
      dsimp only
      split
      · exact .after_calm
          (n := { m.push (.dispatching id searcher rest) with loader := m.loader.settleOne.1 })
          hsettled rfl (serves_closeWave _)
      · exact .of_calm hsettled rfl
    · rw [continueDispatching_unmarked p m id rest hmarked]
      exact .after_calm (n := (m.push (.dispatching id searcher rest)).update (·.ask _))
        (m.loader.calm_ask _) rfl (serves_search p _ searcher reference _ (by simp))

theorem serves_importFile (importer : Operation) (reference : Reference)
    {deliver : Option (Outcome → Code ω)} (source : ∀ id, given id (.importing deliver)) :
    m.Serves given (m.importFile p importer reference deliver) := by
  obtain ⟨l, searcher, origin, hquiet, heq⟩ := importFile_eq p m importer reference deliver
  rw [heq]
  exact .after_calm (n := { m with loader := l }) (.of_quiet hquiet) rfl
    (serves_search p _ searcher reference origin fun id _ heq ↦ by cases heq; exact source id)

theorem serves_completeLookup {lookup : Lookup ω}
    (source : ∀ id deliver, lookup.purpose = .importing deliver → given id (.importing deliver)) :
    m.Serves given (m.completeLookup p lookup) := by
  have hnoted := m.loader.calm_noteFound (p.resolver.answer m.loader.world lookup.ticket).1
    lookup.key (p.resolver.answer m.loader.world lookup.ticket).2
  rcases completeLookup_cases p m lookup with
    ⟨l, e, hquiet, heq⟩ | ⟨l, id, resource, -, hquiet, -, heq⟩
  all_goals
    rw [heq]
    have hmade := hnoted.trans (.of_quiet hquiet)
  · exact .of_calm (hmade.trans (.of_quiet (quiet_endImports p _ _))) rfl
  · exact .after_calm
      (n := { m with loader := { l with cache := l.cache.insertResult lookup.key id } })
      (hmade.trans (l.calm_cache _)) rfl (serves_continueSearch p _ id source)

theorem serves_drive (next : Awaited Unit → Code ω)
    (source : ∀ lookup ∈ m.loader.lookups, ∀ id deliver, lookup.purpose = .importing deliver →
      given id (.importing deliver)) : m.Serves given (m.drive p next) := by
  rcases drive_cases p m next with
    ⟨-, heq⟩ | ⟨world, -, heq⟩ | ⟨world, before, lookup, after, -, hsplit, heq⟩
  all_goals rw [heq]
  · exact .of_calm (.refl _) rfl
  · exact .of_calm (.of_quiet (m.loader.quiet_world _)) rfl
  · have hlookup : lookup ∈ m.loader.lookups :=
      hsplit ▸ List.mem_append_right _ List.mem_cons_self
    exact .after_calm (n := (m.update (·.leave world (before ++ after))).push (.driving next))
      (m.loader.calm_leave _ _) rfl (serves_completeLookup p _ (source lookup hlookup))

/-! ## Steps -/

/-- What a step does to waves, callbacks and drains. -/
inductive Handles (m m' : Machine ω χ) : Prop
  | serve (idle : m.nextCall? = none) (serves : m.Serves m.Gives m')
  /-- The next callback of a drain is called. -/
  | call {id callback callbacks rest drains} (next : m.nextCall? = some (id, callback))
      (before : m.drains = ⟨id, callback :: callbacks, rest⟩ :: drains)
      (after : m'.drains = ⟨id, callbacks, rest⟩ :: drains) (calm : m.loader.Calm m'.loader)
  /-- The callbacks of the next unit of a drain are taken. -/
  | take {id next rest drains} (idle : m.nextCall? = none)
      (before : m.drains = ⟨id, [], next :: rest⟩ :: drains)
      (after : m'.drains = ⟨next, m.loader.queue next, rest⟩ :: drains)
      (loader : m'.loader
        = m.loader.modifyUnit next fun unit ↦ { unit with callbacks := [] })
  /-- A drain has ended. -/
  | finish {id drains} (idle : m.nextCall? = none) (before : m.drains = ⟨id, [], []⟩ :: drains)
      (after : m'.drains = drains) (loader : m'.loader = m.loader)
  | fail (failed : m.failsCallback = true) (calm : m.loader.Calm m'.loader)

variable {m} {base : List (Frame ω χ)}

private theorem nextCall?_of_running {code : Code ω} (h : m.control = .running code) :
    m.nextCall? = none := by
  rw [nextCall?, h]

private theorem nextCall?_of_top {frame : Frame ω χ} (hs : m.stack = frame :: base)
    (h : frame.drain? = none) : m.nextCall? = none := by
  rw [nextCall?, hs]
  split
  case h_1 heq => cases heq; cases h
  case h_2 => rfl

theorem nextCall?_of_nil (hs : m.stack = []) : m.nextCall? = none := by
  rw [nextCall?, hs]
  split
  case h_1 heq => cases heq
  case h_2 => rfl

private theorem drains_of_top {frame : Frame ω χ} (hs : m.stack = frame :: base)
    (h : frame.drain? = none) : ({ m with stack := base } : Machine ω χ).drains = m.drains := by
  rw [drains, drains, hs, List.filterMap_cons_none h]

/-- A frame that stands for no drain may be taken off before waves are served. -/
private theorem Handles.of_top {m' : Machine ω χ} {frame : Frame ω χ} (hs : m.stack = frame :: base)
    (h : frame.drain? = none) (hserves : { m with stack := base }.Serves m.Gives m') :
    m.Handles m' :=
  .serve (nextCall?_of_top hs h)
    (.after_calm (n := { m with stack := base }) (.refl _) (drains_of_top hs h) hserves)

theorem handles_continueDraining {value : Value} {id : UnitId} {callbacks : List (Callback ω)}
    {rest : List UnitId} (hcontrol : m.control = .returning (.ok value))
    (hs : m.stack = .draining id callbacks rest :: base) :
    m.Handles ({ m with stack := base }.continueDraining id callbacks rest) := by
  have hdrains : m.drains = ⟨id, callbacks, rest⟩ :: base.filterMap Frame.drain? := by
    rw [drains, hs]
    rfl
  cases callbacks with
  | cons callback callbacks =>
    have hnext : m.nextCall? = some (id, callback) := by rw [nextCall?, hcontrol, hs]
    obtain ⟨hcalm, hafter⟩ := calm_callBack ((({ m with stack := base } : Machine ω χ).push
      (.draining id callbacks rest)).update (·.record (.delivered id))) id callback
    exact .call hnext hdrains hafter ((m.loader.calm_record rfl).trans hcalm)
  | nil =>
    have hidle : m.nextCall? = none := by rw [nextCall?, hcontrol, hs]
    cases rest with
    | nil => exact .finish hidle hdrains rfl rfl
    | cons next rest => exact .take hidle hdrains rfl rfl

/-- **What a step does to waves, callbacks and drains.** -/
theorem step_handles (m : Machine ω χ) : m.Handles (m.step p) := by
  have hturn := step_turn p m
  generalize m.step p = m' at hturn ⊢
  have hserve {code : Code ω} (h : m.control = .running code) {m' : Machine ω χ}
      (hserves : m.Serves m.Gives m') : m.Handles m' := .serve (nextCall?_of_running h) hserves
  cases hturn with
  | halted _ hs => exact .serve (nextCall?_of_nil hs) (.of_calm (.refl _) rfl)
  | code hcontrol hgrows => exact hserve hcontrol (.of_calm (.of_quiet hgrows.quiet) hgrows.drains)
  | frame _ hs hneutral hgrows =>
    exact .of_top hs (Frame.drain?_of_isNeutral hneutral)
      (.of_calm (.of_quiet hgrows.quiet) hgrows.drains)
  | @load id callback next hcontrol =>
    refine hserve hcontrol (.after_calm (n := m.push _) (.refl _) rfl
      (serves_loadDependencies p _ fun c hc ↦ ?_))
    obtain ⟨code, rfl, rfl⟩ := Option.map_eq_some_iff.mp hc
    exact .load hcontrol
  | importing hcontrol =>
    exact hserve hcontrol (.after_calm (n := m.push _) (.refl _) rfl
      (serves_importFile p _ _ _ fun _ ↦ .importing hcontrol))
  | drive hcontrol => exact hserve hcontrol (serves_drive p m _ fun _ hlookup _ _ ↦ .lookup hlookup)
  | reset hcontrol =>
    exact hserve hcontrol (.of_calm ((m.loader.calm_record rfl).trans (calm_cache _ _)) rfl)
  | release hcontrol =>
    obtain ⟨world, heq⟩ := m.loader.release_eq p
    rw [heq]
    exact hserve hcontrol
      ⟨[], .drop (e := .released) List.mem_cons_self rfl (.refl _) rfl rfl, rfl⟩
  | driveOn _ hs =>
    exact .of_top hs rfl (serves_drive p _ _ fun _ hlookup _ _ ↦ .lookup hlookup)
  | driveError _ hs => exact .of_top hs rfl ⟨[], m.loader.serves_abort p _, rfl⟩
  | dispatch _ hs => exact .of_top hs rfl (serves_continueDispatching p _ _ _ _)
  | dispatchError _ hs => exact .of_top hs rfl (.of_calm (.refl _) rfl)
  | drain hcontrol hs => exact handles_continueDraining hcontrol hs
  | drainError hcontrol hs =>
    exact .fail (by rw [failsCallback, hcontrol, hs]) (.of_quiet (quiet_endImports p _ _))
  | arrive _ hs => exact .of_top hs rfl (.of_calm (.refl _) rfl)
  | abort _ hs => exact .of_top hs rfl ⟨[], m.loader.serves_abort p _, rfl⟩

end Machine

end ScriptLoader
