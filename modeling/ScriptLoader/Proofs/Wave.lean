import ScriptLoader.Proofs.Turn

/-!
# What the operations of a wave come to

The parts of the loader that concern waves, each said once as what it makes of a loader and a stack:
a unit joins, a reference is settled, the wave is closed, everything is dropped. The branches that
are left to the callers are those on which a caller really decides.
-/

namespace ScriptLoader

variable {ω χ : Type}

namespace Loader

/-! ## The loader -/

/-- A loader whose wave a unit has joined. -/
def enroll (l : Loader ω χ) (wave : Wave) (id : UnitId) (dependencies : List Reference) :
    Loader ω χ :=
  let joined : Wave :=
    { participants := wave.participants ++ [id]
      outstanding := wave.outstanding + dependencies.length }
  ({ l with wave := some joined }.setStatus id .loading).record (.joined id)

/-- A loader for whose wave a reference has been settled. -/
def settle (l : Loader ω χ) (wave : Wave) : Loader ω χ :=
  { l.record (.settled (some wave.outstanding)) with
    wave := some { wave with outstanding := wave.outstanding - 1 } }

/-- A loader whose wave has been closed. -/
def close (l : Loader ω χ) (wave : Wave) : Loader ω χ :=
  ({ l with wave := none }.setStatuses wave.participants .loaded).record
    (.closed wave.participants)

/-- A loader in which a callback waits for a unit. -/
def await (l : Loader ω χ) (id : UnitId) (callback : Option (Callback ω)) : Loader ω χ :=
  l.modifyUnit id fun unit ↦ { unit with callbacks := unit.callbacks ++ callback.toList }

/-- A loader in which a wave is begun, for whose unit a callback waits. -/
def beginWave (l : Loader ω χ) (id : UnitId) (callback : Option (Callback ω)) : Loader ω χ :=
  { l.await id callback with wave := some {} }

/-- A loader in which a reference of the wave has been asked for. -/
def ask (l : Loader ω χ) (key : String) : Loader ω χ :=
  { l with cache := l.cache.mark key }.record (.searched key)

/-- A loader with one more lookup under way. -/
def enlist (l : Loader ω χ) (world : ω) (request : Request) (lookup : Lookup ω) : Loader ω χ :=
  { l with world, lookups := l.lookups ++ [lookup] }.record
    (.lookedUp lookup.key request lookup.purpose.isImport)

/-- A loader of whose lookups some are left. -/
def leave (l : Loader ω χ) (world : ω) (lookups : List (Lookup ω)) : Loader ω χ :=
  { l with world, lookups }

variable {l : Loader ω χ}

theorem settleOne_eq {wave : Wave} (h : l.wave = some wave) :
    l.settleOne = (l.settle wave, some (wave.outstanding - 1)) := by
  simp only [settleOne, record, h]
  rfl

theorem standing?_enroll (l : Loader ω χ) (wave : Wave) (id : UnitId)
    (dependencies : List Reference) (other : UnitId) :
    (l.enroll wave id dependencies).standing? other
      = (l.standing? other).map fun s ↦ if id = other then { s with status := .loading } else s :=
  standing?_setStatus _ _ _ _

@[simp] theorem journal_enroll (l : Loader ω χ) (wave : Wave) (id : UnitId)
    (dependencies : List Reference) :
    (l.enroll wave id dependencies).journal = .joined id :: l.journal := rfl

theorem standing?_close (l : Loader ω χ) (wave : Wave) (other : UnitId) :
    (l.close wave).standing? other
      = (l.standing? other).map fun s ↦
          if other ∈ wave.participants then { s with status := .loaded } else s :=
  standing?_setStatuses _ _ _ _

@[simp] theorem wave_close (l : Loader ω χ) (wave : Wave) : (l.close wave).wave = none := by
  rw [close, setStatuses_eq]; rfl

@[simp] theorem lookups_close (l : Loader ω χ) (wave : Wave) :
    (l.close wave).lookups = l.lookups := by
  rw [close, setStatuses_eq]; rfl

@[simp] theorem cache_close (l : Loader ω χ) (wave : Wave) : (l.close wave).cache = l.cache := by
  rw [close, setStatuses_eq]; rfl

@[simp] theorem journal_close (l : Loader ω χ) (wave : Wave) :
    (l.close wave).journal = .closed wave.participants :: l.journal := by
  rw [close, setStatuses_eq]; rfl

theorem keeps_of_standing? {l l' : Loader ω χ} {change : UnitId → Standing ω → Standing ω}
    (h : ∀ id, l'.standing? id = (l.standing? id).map (change id))
    (hchange : ∀ id s, (change id s).url = s.url ∧ (change id s).directory = s.directory ∧
      (change id s).dependencies = s.dependencies) : l.Keeps l' := by
  intro id s hs
  rw [h, hs]
  exact ⟨_, rfl, hchange id s⟩

theorem keeps_enroll (l : Loader ω χ) (wave : Wave) (id : UnitId) (dependencies : List Reference) :
    l.Keeps (l.enroll wave id dependencies) :=
  keeps_of_standing? (l.standing?_enroll wave id dependencies) fun _ _ ↦ by split <;> simp

theorem keeps_close (l : Loader ω χ) (wave : Wave) : l.Keeps (l.close wave) :=
  keeps_of_standing? (l.standing?_close wave) fun _ _ ↦ by split <;> simp

theorem standing?_modifyCallbacks (l : Loader ω χ) (id : UnitId)
    (change : List (Callback ω) → List (Callback ω)) (other : UnitId) :
    (l.modifyUnit id fun unit ↦ { unit with callbacks := change unit.callbacks }).standing? other
      = (l.standing? other).map fun s ↦
          if id = other then { s with callbacks := change s.callbacks } else s := by
  rw [standing?_modifyUnit, standing?, Option.map_map]
  rfl

theorem keeps_modifyCallbacks (l : Loader ω χ) (id : UnitId)
    (change : List (Callback ω) → List (Callback ω)) :
    l.Keeps (l.modifyUnit id fun unit ↦ { unit with callbacks := change unit.callbacks }) :=
  keeps_of_standing? (l.standing?_modifyCallbacks id change) fun _ _ ↦ by split <;> simp

theorem standing?_await_self {id : UnitId} {s : Standing ω} (h : l.standing? id = some s)
    (callback : Option (Callback ω)) :
    (l.await id callback).standing? id
      = some { s with callbacks := s.callbacks ++ callback.toList } := by
  rw [await, l.standing?_modifyCallbacks id (· ++ callback.toList), h, Option.map_some, if_pos rfl]

theorem standing?_beginWave (l : Loader ω χ) (id other : UnitId) :
    (l.beginWave id none).standing? other = l.standing? other := by
  have hunits : (l.beginWave id none).standing? other = (l.await id none).standing? other := rfl
  rw [hunits, await, l.standing?_modifyCallbacks id (· ++ (none : Option (Callback ω)).toList)]
  simp

theorem keeps_await (l : Loader ω χ) (id : UnitId) (callback : Option (Callback ω)) :
    l.Keeps (l.await id callback) :=
  l.keeps_modifyCallbacks id (· ++ callback.toList)

variable (p : Platform ω χ)

/-- The journal of a loader after an error: it tells of the error if anything was dropped. -/
def abortJournal (l : Loader ω χ) (error : LoaderError) : List Event :=
  if l.wave.isSome || !l.lookups.isEmpty then .aborted error :: l.journal else l.journal

theorem abort_eq (l : Loader ω χ) (error : LoaderError) :
    ∃ world, l.abort p error
      = { l with world, wave := none, lookups := [], journal := l.abortJournal error } := by
  refine ⟨(l.abort p error).world, ?_⟩
  rw [abort, abortJournal]
  split <;> rfl

theorem release_eq (l : Loader ω χ) :
    ∃ world, l.release p = { l with
      world, wave := none, lookups := [], released := true, journal := .released :: l.journal } :=
  ⟨(l.release p).world, rfl⟩

theorem noteFound_eq (l : Loader ω χ) (key : String)
    (answer : Except LoaderError (Option Resource)) :
    ∃ events, l.noteFound key answer = { l with journal := events ++ l.journal } ∧
      ∀ e ∈ events, ∃ resource, answer = .ok (some resource) ∧ e = .found key resource.url := by
  rcases answer with e | _ | resource
  · exact ⟨[], rfl, by simp⟩
  · exact ⟨[], rfl, by simp⟩
  · exact ⟨[.found key resource.url], rfl, by simp⟩

@[simp] theorem lookups_noteFound (l : Loader ω χ) (key : String)
    (answer : Except LoaderError (Option Resource)) :
    (l.noteFound key answer).lookups = l.lookups := by
  obtain ⟨events, heq, -⟩ := l.noteFound_eq key answer
  rw [heq]

end Loader

namespace Machine

variable {m : Machine ω χ}

/-! ## The machine -/

theorem join_eq {wave : Wave} {id : UnitId} {s : Standing ω} (hwave : m.loader.wave = some wave)
    (hs : m.loader.standing? id = some s) :
    m.join id =
      let l := m.loader.enroll wave id s.dependencies
      { loader := (l.operation .searcher s.directory).1
        control := .returning (.ok .undefined)
        stack :=
          .dispatching id (l.operation .searcher s.directory).2 s.dependencies :: m.stack } := by
  obtain ⟨unit, hunit, rfl⟩ := Loader.standing?_eq_some.mp hs
  rw [join, hwave, hunit]
  rfl

/-- The frame that calls the callbacks of the units of a closed wave, unless there are none. -/
def drainFrames : List UnitId → List (Frame ω χ)
  | [] => []
  | first :: rest => [.draining first [] (first :: rest)]

theorem closeWave_eq {wave : Wave} (h : m.loader.wave = some wave) :
    m.closeWave =
      { loader := m.loader.close wave
        control := .returning (.ok .undefined)
        stack := drainFrames wave.participants ++ m.stack } := by
  rw [closeWave, h]
  rcases hp : wave.participants with _ | ⟨first, rest⟩
  all_goals simp only [Loader.close, hp]; rfl

/-- A search of the wave has led to a unit: it joins if it has not been asked for, and otherwise the
wave is closed if nothing is left. -/
theorem searchFinished_eq {wave : Wave} {id : UnitId} {s : Standing ω}
    (hwave : m.loader.wave = some wave) (hs : m.loader.standing? id = some s) :
    m.searchFinished id =
      let m := { m with loader := m.loader.settle wave }
      if s.status = .unloaded then m.join id
      else if wave.outstanding - 1 = 0 then m.closeWave
      else m.done := by
  obtain ⟨unit, hunit, rfl⟩ := Loader.standing?_eq_some.mp hs
  have hunit' : (m.loader.settle wave).unit? id = some unit := hunit
  simp only [searchFinished, Loader.settleOne_eq hwave, hunit', Option.some.injEq]
  rfl

theorem loadDependencies_eq (p : Platform ω χ) {id : UnitId} {s : Standing ω}
    (hs : m.loader.standing? id = some s) (callback : Option (Callback ω)) :
    m.loadDependencies p id callback =
      match s.status, callback with
      | .loaded, some callback => (m.update (·.record (.delivered id))).callBack id callback
      | .loaded, none => m.done
      | .loading, callback => (m.update (·.await id callback)).done
      | .unloaded, callback =>
        if m.loader.wave.isSome then
          (m.update (·.endImports p (callback.toList.countP Callback.isImport))).throw
            (.reentrancyViolation s.url.text)
        else ((m.update (·.beginWave id callback)).push .aborting).join id := by
  obtain ⟨unit, hunit, rfl⟩ := Loader.standing?_eq_some.mp hs
  have hstatus : unit.standing.status = unit.info.status := rfl
  unfold loadDependencies
  rw [hunit, hstatus]
  cases h : unit.info.status <;> cases callback <;> simp only [h] <;> rfl

theorem loadDependencies_unknown (p : Platform ω χ) {id : UnitId}
    (h : m.loader.standing? id = none) (callback : Option (Callback ω)) :
    m.loadDependencies p id callback = m.done := by
  unfold loadDependencies
  rw [Loader.standing?_eq_none.mp h]

/-! ## Searches -/

/-- What a search comes to: the reference led to a unit before, it cannot be looked up, or a lookup
is started. -/
theorem search_cases (p : Platform ω χ) (m : Machine ω χ) (searcher : Operation)
    (reference : Reference) (origin : Option Url) (purpose : Purpose ω) :
    let key := reference.key searcher.context.text
    (∃ id, m.loader.cache.result? key = some id ∧
      m.search p searcher reference origin purpose = m.continueSearch p id purpose) ∨
    m.loader.cache.result? key = none ∧
      ((∃ cause, searcher.request reference = .error cause ∧
        m.search p searcher reference origin purpose = m.failSearch p purpose (.url cause)) ∨
      ∃ request, searcher.request reference = .ok request ∧
        m.search p searcher reference origin purpose =
          let started := p.resolver.start m.loader.world request
          let lookup : Lookup ω :=
            { ticket := started.2, key, locator := reference.locator, origin, purpose }
          (m.update (·.enlist started.1 request lookup)).done) := by
  dsimp only
  rw [search]
  cases hresult : m.loader.cache.result? (reference.key searcher.context.text) with
  | some id => exact .inl ⟨id, rfl, rfl⟩
  | none =>
    refine .inr ⟨rfl, ?_⟩
    dsimp only
    cases hrequest : searcher.request reference with
    | error cause => exact .inl ⟨cause, rfl, rfl⟩
    | ok request => exact .inr ⟨request, rfl, rfl⟩

/-- What completing a lookup comes to, for a machine from which the lookup has been taken: it fails,
or a file has been found and leads to a unit, which is recorded. -/
theorem completeLookup_cases (p : Platform ω χ) (m : Machine ω χ) (lookup : Lookup ω) :
    let answered := p.resolver.answer m.loader.world lookup.ticket
    let noted := { m.loader with world := answered.1 }.noteFound lookup.key answered.2
    (∃ l e, noted.Quiet l ∧
      m.completeLookup p lookup = { m with loader := l }.failSearch p lookup.purpose e) ∨
    ∃ l id resource, answered.2 = .ok (some resource) ∧ noted.Quiet l ∧
      l.cache.unit? resource.url = some id ∧
      m.completeLookup p lookup =
        { m with loader := { l with cache := l.cache.insertResult lookup.key id } }.continueSearch p
          id lookup.purpose := by
  dsimp only
  rw [completeLookup]
  rcases hanswered : p.resolver.answer m.loader.world lookup.ticket with ⟨world, answer⟩
  have hquiet := Loader.quiet_unitOfAnswer p ({ m.loader with world }.noteFound lookup.key answer)
    lookup.locator lookup.origin answer
  rcases hmade : ({ m.loader with world }.noteFound lookup.key answer).unitOfAnswer p
    lookup.locator lookup.origin answer with ⟨l, e | id⟩
  all_goals
    rw [hmade] at hquiet
    simp only [hmade]
  · exact .inl ⟨l, e, hquiet, rfl⟩
  · obtain ⟨resource, rfl, hfiled⟩ := Loader.exists_of_unitOfAnswer p (congrArg Prod.snd hmade)
    rw [hmade] at hfiled
    exact .inr ⟨l, id, resource, rfl, hquiet, hfiled, rfl⟩

/-- The first lookup with a ticket is the one that is taken away. -/
theorem exists_of_find?_ticket {lookups : List (Lookup ω)} {ticket : Nat} {lookup : Lookup ω}
    (h : lookups.find? (·.ticket = ticket) = some lookup) :
    lookup.ticket = ticket ∧ ∃ before after, lookups = before ++ lookup :: after ∧
      lookups.eraseP (·.ticket = lookup.ticket) = before ++ after := by
  obtain ⟨hticket, before, after, hsplit, hbefore⟩ := List.find?_eq_some_iff_append.mp h
  rw [decide_eq_true_eq] at hticket
  refine ⟨hticket, before, after, hsplit, ?_⟩
  rw [hsplit, List.eraseP_append_right _ (by simpa [hticket] using hbefore),
    List.eraseP_cons_of_pos (by simp)]

/-- What completing the next lookup comes to: there is none, none is picked, or one is taken and
completed. -/
theorem drive_cases (p : Platform ω χ) (m : Machine ω χ) (next : Awaited Unit → Code ω) :
    let picked := p.resolver.next? m.loader.world (m.loader.lookups.map (·.ticket))
    (m.loader.lookups = [] ∧ m.drive p next = m.start (next (.settled (.ok ⟨⟩)))) ∨
    (∃ world, (∀ lookup ∈ m.loader.lookups, picked.2 ≠ some lookup.ticket) ∧
      m.drive p next = (m.update fun l ↦ { l with world }).start (next .stalled)) ∨
    ∃ world before lookup after, picked.1 = world ∧
      m.loader.lookups = before ++ lookup :: after ∧
      m.drive p next =
        ((m.update (·.leave world (before ++ after))).push (.driving next)).completeLookup p
          lookup := by
  dsimp only
  rw [drive]
  split
  case isTrue hempty => exact .inl ⟨List.isEmpty_iff.mp hempty, rfl⟩
  case isFalse =>
    refine .inr ?_
    rcases hnext : p.resolver.next? m.loader.world (m.loader.lookups.map (·.ticket)) with
      ⟨world, _ | ticket⟩
    · simp only [hnext]
      exact .inl ⟨world, by simp, rfl⟩
    · cases hfound : m.loader.lookups.find? (·.ticket = ticket) with
      | none =>
        simp only [hnext, Option.bind_some, hfound]
        refine .inl ⟨world, fun lookup hlookup hpicked ↦ ?_, rfl⟩
        cases hpicked
        simpa using List.find?_eq_none.mp hfound lookup hlookup
      | some lookup =>
        obtain ⟨-, before, after, hsplit, herase⟩ := exists_of_find?_ticket hfound
        refine .inr ⟨world, before, lookup, after, by rw [hnext], hsplit, ?_⟩
        simp only [hnext, Option.bind_some, hfound, herase]
        rfl

/-! ## Units that go on -/

/-- A reference that has been asked for before is settled at once. -/
theorem continueDispatching_marked (p : Platform ω χ) {wave : Wave}
    (hwave : m.loader.wave = some wave) (id : UnitId) {searcher : Operation}
    {reference : Reference} (rest : List Reference)
    (hmarked : reference.key searcher.context.text ∈ m.loader.cache.markers) :
    m.continueDispatching p id searcher (reference :: rest) =
      let m := (m.push (.dispatching id searcher rest)).update (·.settle wave)
      if wave.outstanding - 1 = 0 then m.closeWave else m.done := by
  rw [continueDispatching]
  have hpushed : (m.push (.dispatching id searcher rest)).loader = m.loader := rfl
  rw [hpushed, if_pos ((m.loader.cache.isMarked_iff _).mpr hmarked), Loader.settleOne_eq hwave]
  simp only [Option.some.injEq]
  rfl

/-- A reference that is asked for the first time is searched. -/
theorem continueDispatching_unmarked (p : Platform ω χ) (m : Machine ω χ) (id : UnitId)
    {searcher : Operation} {reference : Reference} (rest : List Reference)
    (hunmarked : reference.key searcher.context.text ∉ m.loader.cache.markers) :
    m.continueDispatching p id searcher (reference :: rest) =
      ((m.push (.dispatching id searcher rest)).update
        (·.ask (reference.key searcher.context.text))).search p searcher reference
          ((m.loader.unit? id).map (·.info.url)) .wave := by
  rw [continueDispatching]
  have hpushed : (m.push (.dispatching id searcher rest)).loader = m.loader := rfl
  rw [hpushed, if_neg (hunmarked ∘ (m.loader.cache.isMarked_iff _).mp)]
  rfl

theorem importFile_eq (p : Platform ω χ) (m : Machine ω χ) (importer : Operation)
    (reference : Reference) (deliver : Option (Outcome → Code ω)) :
    ∃ l searcher origin, m.loader.Quiet l ∧
      m.importFile p importer reference deliver =
        { m with loader := l }.search p searcher reference origin (.importing deliver) :=
  ⟨_, _, _,
    (m.loader.quiet_world _).trans (Loader.quiet_operation _ .searcher importer.context), rfl⟩

end Machine

end ScriptLoader
