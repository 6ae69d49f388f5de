import Mathlib.Logic.Relation
import ScriptLoader.Proofs.Wave

/-!
# What operations are made of

The operations on waves and lookups call one another in many ways. What they do to a loader is
always a sequence of *shifts*, of which there are few: an event is recorded, the status or the
callbacks of a unit change, a key is marked, an operation is bound to a directory, or something is
set that concerns neither units nor tables. The frames that they put on the stack are *plain*: none
of them holds which unit was executing or compiling. And if an operation executes a unit, that is
the last thing it does.

So what every shift keeps, and the executing of a unit, every operation keeps. The ways in which the
operations call one another are followed here once for all such properties.

Three things are no shifts. A file that was found is made into a unit when its lookup is completed;
code makes units, forgets everything and sets what functions get; and a body or a second pass is
left when its frame is taken off the stack. `Machine.leads_completeLookup`, `Machine.leads_runCode`
and `Machine.leads_resume` say what is left to be looked at.
-/

namespace ScriptLoader

variable {ω χ : Type}

/-- Whether an event tells of waves, searches and lookups. -/
def Event.isShift : Event → Bool
  | joined _ | turnedAway _ | searched _ | settled _ | lookedUp .. | found .. | closed _
  | delivered _ | aborted _ | released => true
  | _ => false

/-- Whether a frame holds nothing that is in force again once it is taken off. -/
def Frame.isPlain : Frame ω χ → Bool
  | calling _ | compiling .. => false
  | _ => true

/-- Whether running code takes no more than shifts and the executing of a unit. -/
def Code.isPlain : Code ω → Bool
  | drive _ | openUnit .. | createFromSource .. | createFromFunction .. | createFromResource ..
  | reset _ | setHost .. => false
  | _ => true

namespace Loader

/-! ## Loaders -/

/-- One of the changes that operations on waves and lookups are made of. -/
inductive Shift (l : Loader ω χ) : Loader ω χ → Prop
  /-- Neither units nor tables are concerned, and the journal is not told of it. -/
  | aside (world : ω) (wave : Option Wave) (lookups : List (Lookup ω))
      (substitutions : Substitutions) (scope : Scope) (released : Bool) :
      Shift l { l with world, wave, lookups, substitutions, scope, released }
  | record {e : Event} (shift : e.isShift = true) : Shift l (l.record e)
  | status (id : UnitId) (status : LoadStatus) : Shift l (l.setStatus id status)
  | callbacks (id : UnitId) (change : List (Callback ω) → List (Callback ω)) :
      Shift l (l.modifyUnit id fun unit ↦ { unit with callbacks := change unit.callbacks })
  | mark (key : String) : Shift l { l with cache := l.cache.mark key }
  | operation (kind : OperationKind) (context : Url) : Shift l (l.operation kind context).1

def Shifts : Loader ω χ → Loader ω χ → Prop := Relation.ReflTransGen Shift

namespace Shifts

variable {l l' l'' : Loader ω χ}

theorem refl (l : Loader ω χ) : l.Shifts l := Relation.ReflTransGen.refl

theorem trans (h : l.Shifts l') (h' : l'.Shifts l'') : l.Shifts l'' :=
  Relation.ReflTransGen.trans h h'

theorem of_shift (h : l.Shift l') : l.Shifts l' := .single h

/-- What is kept by every shift is kept by all of them. -/
theorem induct {R : Loader ω χ → Loader ω χ → Prop} (hrefl : ∀ l, R l l)
    (htrans : ∀ {l l' l''}, R l l' → R l' l'' → R l l'')
    (hshift : ∀ {l l'}, l.Shift l' → R l l') (h : l.Shifts l') : R l l' := by
  induction h with
  | refl => exact hrefl l
  | tail _ hlast ih => exact htrans ih (hshift hlast)

/-- What no shift changes is not changed. -/
theorem congr {α : Type} {f : Loader ω χ → α} (hf : ∀ {l l'}, l.Shift l' → f l' = f l)
    (h : l.Shifts l') : f l' = f l :=
  h.induct (R := fun l l' ↦ f l' = f l) (fun _ ↦ rfl) (fun h h' ↦ h'.trans h) hf

/-- What functions get beyond the fixed parameters, and which units are executing and compiling. -/
theorem inForce (h : l.Shifts l') :
    l'.host = l.host ∧ l'.executing = l.executing ∧ l'.compiling = l.compiling := by
  have hsame := h.congr (f := fun l ↦ (l.host, l.executing, l.compiling)) fun {l l'} hshift ↦ by
    cases hshift with
    | operation kind context => rw [Loader.operation]; split <;> rfl
    | _ => rfl
  simpa only [Prod.mk.injEq] using hsame

end Shifts

variable (l : Loader ω χ) (p : Platform ω χ)

/-- What concerns neither units nor tables may be set, and the journal told of it. -/
theorem shifts_aside (world : ω) (wave : Option Wave) (lookups : List (Lookup ω)) :
    l.Shifts { l with world, wave, lookups } :=
  .of_shift (.aside world wave lookups _ _ _)

theorem shifts_record {e : Event} (h : e.isShift = true) : l.Shifts (l.record e) :=
  .of_shift (.record h)

theorem shifts_operation (kind : OperationKind) (context : Url) :
    l.Shifts (l.operation kind context).1 :=
  .of_shift (.operation kind context)

theorem shifts_argumentsFor (directory : Url) : l.Shifts (l.argumentsFor directory).1 :=
  (l.shifts_operation .executer directory).trans (shifts_operation _ .importer directory)

theorem shifts_settleOne : l.Shifts l.settleOne.1 := by
  rw [settleOne]
  dsimp only
  split
  · exact l.shifts_record rfl
  · exact (l.shifts_record (e := .settled _) rfl).trans (shifts_aside _ _ (some _) _)

theorem shifts_enroll (wave : Wave) (id : UnitId) (dependencies : List Reference) :
    l.Shifts (l.enroll wave id dependencies) :=
  ((l.shifts_aside _ (some _) _).trans (.of_shift (.status id .loading))).trans
    (shifts_record _ rfl)

theorem shifts_setStatuses (ids : List UnitId) (status : LoadStatus) :
    l.Shifts (l.setStatuses ids status) := by
  induction ids generalizing l with
  | nil => exact .refl l
  | cons id rest ih => exact (Shifts.of_shift (.status id status)).trans (ih _)

theorem shifts_close (wave : Wave) : l.Shifts (l.close wave) :=
  ((l.shifts_aside _ none _).trans (shifts_setStatuses _ wave.participants .loaded)).trans
    (shifts_record _ rfl)

theorem shifts_await (id : UnitId) (callback : Option (Callback ω)) :
    l.Shifts (l.await id callback) :=
  .of_shift (.callbacks id (· ++ callback.toList))

theorem shifts_beginWave (id : UnitId) (callback : Option (Callback ω)) :
    l.Shifts (l.beginWave id callback) :=
  (l.shifts_await id callback).trans (shifts_aside _ _ (some {}) _)

theorem shifts_ask (key : String) : l.Shifts (l.ask key) :=
  (Shifts.of_shift (.mark key)).trans (shifts_record _ rfl)

theorem shifts_enlist (world : ω) (request : Request) (lookup : Lookup ω) :
    l.Shifts (l.enlist world request lookup) :=
  (l.shifts_aside world _ (l.lookups ++ [lookup])).trans (shifts_record _ rfl)

theorem shifts_noteFound (world : ω) (key : String)
    (answer : Except LoaderError (Option Resource)) :
    l.Shifts ({ l with world }.noteFound key answer) := by
  have hheard : l.Shifts { l with world } := l.shifts_aside world _ _
  rcases answer with e | _ | resource
  · exact hheard
  · exact hheard
  · exact hheard.trans (shifts_record _ rfl)

theorem shifts_abort (error : LoaderError) : l.Shifts (l.abort p error) := by
  rw [abort]
  split
  · exact (l.shifts_record rfl).trans (shifts_aside _ _ none [])
  · exact l.shifts_aside _ none []

theorem shifts_release : l.Shifts (l.release p) :=
  (l.shifts_record (e := .released) rfl).trans (.of_shift (.aside _ none [] _ _ true))

end Loader

namespace Machine

open Loader

variable {m n m' : Machine ω χ}

/-! ## Machines -/

structure Shifts (m m' : Machine ω χ) : Prop where
  loader : m.loader.Shifts m'.loader
  stack : ∃ pushed, m'.stack = pushed ++ m.stack ∧ ∀ frame ∈ pushed, frame.isPlain = true

namespace Shifts

theorem of_loader (h : m.loader.Shifts m'.loader) (hs : m'.stack = m.stack) : m.Shifts m' :=
  ⟨h, [], hs, by simp⟩

theorem of_same (hloader : m'.loader = m.loader) (hs : m'.stack = m.stack) : m.Shifts m' :=
  .of_loader (hloader ▸ .refl _) hs

theorem refl (m : Machine ω χ) : m.Shifts m := .of_same rfl rfl

theorem of_push (frame : Frame ω χ) (h : m.loader.Shifts m'.loader)
    (hplain : frame.isPlain = true) (hs : m'.stack = frame :: m.stack) : m.Shifts m' :=
  ⟨h, [frame], hs, by simpa using hplain⟩

theorem push (m : Machine ω χ) (frame : Frame ω χ) (hplain : frame.isPlain = true) :
    m.Shifts (m.push frame) :=
  .of_push frame (.refl _) hplain rfl

/-- What plain frames do not hold is on the stack as it was. -/
theorem filterMap {α : Type} {f : Frame ω χ → Option α}
    (hf : ∀ frame, frame.isPlain = true → f frame = none) (h : m.Shifts m') :
    m'.stack.filterMap f = m.stack.filterMap f := by
  obtain ⟨-, pushed, hs, hplain⟩ := h
  have hnone : pushed.filterMap f = [] :=
    List.filterMap_eq_nil_iff.mpr fun frame hframe ↦ hf frame (hplain frame hframe)
  rw [hs, List.filterMap_append, hnone, List.nil_append]

theorem trans (h : m.Shifts n) (h' : n.Shifts m') : m.Shifts m' := by
  obtain ⟨hloader, pushed, hs, hplain⟩ := h
  obtain ⟨hloader', pushed', hs', hplain'⟩ := h'
  refine ⟨hloader.trans hloader', pushed' ++ pushed, by rw [hs', hs, List.append_assoc], ?_⟩
  exact List.forall_mem_append.mpr ⟨hplain', hplain⟩

end Shifts

/-- A machine leads to another by shifts, after which one unit may be executed. -/
inductive Leads (m : Machine ω χ) : Machine ω χ → Prop
  | shifts {m' : Machine ω χ} (shifts : m.Shifts m') : Leads m m'
  | execute {n : Machine ω χ} (shifts : m.Shifts n) (id : UnitId) : Leads m (n.execute id)

namespace Leads

theorem of_loader (h : m.loader.Shifts m'.loader) (hs : m'.stack = m.stack) : m.Leads m' :=
  .shifts (.of_loader h hs)

theorem of_same (hloader : m'.loader = m.loader) (hs : m'.stack = m.stack) : m.Leads m' :=
  .shifts (.of_same hloader hs)

theorem after (h : m.Shifts n) (h' : n.Leads m') : m.Leads m' := by
  cases h' with
  | shifts h' => exact .shifts (h.trans h')
  | execute h' id => exact .execute (h.trans h') id

/-- What is kept by shifts and by the executing of a unit is kept where one machine leads to
another. -/
theorem induct {R : Machine ω χ → Machine ω χ → Prop}
    (htrans : ∀ {m n m'}, R m n → R n m' → R m m')
    (hshifts : ∀ {m m'}, m.Shifts m' → R m m') (hexecute : ∀ m id, R m (m.execute id))
    (h : m.Leads m') : R m m' := by
  cases h with
  | shifts h => exact hshifts h
  | execute h id => exact htrans (hshifts h) (hexecute _ id)

end Leads

/-! ## Operations -/

variable (m) (p : Platform ω χ)

theorem shifts_closeWave : m.Shifts m.closeWave := by
  cases hwave : m.loader.wave with
  | none =>
    rw [closeWave, hwave]
    exact .of_same rfl rfl
  | some wave =>
    rw [closeWave_eq hwave]
    have hclosed := m.loader.shifts_close wave
    rcases wave.participants with _ | ⟨first, rest⟩
    · exact .of_loader hclosed rfl
    · exact .of_push (.draining first [] (first :: rest)) hclosed rfl rfl

theorem shifts_join (id : UnitId) : m.Shifts (m.join id) := by
  cases hwave : m.loader.wave with
  | none =>
    rw [join, hwave]
    exact .of_loader (m.loader.shifts_record rfl) rfl
  | some wave =>
    cases hs : m.loader.standing? id with
    | none =>
      rw [join, hwave, standing?_eq_none.mp hs]
      exact .of_same rfl rfl
    | some s =>
      rw [join_eq hwave hs]
      exact .of_push _ ((m.loader.shifts_enroll wave id s.dependencies).trans
        (shifts_operation _ .searcher s.directory)) rfl rfl

theorem shifts_searchFinished (id : UnitId) : m.Shifts (m.searchFinished id) := by
  have hsettled : m.Shifts { m with loader := m.loader.settleOne.1 } :=
    .of_loader m.loader.shifts_settleOne rfl
  rw [searchFinished]
  dsimp only
  split
  · exact hsettled.trans (.of_same rfl rfl)
  · split
    · exact hsettled.trans (shifts_join _ id)
    · split
      · exact hsettled.trans (shifts_closeWave _)
      · exact hsettled.trans (.of_same rfl rfl)

theorem leads_callBack (id : UnitId) (callback : Callback ω) :
    m.Leads (m.callBack id callback) := by
  cases callback with
  | code code => exact .of_same rfl rfl
  | importing deliver => exact .execute (.push m _ rfl) id

theorem leads_loadDependencies (id : UnitId) (callback : Option (Callback ω)) :
    m.Leads (m.loadDependencies p id callback) := by
  cases hs : m.loader.standing? id with
  | none =>
    rw [loadDependencies_unknown p hs]
    exact .of_same rfl rfl
  | some s =>
    rw [loadDependencies_eq p hs]
    cases s.status with
    | loaded =>
      cases callback with
      | none => exact .of_same rfl rfl
      | some callback =>
        exact .after (n := m.update (·.record (.delivered id)))
          (.of_loader (m.loader.shifts_record rfl) rfl) (leads_callBack _ id callback)
    | loading => exact .of_loader (m.loader.shifts_await id callback) rfl
    | unloaded =>
      dsimp only
      split
      · exact .of_loader (m.loader.shifts_aside _ _ _) rfl
      · have hbegun : m.Shifts ((m.update (·.beginWave id callback)).push .aborting) :=
          .of_push _ (m.loader.shifts_beginWave id callback) rfl rfl
        exact .shifts (hbegun.trans (shifts_join _ id))

theorem leads_continueSearch (id : UnitId) (purpose : Purpose ω) :
    m.Leads (m.continueSearch p id purpose) := by
  cases purpose with
  | wave => exact .shifts (m.shifts_searchFinished id)
  | importing deliver => exact m.leads_loadDependencies p id (some (.importing deliver))

theorem shifts_failSearch (purpose : Purpose ω) (error : LoaderError) :
    m.Shifts (m.failSearch p purpose error) :=
  .of_loader (m.loader.shifts_aside _ _ _) rfl

theorem leads_search (searcher : Operation) (reference : Reference) (origin : Option Url)
    (purpose : Purpose ω) : m.Leads (m.search p searcher reference origin purpose) := by
  rcases search_cases p m searcher reference origin purpose with
    ⟨id, -, heq⟩ | ⟨-, ⟨cause, -, heq⟩ | ⟨request, -, heq⟩⟩
  all_goals rw [heq]
  · exact m.leads_continueSearch p id purpose
  · exact .shifts (m.shifts_failSearch p purpose _)
  · exact .of_loader (m.loader.shifts_enlist _ _ _) rfl

theorem leads_continueDispatching (id : UnitId) (searcher : Operation) (rest : List Reference) :
    m.Leads (m.continueDispatching p id searcher rest) := by
  cases rest with
  | nil => exact .of_same rfl rfl
  | cons reference rest =>
    have hpushed : m.Shifts (m.push (.dispatching id searcher rest)) := .push m _ rfl
    rw [continueDispatching]
    dsimp only
    generalize m.push (.dispatching id searcher rest) = n at hpushed
    split
    · have hsettled : m.Shifts { n with loader := n.loader.settleOne.1 } :=
        hpushed.trans (.of_loader n.loader.shifts_settleOne rfl)
      split
      · exact .shifts (hsettled.trans (shifts_closeWave _))
      · exact .shifts (hsettled.trans (.of_same rfl rfl))
    · have hasked : m.Shifts (n.update (·.ask (reference.key searcher.context.text))) :=
        hpushed.trans (.of_loader (n.loader.shifts_ask _) rfl)
      exact .after hasked (leads_search _ p searcher reference _ .wave)

theorem leads_importFile (importer : Operation) (reference : Reference)
    (deliver : Option (Outcome → Code ω)) :
    m.Leads (m.importFile p importer reference deliver) := by
  let n : Machine ω χ := { m with
    loader := ((m.loader.touch p.resolver.enableCaching).operation .searcher importer.context).1 }
  have hcached : m.loader.Shifts (m.loader.touch p.resolver.enableCaching) :=
    m.loader.shifts_aside _ _ _
  have hmade : m.Shifts n :=
    .of_loader (hcached.trans (shifts_operation _ .searcher importer.context)) rfl
  exact .after hmade (leads_search n p _ reference _ _)

theorem leads_callReference (executer : Operation) (reference : Reference) :
    m.Leads (m.callReference executer reference) := by
  rw [callReference]
  split
  · split
    · exact .execute (.refl m) _
    · exact .of_same rfl rfl
  · exact .of_same rfl rfl

theorem leads_continueDraining (id : UnitId) (callbacks : List (Callback ω))
    (rest : List UnitId) : m.Leads (m.continueDraining id callbacks rest) := by
  cases callbacks with
  | cons callback callbacks =>
    have hdelivered : m.Shifts
        ((m.push (.draining id callbacks rest)).update (·.record (.delivered id))) :=
      .of_push _ (m.loader.shifts_record rfl) rfl rfl
    exact .after hdelivered (leads_callBack _ id callback)
  | nil =>
    cases rest with
    | nil => exact .of_same rfl rfl
    | cons next rest =>
      exact .shifts (.of_push _ (.of_shift (.callbacks next fun _ ↦ [])) rfl rfl)

/-! ## Lookups -/

/-- What completing a lookup comes to, apart from shifts: a file that was found is made into a unit,
which is then remembered for the reference. -/
theorem leads_completeLookup (lookup : Lookup ω) :
    ∃ world answer,
      let noted : Loader ω χ := { m.loader with world }.noteFound lookup.key answer
      let made := noted.unitOfAnswer p lookup.locator lookup.origin answer
      (∃ l e, made = (l, .error e) ∧
        ({ m with loader := l } : Machine ω χ).Leads (m.completeLookup p lookup)) ∨
      ∃ l id, made = (l, .ok id) ∧
        ({ m with loader := { l with cache := l.cache.insertResult lookup.key id } } :
          Machine ω χ).Leads (m.completeLookup p lookup) := by
  rw [completeLookup]
  rcases p.resolver.answer m.loader.world lookup.ticket with ⟨world, answer⟩
  refine ⟨world, answer, ?_⟩
  dsimp only
  rcases ({ m.loader with world } : Loader ω χ).noteFound lookup.key answer |>.unitOfAnswer p
    lookup.locator lookup.origin answer with ⟨l, e | id⟩
  · exact .inl ⟨l, e, rfl, .shifts (shifts_failSearch _ p lookup.purpose e)⟩
  · exact .inr ⟨l, id, rfl, leads_continueSearch _ p id lookup.purpose⟩

/-- What completing the next lookup comes to: one is completed after some shifts, if any is. -/
theorem leads_drive (next : Awaited Unit → Code ω) :
    m.Shifts (m.drive p next) ∨
      ∃ n lookup, m.Shifts n ∧ m.drive p next = n.completeLookup p lookup := by
  rcases drive_cases p m next with
    ⟨-, heq⟩ | ⟨world, -, heq⟩ | ⟨world, before, lookup, after, -, -, heq⟩
  all_goals rw [heq]
  · exact .inl (.of_same rfl rfl)
  · exact .inl (.of_loader (m.loader.shifts_aside world _ _) rfl)
  · refine .inr ⟨(m.update (·.leave world (before ++ after))).push (.driving next), lookup, ?_, rfl⟩
    exact .of_push _ (m.loader.shifts_aside world _ _) rfl rfl

/-! ## Steps -/

variable {code : Code ω} {frame : Frame ω χ}

theorem leads_runCode (h : code.isPlain = true) : m.Leads (m.runCode p code) := by
  cases code with
  | loadDependencies unit callback next =>
    exact .after (.push m (.resumeAfter next) rfl) (leads_loadDependencies _ p unit _)
  | execute unit next => exact .execute (.push m _ rfl) unit
  | call executer reference next =>
    rw [runCode]
    split
    · exact .of_same rfl rfl
    · exact .after (.push m (.resume next) rfl) (leads_callReference _ executer reference)
  | importFile importer reference callback next =>
    rw [runCode]
    split
    · exact .of_same rfl rfl
    · exact .after (.push m (.resumeAfter next) rfl)
        (leads_importFile _ p importer reference callback)
  | touch | bindGlobal | setSubstitutions => exact .of_loader (.of_shift (.aside ..)) rfl
  | operation kind context next => exact .of_loader (m.loader.shifts_operation kind context) rfl
  | release next => exact .of_loader (m.loader.shifts_release p) rfl
  | finish | observe => exact .of_same rfl rfl
  | _ => cases h

/-- What handing an outcome to a plain frame comes to, if the next lookup is not completed. -/
theorem leads_resume (h : frame.isPlain = true) (outcome : Outcome) :
    m.Leads (m.resume p frame outcome) ∨
      ∃ next, frame = .driving next ∧ m.resume p frame outcome = m.drive p next := by
  cases frame with
  | calling | compiling => cases h
  | driving next =>
    cases outcome with
    | ok value => exact .inr ⟨next, rfl, rfl⟩
    | error error => exact .inl (.of_loader (m.loader.shifts_abort p error) rfl)
  | dispatching id searcher rest =>
    cases outcome with
    | ok value => exact .inl (m.leads_continueDispatching p id searcher rest)
    | error error => exact .inl (.of_same rfl rfl)
  | draining id callbacks rest =>
    cases outcome with
    | ok value => exact .inl (m.leads_continueDraining id callbacks rest)
    | error error => exact .inl (.of_loader (m.loader.shifts_aside _ _ _) rfl)
  | aborting =>
    cases outcome with
    | ok value => exact .inl (.of_same rfl rfl)
    | error error => exact .inl (.of_loader (m.loader.shifts_abort p error) rfl)
  | delivering deliver =>
    have hended : m.loader.Shifts (m.loader.endImports p 1) := m.loader.shifts_aside _ _ _
    cases deliver with
    | none => exact .inl (.of_loader hended rfl)
    | some deliver => exact .inl (.shifts (.of_push .ignoring hended rfl rfl))
  | resume | resumeAfter | ignoring => exact .inl (.of_same rfl rfl)

end Machine

end ScriptLoader
