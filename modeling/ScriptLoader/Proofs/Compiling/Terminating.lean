import ScriptLoader.Proofs.Compiling.Calls
import ScriptLoader.Proofs.Importing.Concurrent
import ScriptLoader.Proofs.RunOrder

/-!
# Units are compiled once, and executing one comes to an end

Executing a unit that awaits its second pass executes its dependencies, and the units that these
depend on in turn. Dependencies may form a cycle, and second passes may fail. But each second pass
that gets under way leaves one unit less that awaits it, and a unit whose second pass is under way
is not compiled again. So if every body that is called comes to its end, then so does the execution.

## Bodies

A body is code, and code may do anything: one that executes its own unit never comes to an end, and
neither need one that forgets what references led to and loads everything anew. So bodies are
assumed to execute nothing and to make no reference lead anywhere it did not lead before. That is so
for all code that asks only for what is granted at once.
-/

namespace ScriptLoader

variable {ω χ : Type}

/-- Whether code comes to its end by itself: it asks only for what is granted at once, and for no
unit to be loaded, executed or imported. -/
def Code.Settles : Code ω → Prop
  | finish _ => True
  | observe next => ∀ view, (next view).Settles
  | touch _ next | bindGlobal _ _ next | reset next | setHost _ next | setSubstitutions _ next
  | release next => next.Settles
  | openUnit _ next => ∀ awaited, (next awaited).Settles
  | createFromSource _ _ _ next | createFromFunction _ _ _ next | createFromResource _ next =>
    ∀ made, (next made).Settles
  | operation _ _ next => ∀ operation, (next operation).Settles
  | loadDependencies .. | drive _ | execute .. | call .. | importFile .. => False

namespace Loader

variable {l l' : Loader ω χ} {bound count : Nat} {id : UnitId} {body : Body ω χ}

/-- Some first units are known, results lead only to them, and fewer of them than a number await
their second pass. -/
structure AwaitsFewer (bound count : Nat) (l : Loader ω χ) : Prop where
  covers : l.Covers bound
  fewer : l.pendingCount bound < count

namespace AwaitsFewer

theorem mono (h : l.AwaitsFewer bound count) : l.AwaitsFewer bound (count + 1) :=
  ⟨h.covers, Nat.lt_succ_of_lt h.fewer⟩

/-- A change by which no first unit comes to await its second pass. -/
theorem of_pending (h : l.AwaitsFewer bound count) (hcovers : l'.Covers bound)
    (hpending : ∀ id < bound, l'.stage? id = some .pending → l.stage? id = some .pending) :
    l'.AwaitsFewer bound count where
  covers := hcovers
  fewer := by
    refine Nat.lt_of_le_of_lt (Finset.card_le_card fun id hid ↦ ?_) h.fewer
    obtain ⟨hrange, hstage⟩ := Finset.mem_filter.mp hid
    exact Finset.mem_filter.mpr ⟨hrange, hpending id (Finset.mem_range.mp hrange) hstage⟩

theorem of_stages (h : l.AwaitsFewer bound count)
    (hstages : ∀ id < bound, l'.stage? id = l.stage? id)
    (hresults : ∀ {key id}, l'.cache.result? key = some id → l.cache.result? key = some id) :
    l'.AwaitsFewer bound count := by
  refine h.of_pending ⟨fun id hid ↦ ?_, fun hresult ↦ h.covers.results (hresults hresult)⟩
    fun id hid hstage ↦ hstages id hid ▸ hstage
  rw [hstages id hid]
  exact h.covers.known id hid

theorem of_same (h : l.AwaitsFewer bound count) (hunits : l'.units = l.units)
    (hcache : l'.cache = l.cache) : l'.AwaitsFewer bound count :=
  h.of_stages (fun id _ ↦ stage?_congr hunits id) fun hresult ↦ hcache ▸ hresult

theorem stays (h : l.AwaitsFewer bound count) (hstays : l.Stays l') :
    l'.AwaitsFewer bound count := by
  refine h.of_stages (fun id hid ↦ ?_) hstays.results
  obtain ⟨stage, hstage⟩ := Option.isSome_iff_exists.mp (h.covers.known id hid)
  rw [hstays.spares.stage?_eq hstage, hstage]

theorem executed (h : l.AwaitsFewer bound count) (hexecuted : l.Executed l') :
    l'.AwaitsFewer bound count :=
  ⟨h.covers.executed hexecuted,
    Nat.lt_of_le_of_lt (pendingCount_executed h.covers hexecuted) h.fewer⟩

theorem begin (h : l.AwaitsFewer bound (count + 1)) (hid : id < bound)
    (hpending : l.stage? id = some .pending) :
    (l.setBody id .compiling).AwaitsFewer bound count where
  covers := h.covers.setBody id .compiling
  fewer := Nat.lt_of_lt_of_le (pendingCount_setBody hid hpending) (Nat.le_of_lt_succ h.fewer)

theorem setBody (h : l.AwaitsFewer bound count) (id : UnitId) (hbody : body.stage ≠ .pending) :
    (l.setBody id body).AwaitsFewer bound count := by
  refine h.of_pending (h.covers.setBody id body) fun other _ hstage ↦ ?_
  rw [stage?_setBody, Option.map_eq_some_iff] at hstage
  obtain ⟨stage, hstage, heq⟩ := hstage
  split at heq
  · exact absurd heq hbody
  · exact heq ▸ hstage

end AwaitsFewer

end Loader

namespace Machine

open Loader Journal

variable {p : Platform ω χ} {start m m' : Machine ω χ} {l : Loader ω χ} {id : UnitId}
  {inner base below : List (Frame ω χ)} {bound count : Nat}

/-! ## Runs on top of a stack -/

/-- What does not return to a higher stack does not return to one that it stands on. -/
theorem Runs.lower (h : Runs p inner m m') (hm : inner <:+ m.stack) (hbase : base <:+ inner) :
    Runs p base m m' := by
  induction h with
  | refl m => exact .refl m
  | @step m m' hpending hrest ih =>
    refine .step ?_ (ih ?_)
    · rintro ⟨outcome, hcontrol, hs⟩
      have heq : inner = base := (hs ▸ hm).eq_of_length_le hbase.length_le
      exact hpending ⟨outcome, hcontrol, hs.trans heq.symm⟩
    · obtain ⟨above, hs⟩ := hm
      cases inner with
      | nil => exact List.nil_suffix
      | cons frame inner =>
        rcases stack_step (p := p) hs.symm with ⟨above', hs'⟩ | ⟨rfl, outcome, hcontrol⟩
        · exact ⟨above', hs'.symm⟩
        · exact absurd ⟨outcome, hcontrol, hs.symm⟩ hpending

/-- What is returned to a frame has not been returned below it. -/
theorem runs_of_above {frame : Frame ω χ} (hs : m.stack = frame :: below)
    (hbase : base <:+ below) : Runs p base m (m.step p) := by
  refine .step ?_ (.refl _)
  rintro ⟨outcome, -, hreturned⟩
  have hlength := hbase.length_le
  rw [hreturned] at hs
  rw [hs, List.length_cons] at hlength
  omega

/-! ## Bodies that come to their end -/

/-- Every body that is called comes to its end, in which nothing is executed, and references lead
nowhere that they did not lead before. -/
def CallsEnd (p : Platform ω χ) (base : List (Frame ω χ)) (start : Machine ω χ) : Prop :=
  ∀ ⦃m id directory callable⦄, Runs p base start (callBody m id directory callable) →
    ∃ outcome l', Runs p (m.callBody id directory callable).stack
        (m.callBody id directory callable)
        ⟨l', .returning outcome, (m.callBody id directory callable).stack⟩ ∧
      (m.callBody id directory callable).loader.Stays l'

theorem exists_ends_of_step {code code' : Code ω} {l₁ : Loader ω χ}
    (hstep : step p ⟨l, .running code, base⟩ = ⟨l₁, .running code', base⟩) (hstays : l.Stays l₁)
    (hends : ∃ outcome l', Ends p base l₁ code' outcome l' ∧ l₁.Stays l') :
    ∃ outcome l', Ends p base l code outcome l' ∧ l.Stays l' := by
  obtain ⟨outcome, l', hends, hstays'⟩ := hends
  exact ⟨outcome, l', (runs_of_running hstep).trans hends, hstays.trans hstays'⟩

/-- Code that comes to its end by itself does so wherever it is run. -/
theorem exists_ends_of_settles (p : Platform ω χ) (base : List (Frame ω χ)) :
    (code : Code ω) → code.Settles → (l : Loader ω χ) →
      ∃ outcome l', Ends p base l code outcome l' ∧ l.Stays l'
  | .finish outcome, _, l => ⟨outcome, l, runs_of_running rfl, .refl l⟩
  | .observe next, h, l =>
    exists_ends_of_step rfl (.refl l) (exists_ends_of_settles p base (next l.view) (h _) l)
  | .touch change next, h, l => by
    have hstays : l.Stays (l.touch change) := .of_same rfl rfl rfl
    exact exists_ends_of_step rfl hstays (exists_ends_of_settles p base next h _)
  | .bindGlobal name value next, h, l => by
    have hstays : l.Stays { l with scope := l.scope.insert name value } := .of_same rfl rfl rfl
    exact exists_ends_of_step rfl hstays (exists_ends_of_settles p base next h _)
  | .openUnit url next, h, l => by
    have hstays : l.Stays (l.openUnit p url).1 :=
      .of_quiet (l.quiet_openUnit p url) (l.strokes_openUnit p url).spares
    exact exists_ends_of_step rfl hstays (exists_ends_of_settles p base (next _) (h _) _)
  | .createFromSource url code dependencies next, h, l => by
    have hstays : l.Stays (l.createFromSource p url code dependencies).1 :=
      .of_quiet (l.quiet_createFromSource p url code dependencies)
        (l.strokes_createFromSource p url code dependencies).spares
    exact exists_ends_of_step rfl hstays (exists_ends_of_settles p base (next _) (h _) _)
  | .createFromFunction url body dependencies next, h, l => by
    have hstays : l.Stays (l.createFromFunction url body dependencies).1 :=
      .of_quiet (l.quiet_createFromFunction url body dependencies)
        (l.strokes_createFromFunction p url body dependencies).spares
    exact exists_ends_of_step rfl hstays (exists_ends_of_settles p base (next _) (h _) _)
  | .createFromResource resource next, h, l => by
    have hstays : l.Stays (l.unitOfResource p resource).1 :=
      .of_quiet (l.quiet_unitOfResource p resource) (l.strokes_unitOfResource p resource).spares
    exact exists_ends_of_step rfl hstays (exists_ends_of_settles p base (next _) (h _) _)
  | .operation kind context next, h, l => by
    have hstays : l.Stays (l.operation kind context).1 :=
      .of_quiet (l.quiet_operation kind context) (l.spares_operation kind context)
    exact exists_ends_of_step rfl hstays (exists_ends_of_settles p base (next _) (h _) _)
  | .reset next, h, l => by
    have hstays : l.Stays { l.record .reset with cache := {} } :=
      ⟨(l.spares_record (e := .reset) rfl).trans (.of_same rfl rfl), fun hresult ↦ by cases hresult⟩
    exact exists_ends_of_step rfl hstays (exists_ends_of_settles p base next h _)
  | .setHost host next, h, l => by
    have hstays : l.Stays { l with host } := .of_same rfl rfl rfl
    exact exists_ends_of_step rfl hstays (exists_ends_of_settles p base next h _)
  | .setSubstitutions substitutions next, h, l => by
    have hstays : l.Stays { l with substitutions } := .of_same rfl rfl rfl
    exact exists_ends_of_step rfl hstays (exists_ends_of_settles p base next h _)
  | .release next, h, l => by
    have hstays : l.Stays (l.release p) := ⟨(l.shifts_release p).spares, id⟩
    exact exists_ends_of_step rfl hstays (exists_ends_of_settles p base next h _)

/-- Bodies come to their end if the code does that is run for the call of one. -/
theorem callsEnd_of_settles
    (h : ∀ {m code previous below}, Runs p base start m → m.control = .running code →
      m.stack = .calling previous :: below → code.Settles) : CallsEnd p base start := by
  intro m id directory callable hruns
  obtain ⟨outcome, l', hends, hstays⟩ :=
    exists_ends_of_settles p _ _ (h hruns rfl rfl) (m.callBody id directory callable).loader
  exact ⟨outcome, l', hends, hstays⟩

theorem CallsEnd.callBody (h : CallsEnd p base start) {directory : Url} {callable : Callable ω}
    (hruns : Runs p base start (m.callBody id directory callable))
    (hawaits : m.loader.AwaitsFewer bound count) :
    ∃ outcome l', Runs p m.stack (m.callBody id directory callable)
        ⟨l', .returning outcome, m.stack⟩ ∧ l'.AwaitsFewer bound count := by
  obtain ⟨hcalled, previous, hs⟩ := m.stays_callBody id directory callable
  obtain ⟨outcome, l', hreturns, hstays⟩ := h hruns
  rw [hs] at hreturns
  have hbefore : (m.loader.record (.called id)).AwaitsFewer bound count := hawaits.of_same rfl rfl
  have hreturned : Runs p m.stack ⟨l', .returning outcome, .calling previous :: m.stack⟩
      ⟨{ l' with executing := previous }, .returning outcome, m.stack⟩ :=
    runs_of_above rfl (List.suffix_refl _)
  refine ⟨outcome, { l' with executing := previous }, ?_, ?_⟩
  · exact (hreturns.lower (hs ▸ List.suffix_refl _) (List.suffix_cons _ _)).trans hreturned
  · exact ((hbefore.stays hcalled).stays hstays).of_same rfl rfl

/-! ## Second passes that come to their end -/

/-- Executing a unit comes to an end, as long as fewer units than a number await their second
pass. -/
def ExecutesWithin (p : Platform ω χ) (base : List (Frame ω χ)) (start : Machine ω χ)
    (bound count : Nat) : Prop :=
  ∀ ⦃m id⦄, Runs p base start (execute m id) → base <:+ m.stack → m.loader.AwaitsFewer bound count →
    id < bound → ∃ outcome l', Runs p m.stack (m.execute id) ⟨l', .returning outcome, m.stack⟩ ∧
      l'.AwaitsFewer bound count

variable {pass : SecondPass ω χ} {executer : Operation}

theorem awaitsFewer_leaveCompilation {control : Control ω} {body : Body ω χ}
    (h : l.AwaitsFewer bound count) (hbody : body.stage ≠ .pending) :
    (leaveCompilation ⟨l, control, below⟩ pass body).loader.AwaitsFewer bound count :=
  (h.setBody pass.unit hbody).of_same rfl rfl

/-- A dependency has failed, and so does the second pass. -/
theorem exists_returns_of_error {error : LoaderError} (h : l.AwaitsFewer bound count) :
    ∃ outcome l', Runs p below ⟨l, .returning (.error error), .compiling pass executer :: below⟩
        ⟨l', .returning outcome, below⟩ ∧ l'.AwaitsFewer bound count :=
  ⟨.error error, _, runs_of_above rfl (List.suffix_refl _),
    awaitsFewer_leaveCompilation h (by simp [Body.stage])⟩

/-- The dependencies of a unit have been executed: its second pass is run, and its body is called if
that succeeds. -/
theorem CallsEnd.finishCompilation (h : CallsEnd p base start) {value : Value}
    (hrest : pass.rest = [])
    (hruns : Runs p base start ⟨l, .returning (.ok value), .compiling pass executer :: below⟩)
    (hbase : base <:+ below) (hawaits : l.AwaitsFewer bound count) :
    ∃ outcome l', Runs p below ⟨l, .returning (.ok value), .compiling pass executer :: below⟩
        ⟨l', .returning outcome, below⟩ ∧ l'.AwaitsFewer bound count := by
  have hstep : step p ⟨l, .returning (.ok value), .compiling pass executer :: below⟩ =
      continueCompilation p ⟨l, .returning (.ok value), below⟩ pass executer := rfl
  have hnext {base : List (Frame ω χ)} (hbase : base <:+ below) :
      Runs p base ⟨l, .returning (.ok value), .compiling pass executer :: below⟩ _ :=
    runs_of_above rfl hbase
  have hcompiled := hawaits.executed (l.executed_compileUnit p pass)
  rw [hstep, continueCompilation, hrest] at hnext
  rcases heq : l.compileUnit p pass with ⟨l₁, error | callable⟩
  all_goals
    rw [heq] at hcompiled
    simp only [heq] at hnext
  · exact ⟨.error error, _, hnext (List.suffix_refl _),
      awaitsFewer_leaveCompilation hcompiled (by simp [Body.stage])⟩
  · obtain ⟨outcome, l', hcall, hover⟩ := h.callBody (hruns.trans (hnext hbase))
      (awaitsFewer_leaveCompilation hcompiled (by simp [Body.stage]))
    exact ⟨outcome, l', (hnext (List.suffix_refl _)).trans hcall, hover⟩

/-- A dependency is executed, unless the reference leads to no loaded unit. -/
theorem ExecutesWithin.callReference (hexecutes : ExecutesWithin p base start bound count)
    {reference : Reference} (hruns : Runs p base start (m.callReference executer reference))
    (hbase : base <:+ m.stack) (hawaits : m.loader.AwaitsFewer bound count) :
    ∃ outcome l', Runs p m.stack (m.callReference executer reference)
        ⟨l', .returning outcome, m.stack⟩ ∧ l'.AwaitsFewer bound count := by
  rw [Machine.callReference] at hruns ⊢
  split at hruns
  case h_1 id hresult =>
    by_cases hloaded : m.loader.isLoaded id = true
    · rw [if_pos hloaded] at hruns ⊢
      exact hexecutes hruns hbase hawaits (hawaits.covers.results hresult)
    · rw [if_neg hloaded]
      exact ⟨_, m.loader, .refl _, hawaits⟩
  case h_2 => exact ⟨_, m.loader, .refl _, hawaits⟩

/-- A second pass goes on with what a dependency has come to. -/
theorem ExecutesWithin.compile (hexecutes : ExecutesWithin p base start bound count)
    (h : CallsEnd p base start) {outcome : Outcome} {rest : List Reference}
    (hrest : pass.rest = rest)
    (hruns : Runs p base start ⟨l, .returning outcome, .compiling pass executer :: below⟩)
    (hbase : base <:+ below) (hawaits : l.AwaitsFewer bound count) :
    ∃ outcome' l', Runs p below ⟨l, .returning outcome, .compiling pass executer :: below⟩
        ⟨l', .returning outcome', below⟩ ∧ l'.AwaitsFewer bound count := by
  -- on the references that are left, for any outcome of the last one
  induction rest generalizing pass l outcome with
  | nil =>
    cases outcome with
    | ok value => exact h.finishCompilation hrest hruns hbase hawaits
    | error error => exact exists_returns_of_error hawaits
  | cons reference rest ih =>
    cases outcome with
    | error error => exact exists_returns_of_error hawaits
    | ok value =>
      let m : Machine ω χ :=
        ⟨l, .returning (.ok value), .compiling { pass with rest } executer :: below⟩
      have hstep : step p ⟨l, .returning (.ok value), .compiling pass executer :: below⟩ =
          m.callReference executer reference := by
        simp only [step, resume, continueCompilation, hrest]
        rfl
      have hnext {base : List (Frame ω χ)} (hbase : base <:+ below) :
          Runs p base ⟨l, .returning (.ok value), .compiling pass executer :: below⟩
            (m.callReference executer reference) :=
        hstep ▸ runs_of_above rfl hbase
      have habove : below <:+ m.stack := List.suffix_cons _ _
      -- whatever the dependency comes to, it is returned to the frame of the second pass
      obtain ⟨outcome, l₁, hreturns, hl₁⟩ := hexecutes.callReference (hruns.trans (hnext hbase))
        (hbase.trans habove) hawaits
      obtain ⟨-, pushed, hpushed, -⟩ := m.grows_callReference [] executer reference
      have hfirst {base : List (Frame ω χ)} (hbase : base <:+ below) :=
        (hnext hbase).trans (hreturns.lower ⟨pushed, hpushed.symm⟩ (hbase.trans habove))
      obtain ⟨outcome', l', hlast, hl'⟩ :=
        ih (rfl : ({ pass with rest } : SecondPass ω χ).rest = rest) (hruns.trans (hfirst hbase))
          hl₁
      exact ⟨outcome', l', (hfirst (List.suffix_refl _)).trans hlast, hl'⟩

/-- **Executing a unit comes to an end**, whatever has become of it. -/
theorem CallsEnd.executesWithin (h : CallsEnd p base start) (bound count : Nat) :
    ExecutesWithin p base start bound count := by
  -- a second pass that gets under way leaves one unit less that awaits it
  induction count with
  | zero => exact fun _ _ _ _ hawaits _ ↦ absurd hawaits.fewer (Nat.not_lt_zero _)
  | succ count ih =>
    intro m id hruns hbase hawaits hid
    obtain ⟨stage, hstage⟩ := Option.isSome_iff_exists.mp (hawaits.covers.known id hid)
    obtain ⟨unit, hunit, hexecutes⟩ := exists_executesAs hstage
    cases hexecutes with
    | ready heq =>
      rw [heq] at hruns ⊢
      exact h.callBody hruns hawaits
    | @pending compiler file heq =>
      rw [heq] at hruns ⊢
      obtain ⟨l₁, pass, executer, hbegin, hl₁, rfl, hrest⟩ :=
        exists_beginCompilation m.loader m.control m.stack id unit.info compiler file
      rw [hbegin] at hruns ⊢
      obtain ⟨outcome, l', hreturns, hl'⟩ :=
        ih.compile h hrest hruns hbase ((hawaits.begin hid hstage).executed hl₁)
      exact ⟨outcome, l', hreturns, hl'.mono⟩
    | compiling heq =>
      rw [heq]
      exact ⟨_, m.loader, .refl _, hawaits⟩
    | failed heq =>
      rw [heq]
      exact ⟨_, m.loader, .refl _, hawaits⟩

theorem length_execute (m : Machine ω χ) (id : UnitId) :
    (m.execute id).loader.units.length = m.loader.units.length := by
  cases hstage : m.loader.stage? id with
  | none =>
    rw [execute, Option.map_eq_none_iff.mp hstage]
    rfl
  | some stage =>
    obtain ⟨unit, -, hexecutes⟩ := exists_executesAs hstage
    cases hexecutes with
    | ready heq => rw [heq, units_callBody]
    | pending heq =>
      rw [heq]
      exact (congrArg List.length (units_operation _ .executer unit.info.directory)).trans
        (List.length_modify _ _ _)
    | compiling heq | failed heq => rw [heq]; rfl

theorem exists_returns_execute (htidy : (m.execute id).loader.Tidy)
    (hcalls : CallsEnd p m.stack (m.execute id)) :
    ∃ outcome l', Runs p m.stack (m.execute id) ⟨l', .returning outcome, m.stack⟩ := by
  have hknown (id : UnitId) (hid : id < m.loader.units.length) :
      (m.loader.stage? id).isSome = true := by
    obtain ⟨body, hbody⟩ := exists_body? hid
    rw [stage?_of_body? hbody]
    rfl
  have hcovers : m.loader.Covers m.loader.units.length := by
    refine ⟨hknown, fun {key id'} hresult ↦ ?_⟩
    rw [← length_execute m id]
    exact htidy.covers.results ((grows_execute [] m id).quiet.result? key ▸ hresult)
  by_cases hid : id < m.loader.units.length
  · obtain ⟨outcome, l', hreturns, -⟩ :=
      hcalls.executesWithin m.loader.units.length (m.loader.pendingCount m.loader.units.length + 1)
        (.refl _) (List.suffix_refl _) ⟨hcovers, Nat.lt_succ_self _⟩ hid
    exact ⟨outcome, l', hreturns⟩
  · -- a unit that is not known has nothing to be executed
    have hunit : m.loader.unit? id = none := List.getElem?_eq_none (not_lt.mp hid)
    have heq : m.execute id = m.done := by simp only [execute, hunit]
    rw [heq]
    exact ⟨_, m.loader, .refl _⟩

/-! ## What becomes of a unit -/

/-- **A unit is compiled once at most, and what becomes of it is final.** In any run, however units
are executed and imported, and whatever is executed on the way:

* No second pass is run twice, and the sink for diagnostics is written to by no other step. A step
  executes one unit at most, and it leaves bodies alone until then.
* The body of a unit moves on from awaiting its second pass to compiling, and from there to ready or
  failed, and neither changes any more, nor does its URL. It is compiling just as long as its second
  pass is under way.
* To execute a unit that is compiling does nothing. To execute a unit that is ready calls what it
  was ready with at first: this is told of in the journal, and it is what the machine runs next. To
  execute one that has failed is the same error each time and does nothing else.
* A step that tells of a call calls one body, with which its unit is ready.
* Second passes are nested no deeper than there have been units that awaited theirs.
* The execution of a unit comes to an end if all bodies that are called in it come to theirs, and
  execute nothing and make no reference lead anywhere new. -/
theorem History.compiled_once {earlier : List (Machine ω χ)} (h : History p (m :: earlier)) :
    ((m :: earlier).filterMap secondPass?).Nodup ∧
    (m.secondPass? = none → ∀ write, m.step { p with write } = m.step p) ∧
    m.Fares p (m.step p) ∧
    (∀ m₀ ∈ m :: earlier, m₀.loader.Matures m.loader ∧ m₀.loader.Keeps m.loader) ∧
    (∀ id, m.loader.body? id = some .compiling ↔ id ∈ m.underway) ∧
    (∀ l control stack id unit, m.loader.Retains l → l.unit? id = some unit →
      (id ∈ m.underway →
        execute ⟨l, control, stack⟩ id = ⟨l, .returning (.ok .undefined), stack⟩) ∧
      ∀ m₀ ∈ m :: earlier,
        (∀ callable, m₀.loader.body? id = some (.ready callable) →
          execute ⟨l, control, stack⟩ id =
              callBody ⟨l, control, stack⟩ id unit.info.directory callable ∧
            ∃ arguments, Calls ⟨l, control, stack⟩ (execute ⟨l, control, stack⟩ id) id callable
              arguments) ∧
        (m₀.loader.body? id = some .failed → execute ⟨l, control, stack⟩ id =
          ⟨l, .returning (.error (.compilation unit.info.url.text)), stack⟩)) ∧
    (calls (m.step p).loader.journal ≠ calls m.loader.journal →
      ∃ id callable arguments, m.Calls (m.step p) id callable arguments) ∧
    (∀ m₀ ∈ m :: earlier, m.underway.length ≤
      m₀.underway.length + m₀.loader.pendingCount m₀.loader.units.length +
        ((Finset.Ico m₀.loader.units.length m.loader.units.length).filter fun id ↦
          m.loader.stage? id ≠ some .ready).card) ∧
    ∀ (n : Machine ω χ) id, m = n.execute id → CallsEnd p n.stack m →
      ∃ outcome l', Runs p n.stack m ⟨l', .returning outcome, n.stack⟩ := by
  have hnests := h.reachable.nests
  refine ⟨h.secondPasses_nodup, step_of_idle p, m.step_fares p, fun m₀ ↦ h.matures,
    fun id ↦ hnests.compiling, fun l control stack id unit hretains hunit ↦ ?_,
    calls_step p hnests, fun m₀ ↦ h.underway_length_le, ?_⟩
  · -- the loader may have changed since, but not in its bodies
    have hbody {body : Body ω χ} (hbody : m.loader.body? id = some body) : unit.body = body := by
      have hsame := hretains.spares.bodies hbody
      rw [body?_of_unit? hunit] at hsame
      exact Option.some.inj hsame
    refine ⟨fun hunderway ↦ ?_, fun m₀ hm₀ ↦ ⟨fun callable hready ↦ ?_, fun hfailed ↦ ?_⟩⟩
    · have hcompiling := hbody (hnests.compiling.mpr hunderway)
      simp only [execute, hunit, hcompiling]
      rfl
    · obtain ⟨body, hnow, hadvances⟩ := (h.matures hm₀).1 hready
      have hready := (hbody hnow).trans hadvances.eq_ready
      have hcall : execute ⟨l, control, stack⟩ id =
          callBody ⟨l, control, stack⟩ id unit.info.directory callable := by
        simp only [execute, hunit, hready]
      exact ⟨hcall, hcall ▸ calls_callBody _ id _ (hready ▸ body?_of_unit? hunit)⟩
    · obtain ⟨body, hnow, hadvances⟩ := (h.matures hm₀).1 hfailed
      have hfailed := (hbody hnow).trans hadvances.eq_failed
      simp only [execute, hunit, hfailed]
      rfl
  · rintro n id rfl hcalls
    exact exists_returns_execute (h.reachable.sound p).tidy hcalls

def openedBranch : Loader (List Request) Unit :=
  (({ world := [], base := .file "/".toList } : Loader (List Request) Unit).openUnit
    (branches.platform List.head?) (.file "/a".toList)).1

/-- It has been loaded, and the file that it refers to has been executed. -/
def loadedBranch : Machine (List Request) Unit :=
  run (branches.platform List.head?) 50
    ⟨openedBranch, .running (Program.load 0 fun _ ↦ .execute 1 .finish), []⟩

/-- Its second pass has got under way. -/
def executingBranch : Machine (List Request) Unit :=
  step (branches.platform List.head?)
    { loadedBranch with control := .running (.execute 0 .finish) }

/-- Whether the code that is run for the call of a body, if any is, ends at once. -/
def endsCalls (m : Machine ω χ) : Bool :=
  match m.control, m.stack with
  | .running (.finish _), _ => true
  | .running _, .calling _ :: _ => false
  | _, _ => true

theorem settles_of_endsCalls {code : Code ω} {previous : Option UnitId} (h : m.endsCalls = true)
    (hcontrol : m.control = .running code) (hs : m.stack = .calling previous :: below) :
    code.Settles := by
  rw [endsCalls, hcontrol, hs] at h
  cases code <;> trivial

/-- The first file of a branch is compiling, and is not executed again meanwhile. The file that it
refers to is called without being compiled again. All this comes to an end. -/
theorem compiled_once_executingBranch :
    (∀ control stack, execute ⟨executingBranch.loader, control, stack⟩ 0 =
        ⟨executingBranch.loader, .returning (.ok .undefined), stack⟩) ∧
      (∃ directory callable, ∀ control stack, execute ⟨executingBranch.loader, control, stack⟩ 1 =
          callBody ⟨executingBranch.loader, control, stack⟩ 1 directory callable ∧
        ∃ arguments, Calls ⟨executingBranch.loader, control, stack⟩
          (execute ⟨executingBranch.loader, control, stack⟩ 1) 1 callable arguments) ∧
      ∃ outcome l', Runs (branches.platform List.head?) [.resume .finish] executingBranch
        ⟨l', .returning outcome, [.resume .finish]⟩ := by
  let p := branches.platform List.head?
  have hfresh : Loader.IsFresh ({ world := [], base := .file "/".toList } :
      Loader (List Request) Unit) := isFresh_mk _ _
  have hopened : Reachable p
      ⟨openedBranch, .running (Program.load 0 fun _ ↦ .execute 1 .finish), []⟩ :=
    (Reachable.start hfresh (.openUnit (.file "/a".toList) fun _ ↦
      Program.load 0 fun _ ↦ .execute 1 .finish)).step
  have hhalted : loadedBranch.isHalted = true := by decide +kernel
  have hs : loadedBranch.stack = [] := by
    obtain ⟨-, -, hs⟩ := exists_of_isHalted hhalted
    exact hs
  obtain ⟨earlier, h⟩ :=
    ((hopened.run p 50).again hhalted (.execute 0 .finish)).step.exists_history
  obtain ⟨-, -, -, -, hunderway, hexecutes, -, -, hends⟩ := History.compiled_once h
  have hcompiling : executingBranch.loader.stage? 0 = some .compiling := by decide +kernel
  obtain ⟨unit, hunit, -⟩ := exists_executesAs hcompiling
  have hready : executingBranch.loader.stage? 1 = some .ready := by decide +kernel
  obtain ⟨target, htarget, -⟩ := exists_executesAs hready
  refine ⟨fun control stack ↦ ?_, ?_, ?_⟩
  · exact (hexecutes _ control stack 0 unit (.refl _) hunit).1
      ((hunderway 0).mp (stage?_eq_compiling.mp hcompiling))
  · obtain ⟨callable, hbody⟩ := exists_ready_of_stage? hready
    refine ⟨target.info.directory, callable, fun control stack ↦ ?_⟩
    exact ((hexecutes _ control stack 1 target (.refl _) htarget).2 _ List.mem_cons_self).1
      callable hbody
  · let m : Machine (List Request) Unit := { loadedBranch with stack := [.resume .finish] }
    have hexecuted : executingBranch = m.execute 0 :=
      congrArg (fun stack ↦ execute { loadedBranch with stack := .resume .finish :: stack } 0) hs
    obtain ⟨-, pushed, hpushed, -⟩ := m.grows_execute [] 0
    refine hends m 0 hexecuted (callsEnd_of_settles fun hruns hcontrol hstack ↦ ?_)
    have hchecked : throughout p endsCalls 50 executingBranch = true := by decide +kernel
    have habove : m.stack <:+ executingBranch.stack := hexecuted ▸ ⟨pushed, hpushed.symm⟩
    exact settles_of_endsCalls ((hruns.lower habove List.nil_suffix).of_throughout hchecked)
      hcontrol hstack

end Machine

end ScriptLoader
