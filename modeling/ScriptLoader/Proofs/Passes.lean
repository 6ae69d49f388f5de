import ScriptLoader.Proofs.Bodies
import ScriptLoader.Proofs.Chores

/-!
# Second passes follow the walk

Executing a unit whose closure awaits its second pass does the chores of the walk that lists the
closure. A second pass that has begun stands for the chores that are left of its unit: to visit
what its next references led to, and then to list it. To visit a unit is to execute it: if it awaits
its second pass, this is begun; if its second pass is under way, nothing happens; and if it is
ready, its body is called once more. A unit is listed when its second pass is run and its body is
called for the first time.

So the second passes that are under way, the innermost first, are *in step* with the walk. An error
ends all of them, and then the unit has not been executed with success.
-/

namespace ScriptLoader

variable {ω χ : Type}

/-! ## Executions -/

namespace Journal

/-- The units whose second pass has been run, the earliest first. -/
def passes (journal : List Event) : List UnitId :=
  (journal.filterMap fun
    | .compiled id => some id
    | _ => none).reverse

/-- The units whose body has been called, the earliest first and as often as they were called. -/
def calls (journal : List Event) : List UnitId :=
  (journal.filterMap fun
    | .called id => some id
    | _ => none).reverse

variable {journal events : List Event} {id : UnitId}

theorem mem_passes : id ∈ passes journal ↔ .compiled id ∈ journal := by
  rw [passes, List.mem_reverse, List.mem_filterMap]
  constructor
  · rintro ⟨e, he, heq⟩
    cases e <;> cases heq
    exact he
  · exact fun h ↦ ⟨_, h, rfl⟩

theorem mem_calls : id ∈ calls journal ↔ .called id ∈ journal := by
  rw [calls, List.mem_reverse, List.mem_filterMap]
  constructor
  · rintro ⟨e, he, heq⟩
    cases e <;> cases heq
    exact he
  · exact fun h ↦ ⟨_, h, rfl⟩

theorem passes_append (events journal : List Event) :
    passes (events ++ journal) = passes journal ++ passes events := by
  simp only [passes, List.filterMap_append, List.reverse_append]

theorem calls_append (events journal : List Event) :
    calls (events ++ journal) = calls journal ++ calls events := by
  simp only [calls, List.filterMap_append, List.reverse_append]

theorem passes_eq_nil (h : ∀ e ∈ events, e.isExecution = false) : passes events = [] :=
  List.eq_nil_iff_forall_not_mem.mpr fun _ hid ↦ nomatch h _ (mem_passes.mp hid)

theorem calls_eq_nil (h : ∀ e ∈ events, e.isExecution = false) : calls events = [] :=
  List.eq_nil_iff_forall_not_mem.mpr fun _ hid ↦ nomatch h _ (mem_calls.mp hid)

end Journal

/-- What occurs in a list does not occur there for the first time when it is added. -/
theorem eraseDups_concat_of_mem {ids : List UnitId} {id : UnitId} (h : id ∈ ids) :
    (ids ++ [id]).eraseDups = ids.eraseDups := by
  simp [List.eraseDups_append, List.removeAll, h]

theorem eraseDups_concat_of_notMem {ids : List UnitId} {id : UnitId} (h : id ∉ ids) :
    (ids ++ [id]).eraseDups = ids.eraseDups ++ [id] := by
  simp [List.eraseDups_append, List.removeAll, h, List.eraseDups_cons]

namespace Loader

open Journal

variable {l l' : Loader ω χ}

theorem Spares.passes (h : l.Spares l') : passes l'.journal = passes l.journal := by
  obtain ⟨events, heq, hevents⟩ := h.journal
  rw [heq, passes_append, passes_eq_nil hevents, List.append_nil]

theorem Spares.calls (h : l.Spares l') : calls l'.journal = calls l.journal := by
  obtain ⟨events, heq, hevents⟩ := h.journal
  rw [heq, calls_append, calls_eq_nil hevents, List.append_nil]

variable (p : Platform ω χ)

theorem spares_compileUnit (l : Loader ω χ) (pass : SecondPass ω χ) :
    (l.record (.compiled pass.unit)).Spares (l.compileUnit p pass).1 :=
  (l.strokes_compileUnit p pass).spares

theorem Stays.of_results (hunits : l'.units = l.units)
    (hresults : l'.cache.results = l.cache.results) (hjournal : l'.journal = l.journal) :
    l.Stays l' :=
  ⟨.of_same hunits hjournal, fun hresult ↦ by
    rwa [ResolutionCache.result?, hresults, ← ResolutionCache.result?] at hresult⟩

end Loader

/-! ## What is under way -/

/-- The units whose second pass is under way, the innermost first. -/
def Stack.underway (stack : List (Frame ω χ)) : List UnitId :=
  stack.filterMap fun
    | .compiling pass _ => some pass.unit
    | _ => none

def Frame.chores (first : Loader ω χ) : Frame ω χ → List Chore
  | .compiling pass executer =>
    first.visits executer.context.text pass.rest ++ [.list pass.unit]
  | _ => []

def Stack.chores (first : Loader ω χ) (stack : List (Frame ω χ)) : List Chore :=
  stack.flatMap (·.chores first)

theorem Stack.list_mem_chores {first : Loader ω χ} {stack : List (Frame ω χ)} {id : UnitId} :
    .list id ∈ chores first stack ↔ id ∈ underway stack := by
  rw [chores, underway, List.mem_flatMap, List.mem_filterMap]
  refine exists_congr fun frame ↦ and_congr_right fun _ ↦ ?_
  cases frame with
  | compiling pass executer =>
    rw [Frame.chores, Loader.list_mem_visits_append]
    simp [eq_comm]
  | _ => simp [Frame.chores]

/-- A frame is a second pass whose references, as far as they have been worked off, led to units
that have been seen. -/
def Frame.IsPass (first : Loader ω χ) (seen : UnitId → Prop) : Frame ω χ → Prop
  | .compiling pass executer => ∃ unit, first.unit? pass.unit = some unit ∧
      executer.context.text = unit.info.directory.text ∧
      ∀ r ∈ unit.info.dependencies, r ∈ pass.rest ∨
        ∃ id, first.cache.result? (unit.info.key r) = some id ∧ seen id
  | _ => False

theorem Frame.IsPass.mono {first : Loader ω χ} {seen seen' : UnitId → Prop} {frame : Frame ω χ}
    (h : frame.IsPass first seen) (hseen : ∀ id, seen id → seen' id) :
    frame.IsPass first seen' := by
  cases frame with
  | compiling pass executer =>
    obtain ⟨unit, hunit, hcontext, hworked⟩ := h
    refine ⟨unit, hunit, hcontext, fun r hr ↦ (hworked r hr).imp_right ?_⟩
    rintro ⟨id, hresult, hid⟩
    exact ⟨id, hresult, hseen id hid⟩
  | _ => exact h

namespace Loader

open Journal Stack

/-- The executions are in step with a walk: chores are to be done, and frames stand for more; so
many units have been listed, and these are the units that have been executed. -/
structure InStep (first : Loader ω χ) (order : List UnitId) (todo : List Chore)
    (frames : List (Frame ω χ)) (listed : List UnitId) (l : Loader ω χ) : Prop where
  passes : passes l.journal = listed
  calls : (calls l.journal).eraseDups = listed
  lists : first.Lists (todo ++ chores first frames) listed order
  nodup : (underway frames ++ listed).Nodup
  results : ∀ {key id}, l.cache.result? key = some id → first.cache.result? key = some id
  stages : ∀ id ∈ order, l.stage? id = some
    (if id ∈ listed then .ready else if id ∈ underway frames then .compiling else .pending)
  frames : ∀ frame ∈ frames, frame.IsPass first fun id ↦
    id ∈ listed ∨ id ∈ underway frames ∨ .visit id ∈ todo

namespace InStep

variable {first l l' : Loader ω χ} {order listed : List UnitId} {todo : List Chore}
  {frames : List (Frame ω χ)} {id : UnitId} {pass : SecondPass ω χ} {executer : Operation}

theorem mem_calls_iff (h : InStep first order todo frames listed l) :
    id ∈ Journal.calls l.journal ↔ id ∈ listed := by
  rw [← h.calls, List.mem_eraseDups]

theorem stays (h : InStep first order todo frames listed l) (hstays : l.Stays l') :
    InStep first order todo frames listed l' :=
  { h with
    passes := hstays.spares.passes.trans h.passes
    calls := hstays.spares.calls ▸ h.calls
    results := fun hresult ↦ h.results (hstays.results hresult)
    stages := fun id hid ↦ hstays.spares.stage?_eq (h.stages id hid) }

theorem call (h : InStep first order todo frames listed l) (hid : id ∈ listed) :
    InStep first order todo frames listed (l.record (.called id)) where
  passes := h.passes
  calls := by
    have hcalls : Journal.calls (l.record (.called id)).journal
        = Journal.calls l.journal ++ [id] := calls_append [.called id] l.journal
    rw [hcalls, eraseDups_concat_of_mem (h.mem_calls_iff.mpr hid), h.calls]
  lists := h.lists
  nodup := h.nodup
  results := h.results
  stages := h.stages
  frames := h.frames

/-- A unit that has been seen need not be visited. -/
theorem skip (h : InStep first order [.visit id] frames listed l)
    (hlists : first.Lists (chores first frames) listed order)
    (hseen : id ∈ listed ∨ id ∈ underway frames) : InStep first order [] frames listed l :=
  { h with
    lists := hlists
    frames := fun frame hframe ↦ (h.frames frame hframe).mono fun other hother ↦ by
      rcases hother with hlisted | hunderway | htodo
      · exact .inl hlisted
      · exact .inr (.inl hunderway)
      · cases List.mem_singleton.mp htodo
        exact hseen.imp_right .inl }

/-- The second pass of a unit is begun. -/
theorem enter (h : InStep first order [.visit id] frames listed l) {unit : LoadedUnit ω χ}
    (hunit : first.unit? id = some unit) (hunlisted : id ∉ listed)
    (hunseen : id ∉ underway frames)
    (hlists : first.Lists (first.visits unit.info.directory.text unit.info.dependencies
      ++ .list id :: chores first frames) listed order)
    (hid : pass.unit = id) (hrest : pass.rest = unit.info.dependencies)
    (hcontext : executer.context.text = unit.info.directory.text) :
    InStep first order [] (.compiling pass executer :: frames) listed
      (l.setBody id .compiling) where
  passes := h.passes
  calls := h.calls
  lists := by
    have hchores : chores first (.compiling pass executer :: frames)
        = first.visits unit.info.directory.text unit.info.dependencies
          ++ .list id :: chores first frames := by
      rw [chores, List.flatMap_cons, Frame.chores, hid, hrest, hcontext, List.append_assoc]
      rfl
    rw [hchores]
    exact hlists
  nodup := by
    have hnew : id ∉ underway frames ++ listed := by
      rw [List.mem_append, not_or]
      exact ⟨hunseen, hunlisted⟩
    rw [← hid] at hnew
    exact List.nodup_cons.mpr ⟨hnew, h.nodup⟩
  results := h.results
  stages other hother := by
    -- only the unit itself comes further
    rw [stage?_setBody, h.stages other hother, Option.map_some]
    have hunderway : other ∈ underway (.compiling pass executer :: frames)
        ↔ other = id ∨ other ∈ underway frames := by
      rw [← hid]
      exact List.mem_cons
    by_cases heq : id = other
    · subst heq
      simp [hunlisted, hunderway, Body.stage]
    · simp [heq, Ne.symm heq, hunderway]
  frames := by
    have hunderway : underway (.compiling pass executer :: frames) = id :: underway frames := by
      rw [← hid]
      rfl
    intro frame hframe
    rcases List.mem_cons.mp hframe with rfl | hframe
    · exact ⟨unit, hid ▸ hunit, hcontext, fun r hr ↦ .inl (hrest ▸ hr)⟩
    · refine (h.frames frame hframe).mono fun other hother ↦ ?_
      rw [hunderway]
      rcases hother with hlisted | hbelow | htodo
      · exact .inl hlisted
      · exact .inr (.inl (List.mem_cons_of_mem _ hbelow))
      · cases List.mem_singleton.mp htodo
        exact .inr (.inl List.mem_cons_self)

/-- What the next reference of a second pass led to is to be visited. -/
theorem next (h : InStep first order [] (.compiling pass executer :: frames) listed l)
    {r : Reference} {references : List Reference} (hrest : pass.rest = r :: references)
    (hresult : first.cache.result? (r.key executer.context.text) = some id) :
    InStep first order [.visit id]
      (.compiling { pass with rest := references } executer :: frames) listed l :=
  { h with
    lists := by
      have hchores : chores first (.compiling pass executer :: frames)
          = .visit id :: chores first
            (.compiling { pass with rest := references } executer :: frames) := by
        rw [chores, List.flatMap_cons, Frame.chores, hrest, visits_cons hresult]
        rfl
      have hlists := h.lists
      rw [List.nil_append, hchores] at hlists
      exact hlists
    frames := by
      obtain ⟨hpass, hframes⟩ := List.forall_mem_cons.mp h.frames
      refine List.forall_mem_cons.mpr ⟨?_, fun frame hframe ↦ ?_⟩
      · obtain ⟨unit, hunit, hcontext, hworked⟩ := hpass
        refine ⟨unit, hunit, hcontext, fun other hother ↦ ?_⟩
        rcases hworked other hother with hleft | ⟨target, htarget, hseen⟩
        · rw [hrest, List.mem_cons] at hleft
          rcases hleft with rfl | hleft
          · have hkey : unit.info.key other = other.key executer.context.text := by
              rw [UnitInfo.key, hcontext]
            exact .inr ⟨id, hkey ▸ hresult, .inr (.inr (List.mem_singleton_self _))⟩
          · exact .inl hleft
        · exact .inr ⟨target, htarget, hseen.imp_right (.imp_right fun hnone ↦ nomatch hnone)⟩
      · exact (hframes frame hframe).mono fun other hother ↦
          hother.imp_right (.imp_right fun hnone ↦ nomatch hnone) }

/-- A second pass has been run, and the body has been called. -/
theorem list (h : InStep first order [] (.compiling pass executer :: frames) listed l)
    (hrest : pass.rest = []) (hpasses : Journal.passes l'.journal
      = Journal.passes l.journal ++ [pass.unit])
    (hcalls : Journal.calls l'.journal = Journal.calls l.journal ++ [pass.unit])
    (hresults : ∀ {key id}, l'.cache.result? key = some id → l.cache.result? key = some id)
    (hstages : ∀ {id stage}, l.stage? id = some stage →
      l'.stage? id = some (if pass.unit = id then .ready else stage)) :
    InStep first order [] frames (listed ++ [pass.unit]) l' := by
  have hunderway : underway (.compiling pass executer :: frames)
      = pass.unit :: underway frames := rfl
  -- the unit was under way, so it has not been listed before
  have hnodup := h.nodup
  rw [hunderway, List.cons_append, List.nodup_cons, List.mem_append, not_or] at hnodup
  obtain ⟨⟨hbelow, hunlisted⟩, hnodup⟩ := hnodup
  exact
    { passes := by rw [hpasses, h.passes]
      calls := by
        rw [hcalls, eraseDups_concat_of_notMem (mt h.mem_calls_iff.mp hunlisted), h.calls]
      lists := by
        have hchores : chores first (.compiling pass executer :: frames)
            = .list pass.unit :: chores first frames := by
          rw [chores, List.flatMap_cons, Frame.chores, hrest, visits_nil]
          rfl
        have hlists := h.lists
        rw [List.nil_append, hchores] at hlists
        cases hlists with
        | list later => exact later
      nodup := by
        rw [← List.append_assoc, List.nodup_append_comm, List.singleton_append, List.nodup_cons,
          List.mem_append, not_or]
        exact ⟨⟨hbelow, hunlisted⟩, hnodup⟩
      results := fun hresult ↦ h.results (hresults hresult)
      stages := fun id hid ↦ by
        rw [hstages (h.stages id hid), hunderway]
        by_cases heq : pass.unit = id
        · simp [heq]
        · simp [heq, Ne.symm heq]
      frames := fun frame hframe ↦ by
        refine (h.frames frame (List.mem_cons_of_mem _ hframe)).mono fun id hid ↦ ?_
        rcases hid with hlisted | hmem | hnone
        · exact .inl (List.mem_append_left _ hlisted)
        · rcases List.mem_cons.mp hmem with rfl | hmem
          · exact .inl (List.mem_append_right _ (List.mem_singleton_self _))
          · exact .inr (.inl hmem)
        · cases hnone }

/-- When a second pass has worked off its references, all that they led to has been seen. -/
theorem exists_seen (h : InStep first order [] (.compiling pass executer :: frames) listed l)
    (hrest : pass.rest = []) {unit : LoadedUnit ω χ} (hunit : first.unit? pass.unit = some unit)
    {r : Reference} (hr : r ∈ unit.info.dependencies) :
    ∃ id, first.cache.result? (unit.info.key r) = some id ∧
      (id ∈ listed ∨ id ∈ underway (.compiling pass executer :: frames)) := by
  obtain ⟨unit', hunit', -, hworked⟩ := h.frames _ List.mem_cons_self
  rw [hunit, Option.some.injEq] at hunit'
  subst hunit'
  rcases hworked r hr with hleft | ⟨id, hresult, hseen⟩
  · rw [hrest] at hleft
    cases hleft
  · exact ⟨id, hresult, hseen.imp_right fun hseen ↦ hseen.resolve_right fun hnone ↦ nomatch hnone⟩

end InStep

end Loader

/-! ## Executing a unit -/

namespace Machine

open Loader Journal Stack

variable {p : Platform ω χ} {first : Loader ω χ} {order listed : List UnitId}
  {frames base : List (Frame ω χ)} {m m' : Machine ω χ} {id : UnitId}

/-- The units whose second pass is under way, the innermost first. -/
def underway (m : Machine ω χ) : List UnitId := Stack.underway m.stack

/-- A body is called for the first time only after the bodies of all units that its unit depends on
have been called, but for those whose second pass is under way. -/
def CallsInOrder (first : Loader ω χ) (m m' : Machine ω χ) : Prop :=
  ∀ ⦃id unit⦄, id ∉ calls m.loader.journal → id ∈ calls m'.loader.journal →
    first.unit? id = some unit → ∀ r ∈ unit.info.dependencies,
      ∃ target, first.cache.result? (unit.info.key r) = some target ∧
        (target ∈ calls m.loader.journal ∨ target ∈ m.underway)

theorem CallsInOrder.of_subset (h : calls m'.loader.journal ⊆ calls m.loader.journal) :
    CallsInOrder first m m' :=
  fun _ _ hnot hcalled ↦ absurd (h hcalled) hnot

/-- How far the execution of a unit has come on a stack. -/
inductive Performs (first : Loader ω χ) (order : List UnitId) (base : List (Frame ω χ)) :
    Machine ω χ → Prop
  /-- Something that a second pass has waited for has been done. -/
  | going {l value frames listed} (instep : InStep first order [] frames listed l) :
      Performs first order base ⟨l, .returning (.ok value), frames ++ base⟩
  /-- A body is running. -/
  | calling {m above previous frames listed}
      (stack : m.stack = above ++ .calling previous :: (frames ++ base))
      (above : ∀ f ∈ above, f.deed? = none)
      (instep : InStep first order [] frames listed m.loader) : Performs first order base m
  /-- An error ends one second pass after the other. -/
  | failing {l error frames}
      (passes : ∀ f ∈ frames, ∃ pass executer, f = .compiling pass executer) :
      Performs first order base ⟨l, .returning (.error error), frames ++ base⟩

theorem Performs.called {previous : Option UnitId}
    (hs : m.stack = .calling previous :: (frames ++ base))
    (h : InStep first order [] frames listed m.loader) : m.Performs first order base := by
  have hnone : m.stack = [] ++ .calling previous :: (frames ++ base) := hs
  exact .calling hnone (by simp) h

theorem stays_callBody (m : Machine ω χ) (id : UnitId) (directory : Url) (callable : Callable ω) :
    (m.loader.record (.called id)).Stays (m.callBody id directory callable).loader ∧
      ∃ previous, (m.callBody id directory callable).stack = .calling previous :: m.stack := by
  have hfirst := m.loader.quiet_operation .executer directory
  have hsecond := (m.loader.operation .executer directory).1.quiet_operation .importer directory
  refine ⟨.of_results ?_ (hsecond.results.trans hfirst.results) ?_, _, rfl⟩
  · exact (units_operation _ .importer directory).trans (units_operation _ .executer directory)
  · exact congrArg (_ :: ·) ((journal_operation _ .importer directory).trans
      (journal_operation _ .executer directory))

theorem exists_begun (m : Machine ω χ) (id : UnitId) (unit : LoadedUnit ω χ)
    (hbound : m.loader.OperationsBound) (compiler : Compiler ω χ) (file : χ) :
    ∃ l pass executer, m.beginCompilation id unit.info compiler file
        = ⟨l, .returning (.ok .undefined), .compiling pass executer :: m.stack⟩ ∧
      (m.loader.setBody id .compiling).Stays l ∧ pass.unit = id ∧
      pass.rest = unit.info.dependencies ∧
      executer.context.text = unit.info.directory.text := by
  have hbegun : Loader.OperationsBound { m.loader.setBody id .compiling with
      compiling := some id
      world := (compiler.enterImport m.loader.world file unit.info.url.displayName).1 } := hbound
  refine ⟨_, _, _, rfl, ?_, rfl, rfl, operation_context hbegun .executer unit.info.directory⟩
  exact .of_results (units_operation _ .executer _) (quiet_operation _ .executer _).results
    (journal_operation _ .executer _)

/-- What it comes to that a unit is executed. -/
inductive ExecutesAs (m : Machine ω χ) (id : UnitId) (unit : LoadedUnit ω χ) : Stage → Prop
  | ready {callable} (eq : m.execute id = m.callBody id unit.info.directory callable) :
      ExecutesAs m id unit .ready
  | pending {compiler file} (eq : m.execute id = m.beginCompilation id unit.info compiler file) :
      ExecutesAs m id unit .pending
  | compiling (eq : m.execute id = m.done) : ExecutesAs m id unit .compiling
  | failed (eq : m.execute id = m.throw (.compilation unit.info.url.text)) :
      ExecutesAs m id unit .failed

theorem exists_executesAs {stage : Stage} (h : m.loader.stage? id = some stage) :
    ∃ unit, m.loader.unit? id = some unit ∧ m.ExecutesAs id unit stage := by
  obtain ⟨unit, hunit, rfl⟩ := Option.map_eq_some_iff.mp h
  refine ⟨unit, hunit, ?_⟩
  cases hbody : unit.body with
  | ready callable =>
    have heq : m.execute id = m.callBody id unit.info.directory callable := by
      simp only [execute, hunit, hbody]
    exact .ready heq
  | pending compiler file =>
    have heq : m.execute id = m.beginCompilation id unit.info compiler file := by
      simp only [execute, hunit, hbody]
    exact .pending heq
  | compiling => exact .compiling (by simp only [execute, hunit, hbody])
  | failed => exact .failed (by simp only [execute, hunit, hbody])

/-- **A unit that is to be visited is executed.** Nothing is called for the first time at once. -/
theorem performs_execute (h : InStep first order [.visit id] frames listed m.loader)
    (hs : m.stack = frames ++ base) (hkeeps : first.Keeps m.loader)
    (hbound : m.loader.OperationsBound) :
    (m.execute id).Performs first order base ∧
      calls (m.execute id).loader.journal ⊆ calls m.loader.journal := by
  have hlists : first.Lists (.visit id :: chores first frames) listed order := h.lists
  cases hlists with
  | pass seen later =>
    have hseen := seen.imp_right list_mem_chores.mp
    have hid : id ∈ order := seen.elim (fun hid ↦ later.sublist hid) later.mem_of_list
    obtain ⟨unit, -, hexecutes⟩ := exists_executesAs (h.stages id hid)
    by_cases hlisted : id ∈ listed
    · rw [if_pos hlisted] at hexecutes
      cases hexecutes with
      | @ready callable heq =>
        obtain ⟨hcall, previous, hstack⟩ := m.stays_callBody id unit.info.directory callable
        have hinstep := ((h.skip later hseen).call hlisted).stays hcall
        rw [heq]
        refine ⟨.called (hs ▸ hstack) hinstep, ?_⟩
        intro other hother
        exact h.mem_calls_iff.mpr (hinstep.mem_calls_iff.mp hother)
    · rw [if_neg hlisted, if_pos (hseen.resolve_left hlisted)] at hexecutes
      cases hexecutes with
      | compiling heq =>
        have hdone : m.done = ⟨m.loader, .returning (.ok .undefined), frames ++ base⟩ :=
          hs ▸ rfl
        rw [heq, hdone]
        exact ⟨.going (h.skip later hseen), List.Subset.refl _⟩
  | @enter _ unit _ _ _ known unlisted unseen later =>
    have hunderway := mt list_mem_chores.mpr unseen
    have hid : id ∈ order := later.mem_of_list (List.mem_append_right _ List.mem_cons_self)
    obtain ⟨unit', hunit', hexecutes⟩ := exists_executesAs (h.stages id hid)
    rw [if_neg unlisted, if_neg hunderway] at hexecutes
    -- the unit declares what it did
    obtain ⟨s, hs', -, hdirectory, hdependencies⟩ := hkeeps (standing?_of_unit? known)
    rw [standing?_of_unit? hunit', Option.some.injEq] at hs'
    subst hs'
    cases hexecutes with
    | @pending compiler file heq =>
      obtain ⟨l, pass, executer, hbegun, hstays, hpass, hrest, hcontext⟩ :=
        m.exists_begun id unit' hbound compiler file
      have hinstep : InStep first order [] (.compiling pass executer :: frames) listed l :=
        (h.enter known unlisted hunderway later hpass (hrest.trans hdependencies)
          (hcontext.trans (congrArg Url.text hdirectory))).stays hstays
      rw [heq, hbegun, hs]
      exact ⟨.going hinstep, hstays.spares.calls ▸ List.Subset.refl _⟩

/-! ## Second passes -/

theorem isPass_of_frames {seen : UnitId → Prop} (h : ∀ frame ∈ frames, frame.IsPass first seen) :
    ∀ frame ∈ frames, ∃ pass executer, frame = .compiling pass executer := by
  intro frame hframe
  have hpass := h frame hframe
  cases frame with
  | compiling pass executer => exact ⟨pass, executer, rfl⟩
  | _ => exact hpass.elim

theorem performs_callReference {pass : SecondPass ω χ} {executer : Operation} {r : Reference}
    {references : List Reference}
    (h : InStep first order [] (.compiling pass executer :: frames) listed m.loader)
    (hrest : pass.rest = r :: references)
    (hs : m.stack = .compiling { pass with rest := references } executer :: frames ++ base)
    (hkeeps : first.Keeps m.loader) (hbound : m.loader.OperationsBound) :
    (m.callReference executer r).Performs first order base ∧
      calls (m.callReference executer r).loader.journal ⊆ calls m.loader.journal := by
  have hthrow (error : LoaderError) : (m.throw error).Performs first order base := by
    have hthrown : m.throw error = ⟨m.loader, .returning (.error error),
        .compiling { pass with rest := references } executer :: frames ++ base⟩ := hs ▸ rfl
    rw [hthrown]
    exact .failing (List.forall_mem_cons.mpr
      ⟨⟨_, _, rfl⟩, isPass_of_frames (List.forall_mem_cons.mp h.frames).2⟩)
  rw [callReference]
  split
  case h_1 target hresult =>
    split
    case isTrue => exact performs_execute (h.next hrest (h.results hresult)) hs hkeeps hbound
    case isFalse => exact ⟨hthrow _, List.Subset.refl _⟩
  case h_2 => exact ⟨hthrow _, List.Subset.refl _⟩

/-- The second pass of a unit is run, and then its body is called for the first time. -/
theorem performs_compileUnit {pass : SecondPass ω χ} {executer : Operation}
    (h : InStep first order [] (.compiling pass executer :: frames) listed m.loader)
    (hrest : pass.rest = []) (hs : m.stack = frames ++ base) :
    (m.continueCompilation p pass executer).Performs first order base ∧
      ∀ {id}, id ∈ calls (m.continueCompilation p pass executer).loader.journal →
        id ∈ calls m.loader.journal ∨ id = pass.unit := by
  have hspares := m.loader.spares_compileUnit p pass
  have hquiet := m.loader.quiet_compileUnit p pass
  have hpasses : passes (m.loader.record (.compiled pass.unit)).journal
      = passes m.loader.journal ++ [pass.unit] := passes_append [.compiled pass.unit] _
  rw [continueCompilation, hrest]
  rcases hcompiled : m.loader.compileUnit p pass with ⟨l, error | callable⟩
  all_goals
    rw [hcompiled] at hspares hquiet
    dsimp only at hspares hquiet ⊢
  · have hfailed : ({ m with loader := l } : Machine ω χ).failCompilation pass error
        = ⟨{ l.setBody pass.unit .failed with compiling := pass.previous },
          .returning (.error error), frames ++ base⟩ := hs ▸ rfl
    rw [hfailed]
    refine ⟨.failing (isPass_of_frames (List.forall_mem_cons.mp h.frames).2), fun hid ↦ .inl ?_⟩
    exact hspares.calls ▸ hid
  · obtain ⟨hcall, previous, hstack⟩ := stays_callBody
      (({ m with loader := l } : Machine ω χ).leaveCompilation pass (.ready callable)) pass.unit
      pass.directory callable
    generalize (({ m with loader := l } : Machine ω χ).leaveCompilation pass
      (.ready callable)).callBody pass.unit pass.directory callable = m' at hcall hstack ⊢
    have hcalls : calls m'.loader.journal = calls m.loader.journal ++ [pass.unit] := by
      rw [hcall.spares.calls]
      exact (calls_append [.called pass.unit] l.journal).trans
        (congrArg (· ++ [pass.unit]) hspares.calls)
    have hinstep : InStep first order [] frames (listed ++ [pass.unit]) m'.loader :=
      h.list hrest ((hcall.spares.passes.trans hspares.passes).trans hpasses) hcalls
        (fun {key _} hresult ↦ (hquiet.result? key).symm.trans (hcall.results hresult))
        fun {id stage} hstage ↦ by
          refine hcall.spares.stage?_eq ?_
          have hset := l.stage?_setBody pass.unit (.ready callable) id
          rw [hspares.stage?_eq hstage] at hset
          exact hset
    refine ⟨.called (hstack.trans (congrArg (_ :: ·) hs)) hinstep, fun hid ↦ ?_⟩
    rw [hcalls, List.mem_append, List.mem_singleton] at hid
    exact hid

/-- **A second pass goes on.** Its unit is called for the first time when all that its references
led to has been called, or has its second pass under way. -/
theorem performs_continueCompilation {pass : SecondPass ω χ} {executer : Operation}
    (h : InStep first order [] (.compiling pass executer :: frames) listed m.loader)
    (hs : m.stack = frames ++ base) (hkeeps : first.Keeps m.loader)
    (hbound : m.loader.OperationsBound) :
    (m.continueCompilation p pass executer).Performs first order base ∧
      CallsInOrder first (m.push (.compiling pass executer))
        (m.continueCompilation p pass executer) := by
  cases hrest : pass.rest with
  | cons r references =>
    have hpushed : (m.push (.compiling { pass with rest := references } executer)).stack
        = .compiling { pass with rest := references } executer :: frames ++ base :=
      congrArg (_ :: ·) hs
    obtain ⟨hperforms, hcalls⟩ := performs_callReference
      (m := m.push (.compiling { pass with rest := references } executer)) h hrest hpushed hkeeps
      hbound
    rw [continueCompilation, hrest]
    exact ⟨hperforms, .of_subset hcalls⟩
  | nil =>
    obtain ⟨hperforms, hcalls⟩ := performs_compileUnit (p := p) h hrest hs
    refine ⟨hperforms, fun id unit hnot hcalled hunit r hr ↦ ?_⟩
    have hid : id = pass.unit := (hcalls hcalled).resolve_left hnot
    subst hid
    obtain ⟨target, hresult, hseen⟩ := h.exists_seen hrest hunit hr
    refine ⟨target, hresult, hseen.imp h.mem_calls_iff.mpr fun hunderway ↦ ?_⟩
    have hstack : (m.push (.compiling pass executer)).underway
        = Stack.underway (.compiling pass executer :: frames) ++ Stack.underway base := by
      rw [underway, push, hs, ← List.cons_append, Stack.underway, List.filterMap_append]
      rfl
    rw [hstack]
    exact List.mem_append_left _ hunderway

/-! ## Steps -/

/-- **The execution of a unit goes on** until something is returned to the stack. Bodies keep to
themselves. -/
theorem Performs.step (h : m.Performs first order base) (hpending : ¬m.Returns base)
    (hkeeps : first.Keeps m.loader) (hbound : m.loader.OperationsBound)
    (himports : m.scene.ImportsNothing)
    (hcode : m.keepsToItself = true) :
    (m.step p).Performs first order base ∧ CallsInOrder first m (m.step p) := by
  cases h with
  | @going l value frames listed instep =>
    cases frames with
    | nil => exact absurd ⟨_, rfl, rfl⟩ hpending
    | cons frame frames =>
      obtain ⟨pass, executer, rfl⟩ := isPass_of_frames instep.frames frame List.mem_cons_self
      exact performs_continueCompilation (m := ⟨l, .returning (.ok value), frames ++ base⟩) instep
        rfl hkeeps hbound
  | @calling m above previous frames listed hs habove instep =>
    by_cases hreturns : above = [] ∧ ∃ outcome, m.control = .returning outcome
    · obtain ⟨rfl, outcome, hcontrol⟩ := hreturns
      have hstep : m.step p = ⟨{ m.loader with executing := previous }, .returning outcome,
          frames ++ base⟩ := by
        rw [Machine.step, hcontrol, hs]
        rfl
      rw [hstep]
      refine ⟨?_, .of_subset (List.Subset.refl _)⟩
      cases outcome with
      | ok value => exact .going (instep.stays (.of_same rfl rfl rfl))
      | error error => exact .failing (isPass_of_frames instep.frames)
    · obtain ⟨hstays, above', hs', habove'⟩ :=
        step_body (p := p) himports hs habove hcode hreturns
      exact ⟨.calling hs' habove' (instep.stays hstays),
        .of_subset (hstays.spares.calls ▸ List.Subset.refl _)⟩
  | @failing l error frames hpasses =>
    cases frames with
    | nil => exact absurd ⟨_, rfl, rfl⟩ hpending
    | cons frame frames =>
      obtain ⟨⟨pass, executer, rfl⟩, hrest⟩ := List.forall_mem_cons.mp hpasses
      exact ⟨.failing hrest, .of_subset (List.Subset.refl _)⟩

/-- When the execution has returned a value, the walk has come to its end. -/
theorem Performs.inStep_of_returns {l : Loader ω χ} {value : Value}
    (h : Performs first order base ⟨l, .returning (.ok value), base⟩) :
    InStep first order [] [] order l := by
  generalize hm : (⟨l, .returning (.ok value), base⟩ : Machine ω χ) = m at h
  cases h with
  | @going l' value' frames listed instep =>
    injection hm with hloader _ hs
    have hnil : frames = [] := List.self_eq_append_left.mp hs
    subst hloader hnil
    have hlists : first.Lists [] listed order := instep.lists
    cases hlists with
    | done => exact instep
  | calling hs => exact absurd (hm ▸ hs) (ne_append_cons (List.suffix_append _ base))
  | failing => cases hm

end Machine

end ScriptLoader
