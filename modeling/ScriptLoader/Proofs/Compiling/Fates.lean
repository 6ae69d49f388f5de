import ScriptLoader.Proofs.Passes

/-!
# What becomes of bodies

The body of a unit that awaits its second pass moves on when the unit is executed for the first
time: its second pass gets under way, and then the unit is ready or it has failed, for good. A unit
that is made without a second pass is ready from the beginning.

Most of what a loader does leaves bodies alone. A unit is executed at the very end of a step if one
is executed at all, so a step comes to one of three things: bodies are left alone until one unit is
executed, if any is; a second pass is run, its dependencies having been executed; or an error ends
it. `Machine.step_fares` says so once and for all.
-/

namespace ScriptLoader

variable {ω χ : Type}

namespace Body

/-- What the body of a unit may become next. -/
inductive Next : Body ω χ → Body ω χ → Prop
  | begin (compiler file) : Next (.pending compiler file) .compiling
  | succeed (callable) : Next .compiling (.ready callable)
  | fail : Next .compiling .failed

/-- What the body of a unit may become in time. -/
def Advances : Body ω χ → Body ω χ → Prop := Relation.ReflTransGen Next

namespace Advances

variable {body body' body'' : Body ω χ}

theorem refl (body : Body ω χ) : body.Advances body := Relation.ReflTransGen.refl

theorem trans (h : body.Advances body') (h' : body'.Advances body'') : body.Advances body'' :=
  Relation.ReflTransGen.trans h h'

theorem of_next (h : body.Next body') : body.Advances body' := .single h

theorem eq_ready {callable : Callable ω} (h : (ready callable).Advances body) :
    body = .ready callable := by
  obtain rfl | ⟨_, hnext, -⟩ := Relation.ReflTransGen.cases_head h
  · rfl
  · cases hnext

theorem eq_failed (h : failed.Advances body) : body = .failed := by
  obtain rfl | ⟨_, hnext, -⟩ := Relation.ReflTransGen.cases_head h
  · rfl
  · cases hnext

/-- A unit that awaits its second pass has always done so. -/
theorem eq_pending {compiler : Compiler ω χ} {file : χ}
    (h : body.Advances (.pending compiler file)) : body = .pending compiler file := by
  obtain heq | ⟨_, -, hnext⟩ := Relation.ReflTransGen.cases_tail h
  · exact heq.symm
  · cases hnext

/-- A unit whose second pass is under way has awaited it before. -/
theorem of_compiling (h : body.Advances .compiling) :
    body = .compiling ∨ ∃ compiler file, body = .pending compiler file := by
  obtain heq | ⟨_, hbefore, hnext⟩ := Relation.ReflTransGen.cases_tail h
  · exact .inl heq.symm
  · cases hnext with
    | begin compiler file => exact .inr ⟨compiler, file, eq_pending hbefore⟩

end Advances

end Body

namespace Loader

variable {l l' l'' : Loader ω χ} {id : UnitId} {body : Body ω χ}

theorem body?_of_unit? {unit : LoadedUnit ω χ} (h : l.unit? id = some unit) :
    l.body? id = some unit.body :=
  congrArg (Option.map _) h

theorem lt_length_of_body? (h : l.body? id = some body) : id < l.units.length := by
  obtain ⟨unit, hunit, -⟩ := Option.map_eq_some_iff.mp h
  exact (List.getElem?_eq_some_iff.mp hunit).1

theorem exists_body? (h : id < l.units.length) : ∃ body, l.body? id = some body :=
  ⟨_, body?_of_unit? (List.getElem?_eq_getElem h)⟩

theorem body?_setBody (l : Loader ω χ) (id : UnitId) (body : Body ω χ) (other : UnitId) :
    (l.setBody id body).body? other
      = (l.body? other).map fun old ↦ if id = other then body else old := by
  rw [body?, setBody, unit?_modifyUnit, body?, Option.map_map, Option.map_map]
  congr 1
  funext unit
  by_cases hid : id = other <;> simp [hid]

/-- The bodies of all units move on, if they change. -/
def Matures (l l' : Loader ω χ) : Prop :=
  ∀ ⦃id body⦄, l.body? id = some body → ∃ body', l'.body? id = some body' ∧ body.Advances body'

namespace Matures

theorem refl (l : Loader ω χ) : l.Matures l := fun _ body hbody ↦ ⟨body, hbody, .refl body⟩

theorem trans (h : l.Matures l') (h' : l'.Matures l'') : l.Matures l'' := by
  intro id body hbody
  obtain ⟨body', hbody', hadvances⟩ := h hbody
  obtain ⟨body'', hbody'', hadvances'⟩ := h' hbody'
  exact ⟨body'', hbody'', hadvances.trans hadvances'⟩

theorem of_spares (h : l.Spares l') : l.Matures l' :=
  fun _ body hbody ↦ ⟨body, h.bodies hbody, .refl body⟩

theorem setBody {old : Body ω χ} (hold : l.body? id = some old) (hnext : old.Next body) :
    l.Matures (l.setBody id body) := by
  intro other before hbefore
  rw [body?_setBody, hbefore, Option.map_some]
  by_cases hid : id = other
  · subst hid
    rw [hold, Option.some.injEq] at hbefore
    rw [if_pos rfl, ← hbefore]
    exact ⟨body, rfl, .of_next hnext⟩
  · rw [if_neg hid]
    exact ⟨before, rfl, .refl before⟩

end Matures

/-! ## Bodies that are left alone -/

/-- A change in which nothing is executed. Units that are made are ready or await their second
pass. -/
structure Retains (l l' : Loader ω χ) : Prop where
  spares : l.Spares l'
  made : ∀ {id body}, l'.body? id = some body → l.body? id = some body ∨
    l.body? id = none ∧ (body.stage = .ready ∨ body.stage = .pending)

namespace Retains

theorem trans (h : l.Retains l') (h' : l'.Retains l'') : l.Retains l'' where
  spares := h.spares.trans h'.spares
  made {id body} hbody := by
    obtain hbody | ⟨hnone, husable⟩ := h'.made hbody
    · exact h.made hbody
    · refine .inr ⟨?_, husable⟩
      by_contra hsome
      obtain ⟨old, hold⟩ := Option.ne_none_iff_exists'.mp hsome
      rw [h.spares.bodies hold] at hnone
      cases hnone

theorem of_length (h : l.Spares l') (hlength : l'.units.length = l.units.length) :
    l.Retains l' where
  spares := h
  made {id body} hbody := by
    obtain ⟨old, hold⟩ := exists_body? (hlength ▸ lt_length_of_body? hbody)
    rw [h.bodies hold] at hbody
    exact .inl (hold.trans hbody)

theorem of_stages (h : l.Spares l') (h' : ∀ id, Stage.Moves (l.stage? id) (l'.stage? id)) :
    l.Retains l' where
  spares := h
  made {id body} hbody := by
    cases hold : l.body? id with
    | some old =>
      rw [h.bodies hold] at hbody
      exact .inl hbody
    | none =>
      have hmoves := h' id
      obtain ⟨unit, hunit, rfl⟩ := Option.map_eq_some_iff.mp hbody
      have hstage : l.stage? id = none := by
        rw [stage?, Option.map_eq_none_iff]
        exact Option.map_eq_none_iff.mp hold
      have hstage' : l'.stage? id = some unit.body.stage := congrArg (Option.map _) hunit
      rw [hstage, hstage'] at hmoves
      cases hmoves with
      | add husable => exact .inr ⟨rfl, husable⟩

theorem refl (l : Loader ω χ) : l.Retains l := of_length (.refl l) rfl

theorem compiling_iff (h : l.Retains l') :
    l'.body? id = some .compiling ↔ l.body? id = some .compiling := by
  refine ⟨fun hbody ↦ ?_, h.spares.bodies⟩
  obtain hbody | ⟨-, husable⟩ := h.made hbody
  · exact hbody
  · rcases husable with husable | husable <;> cases husable

end Retains

theorem Shifts.length (h : l.Shifts l') : l'.units.length = l.units.length := by
  refine h.congr (f := fun l ↦ l.units.length) fun {l l'} hshift ↦ ?_
  cases hshift with
  | status | callbacks => exact List.length_modify ..
  | operation kind context => rw [units_operation]
  | aside | record | mark => rfl

theorem Shifts.retains (h : l.Shifts l') : l.Retains l' := .of_length h.spares h.length

variable (l)

/-- The body of a unit does not depend on the tables, and neither do the lookups. -/
theorem retains_of_same (hunits : l'.units = l.units) (hjournal : l'.journal = l.journal) :
    l.Retains l' :=
  .of_length (.of_same hunits hjournal) (by rw [hunits])

variable (p : Platform ω χ)

/-- However units are made, nothing is executed. -/
theorem Strokes.retains {asked : Option (Compiler ω χ)} {l l' : Loader ω χ}
    (h : l.Strokes p asked l') : l.Retains l' :=
  .of_stages h.spares h.stages

/-- A second pass is run, which changes no body. -/
theorem retains_compileUnit (pass : SecondPass ω χ) :
    (l.record (.compiled pass.unit)).Retains (l.compileUnit p pass).1 :=
  (l.strokes_compileUnit p pass).retains

end Loader

namespace Machine

open Loader

variable {m n m' : Machine ω χ}

theorem Shifts.underway (h : m.Shifts m') : m'.underway = m.underway := by
  refine h.filterMap fun frame hplain ↦ ?_
  cases frame <;> first | rfl | cases hplain

/-- Nothing is executed, or one unit at last, and no second pass begins or ends before. -/
inductive ExecutesLast (m : Machine ω χ) : Machine ω χ → Prop
  | none {m' : Machine ω χ} (retains : m.loader.Retains m'.loader)
      (underway : m'.underway = m.underway) : ExecutesLast m m'
  | one {n : Machine ω χ} (id : UnitId) (retains : m.loader.Retains n.loader)
      (underway : n.underway = m.underway) : ExecutesLast m (n.execute id)

namespace ExecutesLast

theorem after (hretains : m.loader.Retains n.loader) (hunderway : n.underway = m.underway)
    (h : n.ExecutesLast m') : m.ExecutesLast m' := by
  cases h with
  | none hretains' hunderway' =>
    exact .none (hretains.trans hretains') (hunderway'.trans hunderway)
  | one id hretains' hunderway' =>
    exact .one id (hretains.trans hretains') (hunderway'.trans hunderway)

/-- A change that concerns neither units nor the journal, whatever is put on the stack, if it is not
a second pass. -/
theorem of_same (hunits : m'.loader.units = m.loader.units)
    (hjournal : m'.loader.journal = m.loader.journal) (hunderway : m'.underway = m.underway) :
    m.ExecutesLast m' :=
  .none (m.loader.retains_of_same hunits hjournal) hunderway

theorem of_leads (h : m.Leads m') : m.ExecutesLast m' := by
  cases h with
  | shifts h => exact .none h.loader.retains h.underway
  | execute h id => exact .one id h.loader.retains h.underway

end ExecutesLast

/-! ## The functions of the loader -/

variable (m) (p : Platform ω χ)

theorem executesLast_completeLookup (lookup : Lookup ω) :
    m.ExecutesLast (m.completeLookup p lookup) := by
  obtain ⟨world, answer, hleads⟩ := m.leads_completeLookup p lookup
  have hmade := (m.loader.shifts_noteFound world lookup.key answer).retains.trans
    (strokes_unitOfAnswer p _ lookup.locator lookup.origin answer).retains
  obtain ⟨l, e, heq, hleads⟩ | ⟨l, id, heq, hleads⟩ := hleads
  all_goals rw [heq] at hmade
  · exact .after (n := { m with loader := l }) hmade rfl (.of_leads hleads)
  · exact .after
      (n := { m with loader := { l with cache := l.cache.insertResult lookup.key id } })
      (hmade.trans (retains_of_same _ rfl rfl)) rfl (.of_leads hleads)

theorem executesLast_drive (next : Awaited Unit → Code ω) : m.ExecutesLast (m.drive p next) := by
  obtain hshifts | ⟨n, lookup, hshifts, heq⟩ := m.leads_drive p next
  · exact .of_leads (.shifts hshifts)
  · rw [heq]
    exact .after hshifts.loader.retains hshifts.underway (executesLast_completeLookup n p lookup)

theorem executesLast_runCode (code : Code ω) : m.ExecutesLast (m.runCode p code) := by
  cases code with
  | drive next => exact m.executesLast_drive p next
  | openUnit url next => exact .none (m.loader.strokes_openUnit p url).retains rfl
  | createFromSource url code dependencies next =>
    exact .none (m.loader.strokes_createFromSource p url code dependencies).retains rfl
  | createFromFunction url body dependencies next =>
    exact .none (m.loader.strokes_createFromFunction p url body dependencies).retains rfl
  | createFromResource resource next =>
    exact .none (m.loader.strokes_unitOfResource p resource).retains rfl
  | reset next =>
    have hspares : m.loader.Spares (m.loader.record .reset) := m.loader.spares_record rfl
    exact .none (.of_length (hspares.trans (.of_same rfl rfl)) rfl) rfl
  | setHost host next => exact .of_same rfl rfl rfl
  | _ => exact .of_leads (m.leads_runCode p rfl)

/-! ## Steps -/

/-- The unit whose second pass the next step runs: its dependencies have been executed. -/
def secondPass? (m : Machine ω χ) : Option UnitId :=
  match m.control, m.stack with
  | .returning (.ok _), .compiling pass _ :: _ => if pass.rest.isEmpty then some pass.unit else none
  | _, _ => none

/-- What a step comes to for the bodies of units. -/
inductive Fares (m : Machine ω χ) : Machine ω χ → Prop
  | execute {m' : Machine ω χ} (idle : m.secondPass? = none) (executes : m.ExecutesLast m') :
      Fares m m'
  /-- A second pass is run. -/
  | finish {value pass executer base} (control : m.control = .returning (.ok value))
      (stack : m.stack = .compiling pass executer :: base) (rest : pass.rest = []) :
      Fares m ({ m with stack := base }.continueCompilation p pass executer)
  /-- A dependency has failed. -/
  | fail {error pass executer base} (control : m.control = .returning (.error error))
      (stack : m.stack = .compiling pass executer :: base) :
      Fares m ({ m with stack := base }.failCompilation pass error)

theorem underway_below {m : Machine ω χ} {frame : Frame ω χ} {base : List (Frame ω χ)}
    (hs : m.stack = frame :: base) (hnone : Stack.underway [frame] = []) :
    ({ m with stack := base } : Machine ω χ).underway = m.underway := by
  have hunderway : m.underway = Stack.underway [frame] ++ Stack.underway base := by
    rw [underway, hs, Stack.underway, Stack.underway, Stack.underway, ← List.filterMap_append]
    rfl
  rw [hunderway, hnone]
  rfl

/-- **What a step comes to for the bodies of units.** -/
theorem step_fares : m.Fares p (m.step p) := by
  rw [step]
  split
  case h_1 code hcontrol =>
    exact .execute (by rw [secondPass?, hcontrol]) (m.executesLast_runCode p code)
  case h_2 hs =>
    have hidle : m.secondPass? = none := by
      rw [secondPass?, hs]
      split
      case h_1 heq => cases heq
      case h_2 => rfl
    exact .execute hidle (.of_same rfl rfl rfl)
  case h_3 outcome frame base hcontrol hs =>
    -- a frame that is no second pass may be taken off before all else
    have hpopped {m' : Machine ω χ} (hnone : Stack.underway [frame] = [])
        (h : ({ m with stack := base } : Machine ω χ).ExecutesLast m') : m.Fares p m' := by
      refine .execute ?_ (.after (n := { m with stack := base }) (.refl _) ?_ h)
      · rw [secondPass?, hs]
        split
        case h_1 heq => cases heq; cases hnone
        case h_2 => rfl
      exact underway_below hs hnone
    have hplain (hplain : frame.isPlain = true) (hnone : Stack.underway [frame] = []) :
        m.Fares p (resume p { m with stack := base } frame outcome) := by
      obtain hleads | ⟨next, -, heq⟩ := leads_resume { m with stack := base } p hplain outcome
      · exact hpopped hnone (.of_leads hleads)
      · rw [heq]
        exact hpopped hnone (executesLast_drive _ p next)
    cases frame with
    | compiling pass executer =>
      cases outcome with
      | error error => exact .fail hcontrol hs
      | ok value =>
        cases hrest : pass.rest with
        | nil => exact .finish hcontrol hs hrest
        | cons reference rest =>
          have hunderway : (({ m with stack := base } : Machine ω χ).push
              (.compiling { pass with rest } executer)).underway = m.underway := by
            rw [underway, underway, hs]
            rfl
          rw [resume, continueCompilation, hrest]
          exact .execute (by rw [secondPass?, hcontrol, hs]; simp [hrest])
            (.after (n := ({ m with stack := base } : Machine ω χ).push
              (.compiling { pass with rest } executer)) (.refl _) hunderway
              (.of_leads (leads_callReference _ executer reference)))
    | calling previous => exact hpopped rfl (.of_same rfl rfl rfl)
    | _ => exact hplain rfl rfl

end Machine

end ScriptLoader
