import ScriptLoader.Proofs.RunOrder

/-!
# What executing a unit compiles

A unit that awaits its second pass has its dependencies executed first, and a dependency that awaits
its own is treated likewise. A unit that can be called already is called, and nothing is done about
its dependencies. So an execution *gathers* the units that are reached from the unit executed along
units that all await their second pass, and no others.

That the units gathered are those that are compiled is shown as it is for any search of a graph. A
second pass that has begun belongs to a unit that is gathered. A unit whose second pass is over has
had the second passes of all its dependencies begun, and one whose second pass is under way has had
those begun that it has executed so far. When nothing is under way any more and nothing has failed,
the second pass of every gathered unit is over.
-/

namespace ScriptLoader

variable {ω χ : Type}

open Relation

namespace Loader

/-- A reference of a unit that awaits its second pass led to the other. -/
def LeadsOn (l : Loader ω χ) (id id' : UnitId) : Prop :=
  l.stage? id = some .pending ∧ l.Leads id id'

/-- A unit awaits its second pass and is reached from another along units that await theirs. -/
def Gathers (l : Loader ω χ) (entry id : UnitId) : Prop :=
  ReflTransGen l.LeadsOn entry id ∧ l.stage? id = some .pending

/-- The second pass of a unit has begun, or there was none to run. -/
def HasBegun (l : Loader ω χ) (id : UnitId) : Prop :=
  ∃ stage, l.stage? id = some stage ∧ stage ≠ .pending

variable {first l l' : Loader ω χ} {id entry : UnitId}

theorem HasBegun.of_stays (h : l.HasBegun id) (hstays : l.Stays l') : l'.HasBegun id := by
  obtain ⟨stage, hstage, hne⟩ := h
  exact ⟨stage, hstays.spares.stage?_eq hstage, hne⟩

theorem HasBegun.of_stage? {stage : Stage} (h : l.stage? id = some stage) (hne : stage ≠ .pending) :
    l.HasBegun id :=
  ⟨stage, h, hne⟩

theorem HasBegun.not_pending (h : l.HasBegun id) : l.stage? id ≠ some .pending := by
  obtain ⟨stage, hstage, hne⟩ := h
  rw [hstage]
  simpa using hne

/-- All that awaited its second pass among what references of a unit led to has begun it. -/
def IsSettled (first l : Loader ω χ) (id : UnitId) : Prop :=
  ∀ id', first.Leads id id' → first.stage? id' = some .pending → l.HasBegun id'

/-- One unit comes to a stage at which it awaits no second pass. The others are as they were, and
references lead at most where they led. -/
structure Restages (l l' : Loader ω χ) (id : UnitId) (new : Stage) : Prop where
  results : ∀ {key target}, l'.cache.result? key = some target → l.cache.result? key = some target
  stages : ∀ {other stage}, l.stage? other = some stage →
    l'.stage? other = some (if id = other then new else stage)
  begun : new ≠ .pending

namespace Restages

variable {new : Stage} {other : UnitId}

theorem setBody (l : Loader ω χ) (id : UnitId) {body : Body ω χ} (hbody : body.stage ≠ .pending) :
    l.Restages (l.setBody id body) id body.stage where
  results hresult := hresult
  stages hstage := by rw [stage?_setBody, hstage, Option.map_some]
  begun := hbody

theorem stage?_of_ne (h : l.Restages l' id new) (hne : id ≠ other) {stage : Stage}
    (hstage : l.stage? other = some stage) : l'.stage? other = some stage := by
  rw [h.stages hstage, if_neg hne]

theorem hasBegun (h : l.Restages l' id new) (hbegun : l.HasBegun other) : l'.HasBegun other := by
  obtain ⟨stage, hstage, hne⟩ := hbegun
  refine .of_stage? (h.stages hstage) ?_
  split
  · exact h.begun
  · exact hne

theorem isSettled (h : l.Restages l' id new) (hsettled : first.IsSettled l other) :
    first.IsSettled l' other :=
  fun id' hleads hpending ↦ h.hasBegun (hsettled id' hleads hpending)

end Restages

end Loader

/-- A frame is a second pass of a unit that is gathered. What the references led to that have been
worked off has begun its second pass, or is about to be executed. -/
def Frame.Gathers (first : Loader ω χ) (entry : UnitId) (begun : UnitId → Prop) :
    Frame ω χ → Prop
  | .compiling pass executer => first.Gathers entry pass.unit ∧
      ∃ unit, first.unit? pass.unit = some unit ∧
        executer.context.text = unit.info.directory.text ∧
        (∀ r ∈ pass.rest, r ∈ unit.info.dependencies) ∧
        ∀ r ∈ unit.info.dependencies, r ∈ pass.rest ∨
          ∀ id, first.cache.result? (unit.info.key r) = some id →
            first.stage? id = some .pending → begun id
  | _ => False

theorem Frame.Gathers.mono {first : Loader ω χ} {entry : UnitId} {begun begun' : UnitId → Prop}
    {frame : Frame ω χ} (h : frame.Gathers first entry begun)
    (hbegun : ∀ id, first.stage? id = some .pending → begun id → begun' id) :
    frame.Gathers first entry begun' := by
  cases frame with
  | compiling pass executer =>
    obtain ⟨hgathers, unit, hunit, hcontext, hrest, hworked⟩ := h
    refine ⟨hgathers, unit, hunit, hcontext, hrest, fun r hr ↦ (hworked r hr).imp_right ?_⟩
    exact fun hled id hresult hpending ↦ hbegun id hpending (hled id hresult hpending)
  | _ => exact h

namespace Loader

open Stack

/-- How far the execution of a unit has come: some second passes are under way, and a unit may be
about to be executed. -/
structure Gathering (first : Loader ω χ) (entry : UnitId) (todo : Option UnitId)
    (frames : List (Frame ω χ)) (l : Loader ω χ) : Prop where
  results : ∀ {key id}, l.cache.result? key = some id → first.cache.result? key = some id
  /-- A unit that awaited no second pass is as it was. -/
  others : ∀ {id stage}, first.stage? id = some stage → stage ≠ .pending →
    l.stage? id = some stage
  /-- A second pass has not begun, or it belongs to a unit that is gathered and is under way or
  over. -/
  stages : ∀ {id}, first.stage? id = some .pending → l.stage? id = some .pending ∨
    l.HasBegun id ∧ first.Gathers entry id ∧
      (id ∈ underway frames ∨ l.stage? id = some .ready ∧ first.IsSettled l id)
  frames : ∀ frame ∈ frames, frame.Gathers first entry fun id ↦ l.HasBegun id ∨ todo = some id
  begun : first.stage? entry = some .pending → l.HasBegun entry ∨ todo = some entry
  led : ∀ {id}, todo = some id → ReflTransGen first.LeadsOn entry id

namespace Gathering

variable {first l l' : Loader ω χ} {entry id : UnitId} {todo : Option UnitId}
  {frames : List (Frame ω χ)} {pass : SecondPass ω χ} {executer : Operation}

theorem start (first : Loader ω χ) (entry : UnitId) :
    first.Gathering entry (some entry) [] first where
  results hresult := hresult
  others hstage _ := hstage
  stages hpending := .inl hpending
  frames := by simp
  begun _ := .inr rfl
  led h := by
    cases h
    exact .refl

theorem stays (h : first.Gathering entry todo frames l) (hstays : l.Stays l') :
    first.Gathering entry todo frames l' where
  results hresult := h.results (hstays.results hresult)
  others hstage hne := hstays.spares.stage?_eq (h.others hstage hne)
  stages hpending := by
    rcases h.stages hpending with hwaits | ⟨hbegun, hgathers, hunderway | ⟨hready, hsettled⟩⟩
    · exact .inl (hstays.spares.stage?_eq hwaits)
    · exact .inr ⟨hbegun.of_stays hstays, hgathers, .inl hunderway⟩
    · exact .inr ⟨hbegun.of_stays hstays, hgathers, .inr ⟨hstays.spares.stage?_eq hready,
        fun id' hleads hpending' ↦ (hsettled id' hleads hpending').of_stays hstays⟩⟩
  frames frame hframe :=
    (h.frames frame hframe).mono fun _ _ hbegun ↦ hbegun.imp_left (·.of_stays hstays)
  begun hpending := (h.begun hpending).imp_left (·.of_stays hstays)
  led := h.led

theorem record (h : first.Gathering entry todo frames l) (e : Event) :
    first.Gathering entry todo frames (l.record e) :=
  ⟨h.results, h.others, h.stages, h.frames, h.begun, h.led⟩

/-- A unit that awaits no second pass any more need not be compiled. -/
theorem skip (h : first.Gathering entry (some id) frames l)
    (hbegun : first.stage? id = some .pending → l.HasBegun id) :
    first.Gathering entry none frames l :=
  { h with
    frames := fun frame hframe ↦ (h.frames frame hframe).mono fun other hpending hother ↦ by
      rcases hother with hother | heq
      · exact .inl hother
      · cases heq
        exact .inl (hbegun hpending)
    begun := fun hpending ↦ by
      rcases h.begun hpending with hentry | heq
      · exact .inl hentry
      · cases heq
        exact .inl (hbegun hpending)
    led := fun hnone ↦ by cases hnone }

/-- A unit that awaited its second pass comes to another stage, those that did not stay. -/
theorem others_of_restages {new : Stage} (h : first.Gathering entry todo frames l)
    (hrestages : l.Restages l' id new) (hpending : first.stage? id = some .pending)
    {other : UnitId} {stage : Stage} (hstage : first.stage? other = some stage)
    (hne : stage ≠ .pending) : l'.stage? other = some stage := by
  refine hrestages.stage?_of_ne ?_ (h.others hstage hne)
  rintro rfl
  rw [hpending] at hstage
  exact hne (Option.some.inj hstage).symm

theorem enter (h : first.Gathering entry (some id) frames l) {unit : LoadedUnit ω χ}
    (hunit : first.unit? id = some unit) (hpending : l.stage? id = some .pending)
    (hid : pass.unit = id) (hrest : pass.rest = unit.info.dependencies)
    (hcontext : executer.context.text = unit.info.directory.text) :
    first.Gathering entry none (.compiling pass executer :: frames) (l.setBody id .compiling) := by
  have hrestages : l.Restages (l.setBody id .compiling) id .compiling :=
    .setBody l id (by simp [Body.stage])
  have hfirst : first.stage? id = some .pending := by
    by_contra hne
    have hstage : first.stage? id = some unit.body.stage := congrArg (Option.map _) hunit
    have hsame := h.others hstage (fun heq ↦ hne (heq ▸ hstage))
    rw [hsame] at hpending
    exact hne (hpending ▸ hstage)
  have hgathers : first.Gathers entry id := ⟨h.led rfl, hfirst⟩
  have hnew : (l.setBody id .compiling).HasBegun id := by
    refine .of_stage? (hrestages.stages hpending) ?_
    rw [if_pos rfl]
    exact hrestages.begun
  have hmore {other : UnitId} (hbegun : l.HasBegun other ∨ some id = some other) :
      (l.setBody id .compiling).HasBegun other := by
    rcases hbegun with hbegun | heq
    · exact hrestages.hasBegun hbegun
    · cases heq
      exact hnew
  have hunderway : underway (.compiling pass executer :: frames) = id :: underway frames := by
    rw [← hid]
    rfl
  exact
    { results := h.results
      others := h.others_of_restages hrestages hfirst
      stages := fun {other} hother ↦ by
        rw [hunderway]
        by_cases heq : id = other
        · subst heq
          exact .inr ⟨hnew, hgathers, .inl List.mem_cons_self⟩
        · rcases h.stages hother with hwaits | ⟨hbegun, hothers, hgrey | ⟨hready, hsettled⟩⟩
          · exact .inl (hrestages.stage?_of_ne heq hwaits)
          · exact .inr ⟨hrestages.hasBegun hbegun, hothers, .inl (List.mem_cons_of_mem _ hgrey)⟩
          · exact .inr ⟨hrestages.hasBegun hbegun, hothers,
              .inr ⟨hrestages.stage?_of_ne heq hready, hrestages.isSettled hsettled⟩⟩
      frames := by
        refine List.forall_mem_cons.mpr ⟨?_, fun frame hframe ↦ ?_⟩
        · exact ⟨hid ▸ hgathers, unit, hid ▸ hunit, hcontext, fun r hr ↦ hrest ▸ hr,
            fun r hr ↦ .inl (hrest ▸ hr)⟩
        · exact (h.frames frame hframe).mono fun other _ hother ↦ .inl (hmore hother)
      begun := fun hentry ↦ .inl (hmore (h.begun hentry))
      led := fun hnone ↦ by cases hnone }

/-- The next reference of a second pass led to a unit, which is about to be executed. -/
theorem next (h : first.Gathering entry none (.compiling pass executer :: frames) l)
    {r : Reference} {references : List Reference} (hrest : pass.rest = r :: references)
    (hresult : first.cache.result? (r.key executer.context.text) = some id) :
    first.Gathering entry (some id)
      (.compiling { pass with rest := references } executer :: frames) l := by
  obtain ⟨⟨hgathers, unit, hunit, hcontext, hdeclared, hworked⟩, hframes⟩ :=
    List.forall_mem_cons.mp h.frames
  have hr : r ∈ unit.info.dependencies := hdeclared r (hrest ▸ List.mem_cons_self)
  have hkey {r : Reference} : unit.info.key r = r.key executer.context.text := by
    rw [UnitInfo.key, hcontext]
  exact
    { h with
      frames := by
        refine List.forall_mem_cons.mpr ⟨?_, fun frame hframe ↦ ?_⟩
        · refine ⟨hgathers, unit, hunit, hcontext, fun other hother ↦ ?_, fun other hother ↦ ?_⟩
          · exact hdeclared other (hrest ▸ List.mem_cons_of_mem _ hother)
          · rcases hworked other hother with hleft | hled
            · rw [hrest, List.mem_cons] at hleft
              rcases hleft with rfl | hleft
              · refine .inr fun target htarget _ ↦ .inr ?_
                rw [hkey, hresult] at htarget
                exact htarget
              · exact .inl hleft
            · exact .inr fun target htarget hpending ↦
                (hled target htarget hpending).imp_right fun hnone ↦ by cases hnone
        · exact (hframes frame hframe).mono fun other _ hother ↦
            hother.imp_right fun hnone ↦ by cases hnone
      begun := fun hentry ↦ (h.begun hentry).imp_right fun hnone ↦ by cases hnone
      led := fun heq ↦ by
        cases heq
        exact hgathers.1.tail ⟨hgathers.2, unit, hunit, r, hr, hkey ▸ hresult⟩ }

/-- A second pass is over: all that the references of its unit led to has begun. -/
theorem finish (h : first.Gathering entry none (.compiling pass executer :: frames) l)
    (hrest : pass.rest = []) (hrestages : l.Restages l' pass.unit .ready) :
    first.Gathering entry none frames l' := by
  obtain ⟨⟨hgathers, unit, hunit, hcontext, hdeclared, hworked⟩, hframes⟩ :=
    List.forall_mem_cons.mp h.frames
  have hsettled : first.IsSettled l pass.unit := by
    rintro id' ⟨unit', hunit', r, hr, hresult⟩ hpending
    rw [hunit, Option.some.injEq] at hunit'
    subst hunit'
    have hled := (hworked r hr).resolve_left (by simp [hrest])
    exact (hled id' hresult hpending).resolve_right fun hnone ↦ by cases hnone
  have hready : l'.stage? pass.unit = some .ready := by
    obtain ⟨stage, hstage⟩ : ∃ stage, l.stage? pass.unit = some stage := by
      rcases h.stages hgathers.2 with hwaits | ⟨⟨stage, hstage, -⟩, -⟩
      · exact ⟨_, hwaits⟩
      · exact ⟨stage, hstage⟩
    rw [hrestages.stages hstage, if_pos rfl]
  exact
    { results := fun hresult ↦ h.results (hrestages.results hresult)
      others := h.others_of_restages hrestages hgathers.2
      stages := fun {other} hother ↦ by
        by_cases heq : pass.unit = other
        · subst heq
          exact .inr ⟨.of_stage? hready hrestages.begun, hgathers,
            .inr ⟨hready, hrestages.isSettled hsettled⟩⟩
        · rcases h.stages hother with hwaits | ⟨hbegun, hothers, hgrey | ⟨hready, hdone⟩⟩
          · exact .inl (hrestages.stage?_of_ne heq hwaits)
          · have hbelow := (List.mem_cons.mp hgrey).resolve_left (Ne.symm heq)
            exact .inr ⟨hrestages.hasBegun hbegun, hothers, .inl hbelow⟩
          · exact .inr ⟨hrestages.hasBegun hbegun, hothers,
              .inr ⟨hrestages.stage?_of_ne heq hready, hrestages.isSettled hdone⟩⟩
      frames := fun frame hframe ↦
        (hframes frame hframe).mono fun _ _ hother ↦ hother.imp_left hrestages.hasBegun
      begun := fun hentry ↦ (h.begun hentry).imp_left hrestages.hasBegun
      led := h.led }

/-- **When nothing is left to do, the units that have been compiled are those that are gathered**:
they can be called, and all others await their second pass as before. -/
theorem ready_iff (h : first.Gathering entry none [] l)
    (hpending : first.stage? id = some .pending) :
    l.stage? id = some .ready ↔ first.Gathers entry id := by
  have hover {other : UnitId} (hother : first.stage? other = some .pending)
      (hbegun : l.HasBegun other) : l.stage? other = some .ready ∧ first.IsSettled l other := by
    rcases h.stages hother with hwaits | ⟨-, -, hgrey | hdone⟩
    · exact absurd hwaits hbegun.not_pending
    · cases hgrey
    · exact hdone
  constructor
  · intro hready
    rcases h.stages hpending with hwaits | ⟨-, hgathers, -⟩
    · rw [hready] at hwaits
      cases hwaits
    · exact hgathers
  · rintro ⟨hled, -⟩
    -- along the references, each unit has begun because the one before is settled
    suffices hbegun : l.HasBegun id from (hover hpending hbegun).1
    induction hled with
    | refl => exact (h.begun hpending).resolve_right fun hnone ↦ by cases hnone
    | @tail before other _ hlast ih =>
      obtain ⟨hbefore, hleads⟩ := hlast
      exact (hover hbefore (ih hbefore)).2 _ hleads hpending

end Gathering

end Loader

/-! ## Executing a unit -/

namespace Machine

open Loader Stack

variable {p : Platform ω χ} {first l₀ l₂ : Loader ω χ} {entry id : UnitId} {stall : LoaderError}
  {frames base : List (Frame ω χ)} {m m' : Machine ω χ} {value : Value}

/-- How far the execution of a unit has come on a stack. -/
inductive Carries (first : Loader ω χ) (entry : UnitId) (base : List (Frame ω χ)) :
    Machine ω χ → Prop
  /-- Something that a second pass has waited for has been done. -/
  | going {l value frames} (gathering : first.Gathering entry none frames l) :
      Carries first entry base ⟨l, .returning (.ok value), frames ++ base⟩
  /-- A body is running. -/
  | calling {m above previous frames}
      (stack : m.stack = above ++ .calling previous :: (frames ++ base))
      (above : ∀ f ∈ above, f.deed? = none)
      (gathering : first.Gathering entry none frames m.loader) : Carries first entry base m
  /-- An error ends one second pass after the other. -/
  | failing {l error frames}
      (passes : ∀ f ∈ frames, ∃ pass executer, f = .compiling pass executer) :
      Carries first entry base ⟨l, .returning (.error error), frames ++ base⟩

theorem Carries.called {previous : Option UnitId}
    (hs : m.stack = .calling previous :: (frames ++ base))
    (h : first.Gathering entry none frames m.loader) : m.Carries first entry base := by
  have hnone : m.stack = [] ++ .calling previous :: (frames ++ base) := hs
  exact .calling hnone (by simp) h

theorem isPass_of_gathers {begun : UnitId → Prop}
    (h : ∀ frame ∈ frames, frame.Gathers first entry begun) :
    ∀ frame ∈ frames, ∃ pass executer, frame = .compiling pass executer := by
  intro frame hframe
  have hgathers := h frame hframe
  cases frame with
  | compiling pass executer => exact ⟨pass, executer, rfl⟩
  | _ => exact hgathers.elim

theorem carries_execute (h : first.Gathering entry (some id) frames m.loader)
    (hs : m.stack = frames ++ base) (hkeeps : first.Keeps m.loader)
    (hbound : m.loader.OperationsBound) (hknown : (first.unit? id).isSome) :
    (m.execute id).Carries first entry base := by
  obtain ⟨unit, hunit⟩ := Option.isSome_iff_exists.mp hknown
  -- the unit declares what it did
  obtain ⟨s, hs', -, hdirectory, hdependencies⟩ := hkeeps (standing?_of_unit? hunit)
  obtain ⟨unit', hunit', rfl⟩ := standing?_eq_some.mp hs'
  have hstage : m.loader.stage? id = some unit'.body.stage := congrArg (Option.map _) hunit'
  have hbegun (hne : unit'.body.stage ≠ .pending) :
      first.stage? id = some .pending → m.loader.HasBegun id := fun _ ↦ ⟨_, hstage, hne⟩
  obtain ⟨unit'', hunit'', hexecutes⟩ := exists_executesAs hstage
  rw [hunit', Option.some.injEq] at hunit''
  subst hunit''
  generalize hbody : unit'.body.stage = stage at hexecutes hstage hbegun
  cases hexecutes with
  | @ready callable heq =>
    obtain ⟨hcall, previous, hstack⟩ := m.stays_callBody id unit'.info.directory callable
    rw [heq]
    exact .called (hs ▸ hstack) (((h.skip (hbegun (by simp))).record _).stays hcall)
  | @pending compiler file heq =>
    obtain ⟨l, pass, executer, hbegun, hstays, hpass, hrest, hcontext⟩ :=
      m.exists_begun id unit' hbound compiler file
    have hgathering : first.Gathering entry none (.compiling pass executer :: frames) l :=
      (h.enter hunit hstage hpass (hrest.trans hdependencies)
        (hcontext.trans (congrArg Url.text hdirectory))).stays hstays
    rw [heq, hbegun, hs]
    exact .going hgathering
  | compiling heq =>
    have hdone : m.done = ⟨m.loader, .returning (.ok .undefined), frames ++ base⟩ := hs ▸ rfl
    rw [heq, hdone]
    exact .going (h.skip (hbegun (by simp)))
  | failed heq =>
    have hthrown : m.throw (.compilation unit'.info.url.text)
        = ⟨m.loader, .returning (.error (.compilation unit'.info.url.text)), frames ++ base⟩ :=
      hs ▸ rfl
    rw [heq, hthrown]
    exact .failing (isPass_of_gathers h.frames)

theorem carries_callReference {pass : SecondPass ω χ} {executer : Operation} {r : Reference}
    {references : List Reference}
    (h : first.Gathering entry none (.compiling pass executer :: frames) m.loader)
    (hrest : pass.rest = r :: references)
    (hs : m.stack = .compiling { pass with rest := references } executer :: frames ++ base)
    (hkeeps : first.Keeps m.loader) (hbound : m.loader.OperationsBound) (htidy : first.Tidy) :
    (m.callReference executer r).Carries first entry base := by
  have hthrow (error : LoaderError) : (m.throw error).Carries first entry base := by
    have hthrown : m.throw error = ⟨m.loader, .returning (.error error),
        .compiling { pass with rest := references } executer :: frames ++ base⟩ := hs ▸ rfl
    rw [hthrown]
    exact .failing (List.forall_mem_cons.mpr
      ⟨⟨_, _, rfl⟩, isPass_of_gathers (List.forall_mem_cons.mp h.frames).2⟩)
  rw [callReference]
  split
  case h_1 target hresult =>
    have hled := h.results hresult
    obtain ⟨s, hs'⟩ := htidy.result hled
    obtain ⟨unit, hunit, -⟩ := standing?_eq_some.mp hs'
    split
    case isTrue =>
      exact carries_execute (h.next hrest hled) hs hkeeps hbound
        (Option.isSome_iff_exists.mpr ⟨unit, hunit⟩)
    case isFalse => exact hthrow _
  case h_2 => exact hthrow _

theorem carries_continueCompilation {pass : SecondPass ω χ} {executer : Operation}
    (h : first.Gathering entry none (.compiling pass executer :: frames) m.loader)
    (hs : m.stack = frames ++ base) (hkeeps : first.Keeps m.loader)
    (hbound : m.loader.OperationsBound) (htidy : first.Tidy) :
    (m.continueCompilation p pass executer).Carries first entry base := by
  cases hrest : pass.rest with
  | cons r references =>
    have hpushed : (m.push (.compiling { pass with rest := references } executer)).stack
        = .compiling { pass with rest := references } executer :: frames ++ base :=
      congrArg (_ :: ·) hs
    rw [continueCompilation, hrest]
    exact carries_callReference
      (m := m.push (.compiling { pass with rest := references } executer)) h hrest hpushed hkeeps
      hbound htidy
  | nil =>
    have hspares := m.loader.spares_compileUnit p pass
    have hquiet := m.loader.quiet_compileUnit p pass
    rw [continueCompilation, hrest]
    rcases hcompiled : m.loader.compileUnit p pass with ⟨l, error | callable⟩
    all_goals
      rw [hcompiled] at hspares hquiet
      dsimp only at hspares hquiet ⊢
    · have hfailed : ({ m with loader := l } : Machine ω χ).failCompilation pass error
          = ⟨{ l.setBody pass.unit .failed with compiling := pass.previous },
            .returning (.error error), frames ++ base⟩ := hs ▸ rfl
      rw [hfailed]
      exact .failing (isPass_of_gathers (List.forall_mem_cons.mp h.frames).2)
    · obtain ⟨hcall, previous, hstack⟩ := stays_callBody
        (({ m with loader := l } : Machine ω χ).leaveCompilation pass (.ready callable)) pass.unit
        pass.directory callable
      refine .called (hstack.trans (congrArg (_ :: ·) hs)) (.stays (.record ?_ _) hcall)
      have hset : l.Restages (l.setBody pass.unit (.ready callable)) pass.unit .ready :=
        .setBody l pass.unit (by simp [Body.stage])
      exact h.finish hrest
        { results := fun {key _} hresult ↦ (hquiet.result? key).symm.trans hresult
          stages := fun hstage ↦ hset.stages (hspares.stage?_eq hstage)
          begun := hset.begun }

/-- **The execution of a unit goes on** until something is returned to the stack. Bodies keep to
themselves. -/
theorem Carries.step (h : m.Carries first entry base) (hpending : ¬m.Returns base)
    (hkeeps : first.Keeps m.loader) (hbound : m.loader.OperationsBound) (htidy : first.Tidy)
    (himports : m.scene.ImportsNothing) (hcode : m.keepsToItself = true) :
    (m.step p).Carries first entry base := by
  cases h with
  | @going l value frames gathering =>
    cases frames with
    | nil => exact absurd ⟨_, rfl, rfl⟩ hpending
    | cons frame frames =>
      obtain ⟨pass, executer, rfl⟩ :=
        isPass_of_gathers gathering.frames frame List.mem_cons_self
      exact carries_continueCompilation (m := ⟨l, .returning (.ok value), frames ++ base⟩)
        gathering rfl hkeeps hbound htidy
  | @calling m above previous frames hs habove gathering =>
    by_cases hreturns : above = [] ∧ ∃ outcome, m.control = .returning outcome
    · obtain ⟨rfl, outcome, hcontrol⟩ := hreturns
      have hstep : m.step p = ⟨{ m.loader with executing := previous }, .returning outcome,
          frames ++ base⟩ := by
        rw [Machine.step, hcontrol, hs]
        rfl
      rw [hstep]
      cases outcome with
      | ok value => exact .going (gathering.stays (.of_same rfl rfl rfl))
      | error error => exact .failing (isPass_of_gathers gathering.frames)
    · obtain ⟨hstays, above', hs', habove'⟩ :=
        step_body (p := p) himports hs habove hcode hreturns
      exact .calling hs' habove' (gathering.stays hstays)
  | @failing l error frames hpasses =>
    cases frames with
    | nil => exact absurd ⟨_, rfl, rfl⟩ hpending
    | cons frame frames =>
      obtain ⟨⟨pass, executer, rfl⟩, hrest⟩ := List.forall_mem_cons.mp hpasses
      exact .failing hrest

theorem Carries.gathering_of_returns {l : Loader ω χ}
    (h : Carries first entry base ⟨l, .returning (.ok value), base⟩) :
    first.Gathering entry none [] l := by
  generalize hm : (⟨l, .returning (.ok value), base⟩ : Machine ω χ) = m at h
  cases h with
  | @going l' value' frames gathering =>
    injection hm with hloader _ hs
    have hnil : frames = [] := List.self_eq_append_left.mp hs
    subst hloader hnil
    exact gathering
  | calling hs => exact absurd (hm ▸ hs) (ne_append_cons (List.suffix_append _ base))
  | failing => cases hm

theorem Carries.stack_ne_nil {frame : Frame ω χ} (h : m.Carries first entry [frame]) :
    m.stack ≠ [] := by
  cases h with
  | going | failing => simp
  | calling hs => simp [hs]

/-- How far code has come that executes a unit and ends as that does. -/
inductive Compiles (first : Loader ω χ) (entry : UnitId) : Machine ω χ → Prop
  | executing : Compiles first entry ⟨first, .running (.execute entry .finish), []⟩
  | carrying {m : Machine ω χ} (carries : m.Carries first entry [.resume .finish]) :
      Compiles first entry m
  | finishing {l outcome}
      (gathering : ∀ value, outcome = .ok value → first.Gathering entry none [] l) :
      Compiles first entry ⟨l, .running (.finish outcome), []⟩
  | finished {l outcome}
      (gathering : ∀ value, outcome = .ok value → first.Gathering entry none [] l) :
      Compiles first entry ⟨l, .returning outcome, []⟩

theorem Compiles.step (h : m.Compiles first entry) (hknown : (first.unit? entry).isSome)
    (hkeeps : first.Keeps m.loader) (hbound : m.loader.OperationsBound) (htidy : first.Tidy)
    (himports : m.scene.ImportsNothing) (hbodies : m.stack ≠ [] → m.keepsToItself = true) :
    (m.step p).Compiles first entry := by
  cases h with
  | executing =>
    let m : Machine ω χ := ⟨first, .running (.execute entry .finish), [.resume .finish]⟩
    have hs : m.stack = [] ++ [.resume .finish] := rfl
    exact .carrying (carries_execute (m := m) (.start first entry) hs hkeeps hbound hknown)
  | carrying hcarries =>
    have hcode : m.keepsToItself = true := hbodies hcarries.stack_ne_nil
    by_cases hreturns : m.Returns [.resume .finish]
    · obtain ⟨l, control, stack⟩ := m
      obtain ⟨outcome, rfl, rfl⟩ := hreturns
      refine .finishing fun value hvalue ↦ ?_
      subst hvalue
      exact hcarries.gathering_of_returns
    · exact .carrying (hcarries.step hreturns hkeeps hbound htidy himports hcode)
  | finishing gathering => exact .finished gathering
  | finished gathering => exact .finished gathering

/-- **Executing a unit with success compiles the units that are gathered**, and no others that were
there. -/
theorem Reachable.gathering_of_ends
    (h : Reachable p ⟨first, .running (.execute entry .finish), []⟩)
    (hknown : (first.unit? entry).isSome) (himports : Scene.ImportsNothing ⟨first, []⟩)
    (hbodies : ∀ m, Runs p [] ⟨first, .running (.execute entry .finish), []⟩ m →
      m.stack ≠ [] → m.keepsToItself = true)
    (hends : Ends p [] first (.execute entry .finish) (.ok value) l₂) :
    first.Gathering entry none [] l₂ := by
  have htidy : first.Tidy := (h.sound p).tidy
  -- what is left of the run goes on as it began
  have hruns {m m' : Machine ω χ} (hrun : Runs p [] m m') (hm : m.Reachable p)
      (hcompiles : m.Compiles first entry) (hkeeps : first.Keeps m.loader)
      (himports : m.scene.ImportsNothing)
      (hbodies : ∀ m', Runs p [] m m' → m'.stack ≠ [] → m'.keepsToItself = true) :
      m'.Compiles first entry := by
    induction hrun with
    | refl => exact hcompiles
    | @step m m' hpending hrest ih =>
      have hasks : m.asks? ≠ some .imports := by
        by_cases hs : m.stack = []
        · cases hcompiles with
          | carrying hcarries => exact absurd hs hcarries.stack_ne_nil
          | executing | finishing | finished => simp [asks?]
        · intro hasks
          simpa [ofBody] using ofBody_of_asks? (hbodies m (.refl m) hs) _ hasks
      exact ih hm.step
        (hcompiles.step hknown hkeeps hm.fits.bound htidy himports (hbodies m (.refl m)))
        (hkeeps.trans (extends_step p m).2) (importsNothing_step himports hasks)
        fun m' hrun ↦ hbodies m' (.step hpending hrun)
  have hcompiles := hruns hends h .executing (Quiet.refl first).keeps himports hbodies
  generalize hm : (⟨l₂, .returning (.ok value), []⟩ : Machine ω χ) = m at hcompiles
  cases hcompiles with
  | carrying hcarries => exact absurd (hm ▸ rfl) hcarries.stack_ne_nil
  | executing | finishing => cases hm
  | finished gathering =>
    cases hm
    exact gathering value rfl

end Machine

end ScriptLoader
