import Mathlib.Data.Finset.Card
import Mathlib.Order.Interval.Finset.Nat
import ScriptLoader.Proofs.Importing.Executed

/-!
# Executing a loaded file

Executing a loaded file succeeds if nothing stands in its way: each second pass succeeds, with the
dependencies that it asks for, and each body returns a value. That it comes to an end is not
assumed. Dependencies may form a cycle, but a unit is compiled once at most, so each unit that is
begun to be compiled leaves one less that awaits it.

## Unhindered runs

Nothing stands in the way of a run when all that it asks of the platform is granted. It matters
neither what the platform is nor in which order lookups complete: the assumptions are about what the
run meets.
-/

namespace ScriptLoader

variable {ω χ : Type}

namespace Loader

/-- Whether the lookup that is completed next finds the file that its key leads to, of which there
is a unit, or one can be made. -/
def finds (p : Platform ω χ) (leads : String → Url) (l : Loader ω χ) : Bool :=
  let (world, ticket) := p.resolver.next? l.world (l.lookups.map (·.ticket))
  match ticket.bind fun ticket ↦ l.lookups.find? (·.ticket = ticket) with
  | none => false
  | some lookup =>
    let (world, answer) := p.resolver.answer world lookup.ticket
    let l := (l.leave world (l.lookups.eraseP (·.ticket = lookup.ticket))).noteFound lookup.key
      answer
    (match answer with
      | .ok (some resource) => resource.url = leads lookup.key
      | _ => false) && (l.unitOfAnswer p lookup.locator lookup.origin answer).2.isOk

end Loader

namespace Machine

/-- Whether what the next step asks for is granted: the next lookup finds its file, a request of
running code is accepted, a reference of a wave can be looked up, and a second pass succeeds, which
is for its dependencies that they have been loaded. A wave asks for certain keys only. -/
def isGranted (p : Platform ω χ) (leads : String → Url) (keys : List String)
    (m : Machine ω χ) : Bool :=
  match m.control, m.stack with
  | .running (.drive _), _ | .returning (.ok _), .driving _ :: _ =>
    m.loader.lookups.isEmpty || m.loader.finds p leads
  | .returning (.error _), .resumeAfter _ :: _ => false
  | .returning (.ok _), .dispatching _ searcher (reference :: _) :: _ =>
    (searcher.request reference).isOk && keys.contains (reference.key searcher.context.text)
  | .returning (.ok _), .compiling pass executer :: _ =>
    match pass.rest with
    | reference :: _ =>
      (m.loader.cache.result? (reference.key executer.context.text)).any m.loader.isLoaded
    | [] => (m.loader.compileUnit p pass).2.isOk
  | _, _ => true

/-- Nothing stands in the way of the run that begins with a machine. Each key leads to one file, and
waves ask for certain keys only, which are finitely many. -/
structure Unhindered (p : Platform ω χ) (leads : String → Url) (keys : List String)
    (start : Machine ω χ) : Prop where
  reachable : start.Reachable p
  granted : ∀ {m}, Visits p start m → m.isGranted p leads keys = true
  /-- A body returns a value, and neither loads nor imports anything. -/
  body : ∀ {l code previous base}, Visits p start ⟨l, .running code, .calling previous :: base⟩ →
    ∃ value l', Shows p ⟨l, .running code, .calling previous :: base⟩ []
      ⟨l', .returning (.ok value), .calling previous :: base⟩ ∧ l.Executed l'
  /-- A callback of an import comes to its end, and neither loads nor imports anything. -/
  callback : ∀ {l code base}, Visits p start ⟨l, .running code, .ignoring :: base⟩ →
    ∃ outcome l', Shows p ⟨l, .running code, .ignoring :: base⟩ []
      ⟨l', .returning outcome, .ignoring :: base⟩ ∧ l.Executed l'

end Machine

namespace Loader

open Journal

def Unfailed (l : Loader ω χ) : Prop := ∀ id, l.stage? id ≠ some .failed

theorem Unfailed.executed {l l' : Loader ω χ} (h : l.Unfailed) (hexecuted : l.Executed l') :
    l'.Unfailed :=
  fun id hfailed ↦ h id ((hexecuted.stages id).eq_of hfailed (.inr rfl))

theorem Unfailed.setBody {l : Loader ω χ} (h : l.Unfailed) (id : UnitId) {body : Body ω χ}
    (hbody : body.stage ≠ .failed) : (l.setBody id body).Unfailed := by
  intro other hfailed
  rw [stage?_setBody, Option.map_eq_some_iff] at hfailed
  obtain ⟨stage, hstage, heq⟩ := hfailed
  split at heq
  · exact hbody heq
  · exact h other (heq ▸ hstage)

/-! ## What awaits its second pass -/

/-- Some first units are known, and results lead only to them. -/
structure Covers (bound : Nat) (l : Loader ω χ) : Prop where
  known : ∀ id < bound, (l.stage? id).isSome = true
  results : ∀ {key id}, l.cache.result? key = some id → id < bound

/-- How many of the first units await their second pass. -/
def pendingCount (l : Loader ω χ) (bound : Nat) : Nat :=
  ((Finset.range bound).filter fun id ↦ l.stage? id = some .pending).card

variable {l l' : Loader ω χ} {bound : Nat}

theorem Covers.executed (h : l.Covers bound) (hexecuted : l.Executed l') : l'.Covers bound where
  known id hid := (hexecuted.stages id).isSome (h.known id hid)
  results hresult := h.results ((hexecuted.quiet.result? _).symm.trans hresult)

theorem Covers.setBody (h : l.Covers bound) (id : UnitId) (body : Body ω χ) :
    (l.setBody id body).Covers bound where
  known other hother := by
    rw [stage?_setBody, Option.isSome_map]
    exact h.known other hother
  results := h.results

theorem Tidy.covers (h : l.Tidy) : l.Covers l.units.length where
  known id hid := by
    rw [stage?, unit?, List.getElem?_eq_getElem hid]
    rfl
  results hresult := by
    obtain ⟨s, hs⟩ := h.result hresult
    obtain ⟨unit, hunit, -⟩ := standing?_eq_some.mp hs
    exact (List.getElem?_eq_some_iff.mp hunit).1

theorem pendingCount_executed (hcovers : l.Covers bound) (h : l.Executed l') :
    l'.pendingCount bound ≤ l.pendingCount bound := by
  refine Finset.card_le_card fun id hid ↦ ?_
  obtain ⟨hbound, hpending⟩ := Finset.mem_filter.mp hid
  refine Finset.mem_filter.mpr ⟨hbound, ?_⟩
  have hmoves := h.stages id
  have hknown := hcovers.known id (Finset.mem_range.mp hbound)
  rw [hpending] at hmoves
  generalize l.stage? id = stage at hmoves hknown
  cases hmoves with
  | stay => rfl
  | add => cases hknown

/-- A unit that is begun to be compiled awaits it no longer. -/
theorem pendingCount_setBody {id : UnitId} (hbound : id < bound)
    (hpending : l.stage? id = some .pending) :
    (l.setBody id .compiling).pendingCount bound < l.pendingCount bound := by
  refine Finset.card_lt_card
    ((Finset.ssubset_iff_of_subset fun other hother ↦ ?_).mpr ⟨id, ?_, ?_⟩)
  · obtain ⟨hrange, hstage⟩ := Finset.mem_filter.mp hother
    refine Finset.mem_filter.mpr ⟨hrange, ?_⟩
    rw [stage?_setBody, Option.map_eq_some_iff] at hstage
    obtain ⟨stage, hstage, heq⟩ := hstage
    split at heq
    · cases heq
    · exact heq ▸ hstage
  · exact Finset.mem_filter.mpr ⟨Finset.mem_range.mpr hbound, hpending⟩
  · intro hmem
    have hstage := (Finset.mem_filter.mp hmem).2
    rw [stage?_setBody, hpending, Option.map_some, if_pos rfl] at hstage
    cases hstage

/-- A second pass as a whole: the unit is begun to be compiled, something is executed, the unit is
ready, and something is executed again. -/
theorem Executed.of_compiled {l₁ : Loader ω χ} {id : UnitId} {callable : Callable ω}
    (hpending : l.stage? id = some .pending) (h₁ : (l.setBody id .compiling).Executed l₁)
    (h₂ : (l₁.setBody id (.ready callable)).Executed l') : l.Executed l' where
  quiet := ((l.quiet_setBody id _).trans h₁.quiet).trans ((l₁.quiet_setBody id _).trans h₂.quiet)
  executing := h₂.executing.trans h₁.executing
  base := h₂.base.trans h₁.base
  released := h₂.released.trans h₁.released
  stages other := by
    have hbefore := h₁.stages other
    have hafter := h₂.stages other
    rw [stage?_setBody] at hbefore hafter
    by_cases hid : id = other
    · subst hid
      rw [hpending, Option.map_some, if_pos rfl] at hbefore
      rw [hpending]
      generalize l₁.stage? id = between at hbefore hafter
      cases hbefore with
      | stay =>
        rw [Option.map_some, if_pos rfl] at hafter
        exact .trans .compile hafter
    · simp only [if_neg hid, Option.map_id'] at hbefore hafter
      exact hbefore.trans hafter

end Loader

namespace Machine

open Loader Journal

variable {p : Platform ω χ} {leads : String → Url} {keys : List String} {start : Machine ω χ}
  {l : Loader ω χ} {control : Control ω} {base : List (Frame ω χ)} {bound count : Nat}

/-! ## Bodies -/

/-- What is shown when a body returns to a stack. -/
def returnedTo (base : List (Frame ω χ)) (url : Url) (outcome : Outcome) : List (ImportEvent ω) :=
  match base with
  | .delivering _ :: _ => [.returned url outcome]
  | _ => []

theorem shows_of_call {id : UnitId} {unit : LoadedUnit ω χ} (hexecuting : l.executing = some id)
    (hunit : l.unit? id = some unit) (outcome : Outcome) (previous : Option UnitId)
    (base : List (Frame ω χ)) :
    Shows p ⟨l, .returning outcome, .calling previous :: base⟩
      (returnedTo base unit.info.url outcome)
      ⟨{ l with executing := previous }, .returning outcome, base⟩ := by
  rcases base with _ | ⟨frame, base⟩
  · exact shows_of_step rfl rfl
  · cases frame with
    | delivering deliver =>
      have hevent : importEvent?
          ⟨l, .returning outcome, .calling previous :: .delivering deliver :: base⟩
            = some (.returned unit.info.url outcome) := by
        simp [importEvent?, hexecuting, hunit]
      have hstep : Shows p ⟨l, .returning outcome, .calling previous :: .delivering deliver :: base⟩
          _ ⟨{ l with executing := previous }, .returning outcome, .delivering deliver :: base⟩ :=
        .step (.refl _)
      rw [hevent] at hstep
      exact hstep
    | _ => exact shows_of_step rfl rfl

theorem Unhindered.callBody (h : Unhindered p leads keys start) {id : UnitId} {s : Standing ω}
    {directory : Url} {callable : Callable ω} (hs : l.standing? id = some s)
    (hv : Visits p start (Machine.callBody ⟨l, control, base⟩ id directory callable)) :
    ∃ value l', Shows p (Machine.callBody ⟨l, control, base⟩ id directory callable)
        (returnedTo base s.url (.ok value)) ⟨l', .returning (.ok value), base⟩ ∧
      l.Executed l' := by
  obtain ⟨l₁, arguments, hl₁⟩ : ∃ l₁ arguments, l.argumentsFor directory = (l₁, arguments) :=
    ⟨_, _, rfl⟩
  have harguments := l.executed_argumentsFor directory
  rw [hl₁] at harguments
  have hcall : Machine.callBody ⟨l, control, base⟩ id directory callable =
      ⟨{ l₁ with executing := some id, journal := .called id :: l₁.journal },
        .running (callable arguments), .calling l₁.executing :: base⟩ := by
    rw [Machine.callBody, hl₁]
    rfl
  rw [hcall] at hv ⊢
  obtain ⟨value, l₂, hshows, hexecuted⟩ := h.body hv
  have hquiet : l₁.Quiet l₂ := by
    have hcalled : l₁.Quiet { l₁.record (.called id) with executing := some id } :=
      (l₁.quiet_record rfl).trans (.of_same rfl rfl rfl rfl rfl)
    exact hcalled.trans hexecuted.quiet
  obtain ⟨unit, hunit, hstanding⟩ :=
    standing?_eq_some.mp (hquiet.known (harguments.quiet.known hs))
  have hreturns := shows_of_call (p := p) hexecuted.executing hunit (.ok value) l₁.executing base
  have hurl : unit.info.url = s.url := congrArg Standing.url hstanding
  rw [hurl] at hreturns
  refine ⟨value, { l₂ with executing := l₁.executing }, hshows.trans hreturns, harguments.trans ?_⟩
  exact
    { quiet := hquiet.trans (.of_same rfl rfl rfl rfl rfl)
      executing := rfl
      base := hexecuted.base
      released := hexecuted.released
      stages := hexecuted.stages }

/-! ## Dependencies -/

/-- A second pass executes what its next reference led to, which is loaded. -/
theorem Unhindered.execute_dependency (h : Unhindered p leads keys start) {value : Value}
    {pass : SecondPass ω χ} {executer : Operation} {r : Reference} {rest : List Reference}
    (hv : Visits p start ⟨l, .returning (.ok value), .compiling pass executer :: base⟩)
    (hrest : pass.rest = r :: rest) :
    ∃ id, l.isLoaded id = true ∧ l.cache.result? (r.key executer.context.text) = some id ∧
      Machine.step p ⟨l, .returning (.ok value), .compiling pass executer :: base⟩ =
        execute ⟨l, .returning (.ok value), .compiling { pass with rest } executer :: base⟩ id := by
  have hgranted := h.granted hv
  simp only [isGranted, hrest, Option.any_eq_true] at hgranted
  obtain ⟨id, hresult, hid⟩ := hgranted
  refine ⟨id, hid, hresult, ?_⟩
  simp only [Machine.step, resume, continueCompilation, hrest]
  exact callReference_of_loaded hresult hid

/-- Executing a loaded unit succeeds as long as fewer units than `count` await their second pass. A
unit that is being compiled further down the stack is not executed again. -/
def Executes (p : Platform ω χ) (start : Machine ω χ) (bound count : Nat) : Prop :=
  ∀ ⦃l control base id s⦄, Visits p start (execute ⟨l, control, base⟩ id) → l.Unfailed →
    l.Covers bound → l.pendingCount bound < count → id < bound → l.standing? id = some s →
    ∃ value l', Shows p (execute ⟨l, control, base⟩ id)
      (if l.stage? id = some .compiling then [] else returnedTo base s.url (.ok value))
      ⟨l', .returning (.ok value), base⟩ ∧ l.Executed l'

theorem Executes.dependencies (hexecutes : Executes p start bound count)
    (h : Unhindered p leads keys start) {pass : SecondPass ω χ} {executer : Operation}
    {value : Value} {rest : List Reference} (hrest : pass.rest = rest)
    (hv : Visits p start ⟨l, .returning (.ok value), .compiling pass executer :: base⟩)
    (hunfailed : l.Unfailed) (hcovers : l.Covers bound) (hcount : l.pendingCount bound < count) :
    ∃ value' l', Shows p ⟨l, .returning (.ok value), .compiling pass executer :: base⟩ []
        ⟨l', .returning (.ok value'), .compiling { pass with rest := [] } executer :: base⟩ ∧
      l.Executed l' := by
  induction rest generalizing pass l value with
  | nil =>
    have hsame : { pass with rest := [] } = pass := by rw [← hrest]
    exact ⟨value, l, hsame ▸ .refl _, .refl l⟩
  | cons r rest ih =>
    obtain ⟨id, hid, hresult, hstep⟩ := h.execute_dependency hv hrest
    have hexecute := hv.step
    rw [hstep] at hexecute
    obtain ⟨s, hs, -⟩ := isLoaded_iff.mp hid
    obtain ⟨value₁, l₁, hshows, hexecuted⟩ := hexecutes hexecute hunfailed hcovers hcount
      (hcovers.results hresult) hs
    have hsilent : (if l.stage? id = some .compiling then [] else
        returnedTo (.compiling { pass with rest } executer :: base) s.url (.ok value₁)) =
          ([] : List (ImportEvent ω)) := by split <;> rfl
    rw [hsilent] at hshows
    have hfirst := (shows_of_step hstep rfl).trans hshows
    have hcount₁ := Nat.lt_of_le_of_lt (pendingCount_executed hcovers hexecuted) hcount
    obtain ⟨value', l', hrestShows, hrestExecuted⟩ :=
      ih (rfl : ({ pass with rest } : SecondPass ω χ).rest = rest) (hv.shows hfirst)
        (hunfailed.executed hexecuted) (hcovers.executed hexecuted) hcount₁
    exact ⟨value', l', hfirst.trans hrestShows, hexecuted.trans hrestExecuted⟩

/-! ## Units -/

theorem exists_beginCompilation (l : Loader ω χ) (control : Control ω) (base : List (Frame ω χ))
    (id : UnitId) (info : UnitInfo) (compiler : Compiler ω χ) (file : χ) :
    ∃ l₁ pass executer, beginCompilation ⟨l, control, base⟩ id info compiler file =
        ⟨l₁, .returning (.ok .undefined), .compiling pass executer :: base⟩ ∧
      (l.setBody id .compiling).Executed l₁ ∧ pass.unit = id ∧ pass.rest = info.dependencies := by
  have hbegun : (l.setBody id .compiling).Executed
      { l.setBody id .compiling with
        compiling := some id
        world := (compiler.enterImport l.world file info.url.displayName).1 } :=
    .of_units (.of_same rfl rfl rfl rfl rfl) rfl rfl rfl rfl
  exact ⟨_, _, _, rfl, hbegun.trans (executed_operation _ .executer info.directory), rfl, rfl⟩

/-- The second pass proper makes the unit ready, and its body is called. -/
theorem Unhindered.finishCompilation (h : Unhindered p leads keys start) {value : Value}
    {pass : SecondPass ω χ} {executer : Operation} (hrest : pass.rest = [])
    (hv : Visits p start ⟨l, .returning (.ok value), .compiling pass executer :: base⟩) :
    ∃ l₁ l₂ callable, l.Executed l₁ ∧ (l₁.setBody pass.unit (.ready callable)).Executed l₂ ∧
      step p ⟨l, .returning (.ok value), .compiling pass executer :: base⟩ =
        Machine.callBody ⟨l₂, .returning (.ok value), base⟩ pass.unit pass.directory callable := by
  have hgranted := h.granted hv
  have hexecuted := l.executed_compileUnit p pass
  simp only [isGranted, hrest] at hgranted
  rcases hcompiled : l.compileUnit p pass with ⟨l₁, e | callable⟩
  · rw [hcompiled] at hgranted
    cases hgranted
  rw [hcompiled] at hexecuted
  have hready : (l₁.setBody pass.unit (.ready callable)).Executed
      { l₁.setBody pass.unit (.ready callable) with compiling := pass.previous } :=
    .of_units (.of_same rfl rfl rfl rfl rfl) rfl rfl rfl rfl
  refine ⟨l₁, _, callable, hexecuted, hready, ?_⟩
  simp only [step, resume, continueCompilation, hrest, hcompiled]
  rfl

theorem Executes.compile (hexecutes : Executes p start bound count)
    (h : Unhindered p leads keys start) {id : UnitId} {unit : LoadedUnit ω χ}
    {compiler : Compiler ω χ} {file : χ} (hunit : l.unit? id = some unit)
    (hbody : unit.body = .pending compiler file)
    (hv : Visits p start (beginCompilation ⟨l, control, base⟩ id unit.info compiler file))
    (hunfailed : l.Unfailed) (hcovers : l.Covers bound)
    (hcount : l.pendingCount bound < count + 1) (hbound : id < bound) :
    ∃ value l', Shows p (beginCompilation ⟨l, control, base⟩ id unit.info compiler file)
        (returnedTo base unit.info.url (.ok value)) ⟨l', .returning (.ok value), base⟩ ∧
      l.Executed l' := by
  have hpending : l.stage? id = some .pending := by
    rw [stage?, hunit, Option.map_some, hbody]
    rfl
  obtain ⟨l₁, pass, executer, hbegin, hl₁, rfl, hrest⟩ :=
    exists_beginCompilation l control base id unit.info compiler file
  rw [hbegin] at hv ⊢
  have hs₁ := hl₁.quiet.known ((l.quiet_setBody _ .compiling).known (standing?_of_unit? hunit))
  have hcount₁ : l₁.pendingCount bound < count := by
    have hfewer := pendingCount_setBody hbound hpending
    have hstill := pendingCount_executed (hcovers.setBody _ .compiling) hl₁
    omega
  have hbegun : (l.setBody pass.unit .compiling).Unfailed :=
    hunfailed.setBody _ (by simp [Body.stage])
  -- its dependencies are executed
  obtain ⟨value₁, l₂, hdependencies, hl₂⟩ := hexecutes.dependencies h hrest hv
    (hbegun.executed hl₁) ((hcovers.setBody _ .compiling).executed hl₁) hcount₁
  have hv₂ := hv.shows hdependencies
  obtain ⟨l₃, l₄, callable, hl₃, hl₄, hstep⟩ := h.finishCompilation rfl hv₂
  have hv₃ := hv₂.step
  rw [hstep] at hv₃
  -- and the body is called
  have hs₃ := (l₃.quiet_setBody pass.unit (.ready callable)).known
    (hl₃.quiet.known (hl₂.quiet.known hs₁))
  obtain ⟨value, l', hcall, hl'⟩ := h.callBody (hl₄.quiet.known hs₃) hv₃
  refine ⟨value, l', (hdependencies.trans (shows_of_step hstep rfl)).trans hcall, ?_⟩
  exact .of_compiled hpending ((hl₁.trans hl₂).trans hl₃) (hl₄.trans hl')

theorem Unhindered.executes (h : Unhindered p leads keys start) (bound count : Nat) :
    Executes p start bound count := by
  induction count with
  | zero => exact fun _ _ _ _ _ _ _ _ hcount ↦ absurd hcount (Nat.not_lt_zero _)
  | succ count ih =>
    intro l control base id s hv hunfailed hcovers hcount hbound hs
    obtain ⟨unit, hunit, rfl⟩ := standing?_eq_some.mp hs
    have hstage : l.stage? id = some unit.body.stage := by rw [stage?, hunit]; rfl
    rw [hstage]
    cases hbody : unit.body with
    | ready callable =>
      have heq : Machine.execute ⟨l, control, base⟩ id =
          Machine.callBody ⟨l, control, base⟩ id unit.info.directory callable := by
        simp only [Machine.execute, hunit, hbody]
      rw [heq] at hv ⊢
      exact h.callBody hs hv
    | pending compiler file =>
      have heq : Machine.execute ⟨l, control, base⟩ id =
          beginCompilation ⟨l, control, base⟩ id unit.info compiler file := by
        simp only [Machine.execute, hunit, hbody]
      rw [heq] at hv ⊢
      exact ih.compile h hunit hbody hv hunfailed hcovers hcount hbound
    | compiling =>
      have heq : Machine.execute ⟨l, control, base⟩ id = done ⟨l, control, base⟩ := by
        simp only [Machine.execute, hunit, hbody]
      rw [heq]
      exact ⟨.undefined, l, .refl _, .refl l⟩
    | failed =>
      rw [hbody] at hstage
      exact absurd hstage (hunfailed id)

/-- **A unit can be executed.** Nothing need be known of the units that are compiled for it. -/
theorem Unhindered.execute (h : Unhindered p leads keys start) {id : UnitId} {s : Standing ω}
    (hv : Visits p start (Machine.execute ⟨l, control, base⟩ id)) (hunfailed : l.Unfailed)
    (htidy : l.Tidy) (hs : l.standing? id = some s) (hnot : l.stage? id ≠ some .compiling) :
    ∃ value l', Shows p (Machine.execute ⟨l, control, base⟩ id)
        (returnedTo base s.url (.ok value)) ⟨l', .returning (.ok value), base⟩ ∧
      l.Executed l' := by
  have hbound : id < l.units.length := by
    obtain ⟨unit, hunit, -⟩ := standing?_eq_some.mp hs
    exact (List.getElem?_eq_some_iff.mp hunit).1
  obtain ⟨value, l', hshows, hexecuted⟩ := h.executes l.units.length _ hv hunfailed htidy.covers
    (Nat.lt_succ_self _) hbound hs
  rw [if_neg hnot] at hshows
  exact ⟨value, l', hshows, hexecuted⟩

end Machine

end ScriptLoader
