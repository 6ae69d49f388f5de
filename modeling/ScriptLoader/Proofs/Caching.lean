import Mathlib.Tactic.Ring
import ScriptLoader.Proofs.Delivery
import ScriptLoader.Proofs.Metering

/-!
# When caching is released

An import keeps resolver caching on, and is in exactly one place from the request until caching is
disabled for it: it is looked up, it waits for a unit, its callback is among those that a closed
wave calls next, or its file is being executed. So the depth of caching is what the code outside has
made it, and one more for each import that is in one of these places. This holds in every run,
whatever fails in it.

## What is left over

With nothing on the stack and no lookup under way, an import can only be waiting for a unit. That is
where one is left whose wave was dropped because of an error, and nothing takes it from there:
caching stays on. Without such an error, and without a failing callback, caching is as the code
outside has left it.
-/

namespace ScriptLoader

variable {ω χ : Type}

/-- How many imports a frame holds. -/
def Frame.imports : Frame ω χ → Nat
  | draining _ callbacks _ => callbacks.countP Callback.isImport
  | delivering _ => 1
  | _ => 0

/-- A second pass that is under way is that of a compiler that the loader works with. -/
def Frame.Suits (p : Platform ω χ) : Frame ω χ → Prop
  | compiling pass _ => pass.compiler ∈ p.compiler
  | _ => True

private theorem sum_map_modify {α : Type} (g : α → Nat) (f : α → α) {list : List α} {i : Nat}
    {a : α} (h : list[i]? = some a) :
    ((list.modify i f).map g).sum + g a = (list.map g).sum + g (f a) := by
  induction list generalizing i with
  | nil => cases h
  | cons head rest ih =>
    cases i with
    | zero =>
      cases h
      simp only [List.modify_zero_cons, List.map_cons, List.sum_cons]
      omega
    | succ i =>
      have := ih h
      simp only [List.modify_succ_cons, List.map_cons, List.sum_cons]
      omega

namespace Loader

variable {p : Platform ω χ} {depth : ω → Int} {l : Loader ω χ}

theorem waitingImports_modifyCallbacks {id : UnitId} {s : Standing ω}
    (hs : l.standing? id = some s) (change : List (Callback ω) → List (Callback ω)) :
    (l.modifyUnit id fun unit ↦ { unit with callbacks := change unit.callbacks }).waitingImports
        + s.callbacks.countP Callback.isImport
      = l.waitingImports + (change s.callbacks).countP Callback.isImport := by
  obtain ⟨unit, hunit, rfl⟩ := standing?_eq_some.mp hs
  exact sum_map_modify (fun unit ↦ unit.callbacks.countP Callback.isImport)
    (fun unit ↦ { unit with callbacks := change unit.callbacks }) hunit

theorem allFit_modifyCallbacks (h : l.AllFit p) (id : UnitId)
    (change : List (Callback ω) → List (Callback ω)) :
    (l.modifyUnit id fun unit ↦ { unit with callbacks := change unit.callbacks }).AllFit p := by
  intro unit hunit
  obtain ⟨old, hold, rfl | rfl⟩ := mem_modifyUnit hunit
  · exact h _ hold
  · exact h old hold

theorem depth_endImports (hp : p.Meters depth) (l : Loader ω χ) (count : Nat) :
    depth (l.endImports p count).world = depth l.world - count := by
  have hrepeat (world : ω) : depth (Nat.repeat p.resolver.disableCaching count world)
      = depth world - count := by
    induction count with
    | zero => simp [Nat.repeat]
    | succ count ih =>
      rw [Nat.repeat, hp.disable, ih]
      push_cast
      ring
  exact hrepeat l.world

end Loader

namespace Machine

open Loader

variable (p : Platform ω χ) (depth : ω → Int)

/-- How many imports the loader is still to end. -/
def imports (m : Machine ω χ) : Nat :=
  m.loader.importLookups + m.loader.waitingImports + (m.stack.map Frame.imports).sum

/-- How much deeper caching is than the imports account for. -/
def surplus (m : Machine ω χ) : Int := depth m.loader.world - m.imports

/-- Only compilers that the loader works with have been used. -/
def AllFit (m : Machine ω χ) : Prop := m.loader.AllFit p ∧ ∀ frame ∈ m.stack, frame.Suits p

/-- What a machine comes to that has some imports in hand accounts for them. -/
def Accounts (inHand : Int) (m m' : Machine ω χ) : Prop :=
  m.AllFit p → m'.AllFit p ∧ m'.surplus depth = m.surplus depth - inHand

variable {p depth}

theorem surplus_eq (m : Machine ω χ) :
    m.surplus depth = m.loader.surplus depth - (m.stack.map Frame.imports).sum := by
  rw [surplus, imports, Loader.surplus]
  push_cast
  ring

namespace Accounts

variable {m m' m'' : Machine ω χ} {a b : Int}

theorem trans (h : m.Accounts p depth a m') (h' : m'.Accounts p depth b m'') :
    m.Accounts p depth (a + b) m'' := by
  intro hfit
  obtain ⟨hfit', heq⟩ := h hfit
  obtain ⟨hfit'', heq'⟩ := h' hfit'
  exact ⟨hfit'', by rw [heq', heq]; ring⟩

/-- A change of the loader that is level accounts for nothing. -/
theorem of_level (h : m.loader.Level p depth m'.loader) (hstack : m'.stack = m.stack) :
    m.Accounts p depth 0 m' := by
  intro ⟨hfit, hsuits⟩
  refine ⟨⟨h.fit hfit, hstack ▸ hsuits⟩, ?_⟩
  rw [surplus_eq, surplus_eq, h.surplus, hstack, sub_zero]

theorem refl (m : Machine ω χ) : m.Accounts p depth 0 m := .of_level (.refl _) rfl

/-- What is accounted for after a level change is accounted for in all. -/
theorem after_level {n : Machine ω χ} (h : m.loader.Level p depth n.loader)
    (hstack : n.stack = m.stack) (h' : n.Accounts p depth a m') : m.Accounts p depth a m' := by
  have := (of_level h hstack).trans h'
  rwa [zero_add] at this

end Accounts

theorem accounts_push (m : Machine ω χ) (frame : Frame ω χ) (h : frame.Suits p) :
    m.Accounts p depth frame.imports (m.push frame) := by
  intro ⟨hfit, hsuits⟩
  refine ⟨⟨hfit, List.forall_mem_cons.mpr ⟨h, hsuits⟩⟩, ?_⟩
  rw [surplus_eq, surplus_eq, push, List.map_cons, List.sum_cons]
  push_cast
  ring

theorem Accounts.after_push {m m' : Machine ω χ} {a : Int} (frame : Frame ω χ)
    (h : (m.push frame).Accounts p depth a m') (hnone : frame.imports = 0)
    (hsuits : frame.Suits p) : m.Accounts p depth a m' := by
  have := (accounts_push m frame hsuits).trans h
  rwa [hnone, Nat.cast_zero, zero_add] at this

/-! ## Executing -/

theorem accounts_callBody (m : Machine ω χ) (id : UnitId) (directory : Url)
    (callable : Callable ω) : m.Accounts p depth 0 (m.callBody id directory callable) := by
  have hlevel : m.loader.Level p depth _ := m.loader.level_argumentsFor directory
  exact .after_level (n := m.update fun _ ↦ { (m.loader.argumentsFor directory).1 with
      executing := some id }.record (.called id)) (hlevel.trans (.of_units rfl rfl rfl)) rfl
    (accounts_push _ (.calling _) trivial)

section

variable (hp : p.Meters depth)

include hp

theorem accounts_beginCompilation (m : Machine ω χ) (id : UnitId) (info : UnitInfo)
    {compiler : Compiler ω χ} (hcompiler : compiler ∈ p.compiler) (file : χ) :
    m.Accounts p depth 0 (m.beginCompilation id info compiler file) := by
  have hworld := hp.enterImport compiler hcompiler m.loader.world file info.url.displayName
  have hbegun : m.loader.Level p depth
      { m.loader.setBody id .compiling with
        compiling := some id
        world := (compiler.enterImport m.loader.world file info.url.displayName).1 } :=
    (m.loader.level_setBody id .compiling trivial).trans (.of_units rfl rfl hworld)
  exact .after_level (n := m.update fun _ ↦ _)
    (hbegun.trans (level_operation _ .executer info.directory)) rfl
    (accounts_push _ (.compiling _ _) hcompiler)

theorem accounts_execute (m : Machine ω χ) (id : UnitId) :
    m.Accounts p depth 0 (m.execute id) := by
  intro hfit
  rw [execute]
  split
  case h_1 => exact Accounts.refl m hfit
  case h_2 unit hunit =>
    have hbody := hfit.1 unit (List.mem_of_getElem? hunit)
    split
    case h_1 => exact accounts_callBody m _ _ _ hfit
    case h_2 hpending =>
      rw [hpending] at hbody
      exact accounts_beginCompilation hp m id unit.info hbody _ hfit
    case h_3 | h_4 => exact Accounts.refl m hfit

theorem accounts_callReference (m : Machine ω χ) (executer : Operation) (reference : Reference) :
    m.Accounts p depth 0 (m.callReference executer reference) := by
  rw [callReference]
  split
  · split
    · exact accounts_execute hp m _
    · exact .refl m
  · exact .refl m

omit hp in
theorem level_leaveCompilation (l : Loader ω χ) (pass : SecondPass ω χ) (body : Body ω χ)
    (h : body.Fits p) :
    l.Level p depth { l.setBody pass.unit body with compiling := pass.previous } :=
  (l.level_setBody pass.unit body h).trans (.of_units rfl rfl rfl)

theorem accounts_continueCompilation (m : Machine ω χ) {pass : SecondPass ω χ}
    (hpass : pass.compiler ∈ p.compiler) (executer : Operation) :
    m.Accounts p depth 0 (m.continueCompilation p pass executer) := by
  rw [continueCompilation]
  cases pass.rest with
  | cons reference rest =>
    exact .after_push (.compiling { pass with rest } executer)
      (accounts_callReference hp _ executer reference) rfl hpass
  | nil =>
    have hlevel := level_compileUnit hp m.loader hpass
    rcases h : m.loader.compileUnit p pass with ⟨l, e | callable⟩
    all_goals rw [h] at hlevel
    · exact .of_level (hlevel.trans (level_leaveCompilation l pass .failed trivial)) rfl
    · have hleft := hlevel.trans (level_leaveCompilation l pass (.ready callable) trivial)
      exact .after_level (n := m.update fun _ ↦
        { l.setBody pass.unit (.ready callable) with compiling := pass.previous }) hleft rfl
        (accounts_callBody _ pass.unit pass.directory callable)

/-- A callback that is called keeps its import until its file has been executed. -/
theorem accounts_callBack (m : Machine ω χ) (id : UnitId) (callback : Callback ω) :
    m.Accounts p depth (if callback.isImport then 1 else 0) (m.callBack id callback) := by
  cases callback with
  | code code => exact .refl m
  | importing deliver =>
    have := (accounts_push m (.delivering deliver) trivial).trans
      (accounts_execute hp _ id)
    rwa [add_zero] at this

theorem accounts_endImports (m : Machine ω χ) (count : Nat) :
    m.Accounts p depth count (m.update (·.endImports p count)) := by
  intro hfit
  refine ⟨hfit, ?_⟩
  rw [surplus, update, depth_endImports hp, surplus]
  have himports : ({ m with loader := m.loader.endImports p count } : Machine ω χ).imports
      = m.imports := rfl
  rw [himports]
  ring

/-! ## Waves -/

omit hp in
theorem level_enroll (l : Loader ω χ) (wave : Wave) (id : UnitId)
    (dependencies : List Reference) : l.Level p depth (l.enroll wave id dependencies) :=
  (l.level_setStatus id .loading).trans (.of_units rfl rfl rfl)

omit hp in
theorem level_close (l : Loader ω χ) (wave : Wave) : l.Level p depth (l.close wave) := by
  have hleft : l.Level p depth { l with wave := none } := .of_units rfl rfl rfl
  exact (hleft.trans (level_setStatuses _ wave.participants .loaded)).trans (.of_units rfl rfl rfl)

omit hp in
theorem accounts_join (m : Machine ω χ) (id : UnitId) : m.Accounts p depth 0 (m.join id) := by
  cases hwave : m.loader.wave with
  | none =>
    rw [join, hwave]
    exact .of_level (.of_units rfl rfl rfl) rfl
  | some wave =>
    cases hs : m.loader.standing? id with
    | none =>
      rw [join, hwave, standing?_eq_none.mp hs]
      exact .refl m
    | some s =>
      rw [join_eq hwave hs]
      exact .after_level (n := m.update fun _ ↦ _) ((level_enroll _ wave id s.dependencies).trans
        (level_operation _ .searcher s.directory)) rfl
          (accounts_push _ (.dispatching _ _ _) trivial)

omit hp in
theorem accounts_closeWave (m : Machine ω χ) : m.Accounts p depth 0 m.closeWave := by
  cases hwave : m.loader.wave with
  | none =>
    rw [closeWave, hwave]
    exact .refl m
  | some wave =>
    rw [closeWave_eq hwave]
    have hlevel : m.loader.Level p depth _ := level_close m.loader wave
    rcases wave.participants with _ | ⟨first, rest⟩
    · exact .of_level hlevel rfl
    · exact .after_level (n := m.update (·.close wave)) hlevel rfl
        (accounts_push _ (.draining first [] (first :: rest)) trivial)

/-! ## Loading -/

omit hp in
/-- A callback that comes to wait accounts for its import. -/
theorem accounts_await (m : Machine ω χ) {id : UnitId} {s : Standing ω}
    (hs : m.loader.standing? id = some s) (callback : Option (Callback ω)) :
    m.Accounts p depth (callback.toList.countP Callback.isImport)
      (m.update (·.await id callback)) := by
  intro ⟨hfit, hsuits⟩
  refine ⟨⟨allFit_modifyCallbacks hfit id (· ++ callback.toList), hsuits⟩, ?_⟩
  have hwaiting := waitingImports_modifyCallbacks hs (· ++ callback.toList)
  rw [List.countP_append] at hwaiting
  have hworld : depth (m.loader.await id callback).world = depth m.loader.world := rfl
  have hlookups : (m.loader.await id callback).importLookups = m.loader.importLookups := rfl
  rw [surplus_eq, surplus_eq, Loader.surplus, Loader.surplus, update, hworld, hlookups]
  rw [← Loader.await] at hwaiting
  dsimp only
  omega

theorem accounts_loadDependencies (m : Machine ω χ) (id : UnitId)
    (callback : Option (Callback ω))
    (hknown : (∃ s, m.loader.standing? id = some s) ∨
      callback.toList.countP Callback.isImport = 0) :
    m.Accounts p depth (callback.toList.countP Callback.isImport)
      (m.loadDependencies p id callback) := by
  cases hs : m.loader.standing? id with
  | none =>
    rw [loadDependencies_unknown p hs, hknown.resolve_left (by simp [hs])]
    exact .refl m
  | some s =>
    have hawaited : m.Accounts p depth _ _ := accounts_await m hs callback
    rw [loadDependencies_eq p hs]
    cases s.status with
    | loaded =>
      cases callback with
      | none => exact .refl m
      | some callback =>
        have := Accounts.after_level (n := m.update (·.record (.delivered id)))
          (.of_units rfl rfl rfl) rfl (accounts_callBack hp _ id callback)
        cases callback <;> exact this
    | loading => exact hawaited
    | unloaded =>
      dsimp only
      split
      case isTrue => exact accounts_endImports hp m _
      case isFalse =>
        have hbegun : (m.update (·.await id callback)).Accounts p depth 0
            (m.update (·.beginWave id callback)) := .of_level (.of_units rfl rfl rfl) rfl
        have := (hawaited.trans hbegun).trans
          (.after_push .aborting (accounts_join _ id) rfl trivial)
        rwa [add_zero, add_zero] at this

omit hp in
theorem level_settleOne (l : Loader ω χ) : l.Level p depth l.settleOne.1 := by
  cases hwave : l.wave with
  | some wave =>
    rw [settleOne_eq hwave]
    exact .of_units rfl rfl rfl
  | none =>
    simp only [settleOne, record, hwave]
    exact .of_units rfl rfl rfl

omit hp in
theorem accounts_searchFinished (m : Machine ω χ) (id : UnitId) :
    m.Accounts p depth 0 (m.searchFinished id) := by
  have hsettled : m.loader.Level p depth _ := level_settleOne m.loader
  rw [searchFinished]
  dsimp only
  split
  · exact .of_level hsettled rfl
  · split
    · exact .after_level (n := m.update fun l ↦ l.settleOne.1) hsettled rfl (accounts_join _ id)
    · split
      · exact .after_level (n := m.update fun l ↦ l.settleOne.1) hsettled rfl (accounts_closeWave _)
      · exact .of_level hsettled rfl

theorem accounts_continueSearch (m : Machine ω χ) {id : UnitId}
    (hknown : ∃ s, m.loader.standing? id = some s) (purpose : Purpose ω) :
    m.Accounts p depth (if purpose.isImport then 1 else 0) (m.continueSearch p id purpose) := by
  cases purpose with
  | wave => exact accounts_searchFinished m id
  | importing deliver =>
    exact accounts_loadDependencies hp m id (some (.importing deliver)) (.inl hknown)

theorem accounts_failSearch (m : Machine ω χ) (purpose : Purpose ω) (error : LoaderError) :
    m.Accounts p depth (if purpose.isImport then 1 else 0) (m.failSearch p purpose error) := by
  cases purpose with
  | wave => exact accounts_endImports hp m 0
  | importing deliver => exact accounts_endImports hp m 1

omit hp in
theorem depth_start (hp : p.Meters depth) (world : ω) (request : Request) :
    depth (p.resolver.start world request).1 = depth world := by
  cases request with
  | resolve url substitutions => exact hp.resolve world url substitutions
  | search locator => exact hp.search world locator

theorem accounts_enlist (m : Machine ω χ) (request : Request) {lookup : Lookup ω} :
    m.Accounts p depth (if lookup.purpose.isImport then 1 else 0)
      (m.update (·.enlist (p.resolver.start m.loader.world request).1 request lookup)) := by
  intro hfit
  refine ⟨hfit, ?_⟩
  have hlookups : (m.loader.enlist (p.resolver.start m.loader.world request).1 request
      lookup).importLookups
        = m.loader.importLookups + if lookup.purpose.isImport then 1 else 0 := by
    rw [importLookups, enlist, record, List.countP_append, List.countP_singleton, importLookups]
  rw [surplus_eq, surplus_eq, Loader.surplus, Loader.surplus, update, hlookups]
  have hworld : depth (m.loader.enlist (p.resolver.start m.loader.world request).1 request
      lookup).world = depth m.loader.world := depth_start hp _ _
  have hwaiting : (m.loader.enlist (p.resolver.start m.loader.world request).1 request
      lookup).waitingImports = m.loader.waitingImports := rfl
  rw [hworld, hwaiting]
  dsimp only
  split <;> push_cast <;> ring

theorem accounts_search (m : Machine ω χ) (htidy : m.loader.Tidy) (searcher : Operation)
    (reference : Reference) (origin : Option Url) (purpose : Purpose ω) :
    m.Accounts p depth (if purpose.isImport then 1 else 0)
      (m.search p searcher reference origin purpose) := by
  rcases search_cases p m searcher reference origin purpose with
    ⟨id, hresult, heq⟩ | ⟨-, ⟨cause, -, heq⟩ | ⟨request, -, heq⟩⟩
  all_goals rw [heq]
  · exact accounts_continueSearch hp m (htidy.result hresult) purpose
  · exact accounts_failSearch hp m purpose _
  · exact accounts_enlist hp m request

theorem accounts_continueDispatching (m : Machine ω χ) (htidy : m.loader.Tidy) (id : UnitId)
    (searcher : Operation) (rest : List Reference) :
    m.Accounts p depth 0 (m.continueDispatching p id searcher rest) := by
  cases rest with
  | nil => exact .refl m
  | cons reference rest =>
    refine .after_push (.dispatching id searcher rest) ?_ rfl trivial
    have hsettled : m.loader.Level p depth _ := level_settleOne m.loader
    rw [continueDispatching]
    dsimp only
    split
    · split
      · exact .after_level (n := (m.push (.dispatching id searcher rest)).update
          fun l ↦ l.settleOne.1) hsettled rfl (accounts_closeWave _)
      · exact .of_level hsettled rfl
    · have hasked : (m.loader.ask (reference.key searcher.context.text)).Tidy :=
        htidy.congr rfl (by simp [Loader.ask, record]) (by simp [Loader.ask, record])
          (by simp [Loader.ask, record])
      exact .after_level (n := (m.push (.dispatching id searcher rest)).update (·.ask _))
        (.of_units rfl rfl rfl) rfl (accounts_search hp _ hasked searcher reference _ .wave)

/-- An import enables caching and accounts for that. -/
theorem accounts_importFile (m : Machine ω χ) (htidy : m.loader.Tidy) (importer : Operation)
    (reference : Reference) (deliver : Option (Outcome → Code ω)) :
    m.Accounts p depth 0 (m.importFile p importer reference deliver) := by
  have henabled : m.Accounts p depth (-1) (m.update (·.touch p.resolver.enableCaching)) := by
    intro hfit
    refine ⟨hfit, ?_⟩
    have hdepth := hp.enable m.loader.world
    have himports : (m.update (·.touch p.resolver.enableCaching)).imports = m.imports := rfl
    rw [surplus, surplus, himports]
    change depth (p.resolver.enableCaching m.loader.world) - _ = _
    rw [hdepth]
    ring
  have hquiet := (m.loader.quiet_world (p.resolver.enableCaching m.loader.world)).trans
    (quiet_operation _ .searcher importer.context)
  have hbound : (m.update (·.touch p.resolver.enableCaching)).Accounts p depth 0
      (m.update fun l ↦ ((l.touch p.resolver.enableCaching).operation .searcher
        importer.context).1) := .of_level (level_operation _ .searcher importer.context) rfl
  have hsearched (searcher : Operation) (origin : Option Url) :=
    (henabled.trans hbound).trans (accounts_search hp (m.update fun l ↦
      ((l.touch p.resolver.enableCaching).operation .searcher importer.context).1)
        (htidy.quiet hquiet) searcher reference origin (.importing deliver))
  exact hsearched _ _

/-! ## Completing -/

theorem accounts_completeLookup (m : Machine ω χ) (htidy : m.loader.Tidy) (lookup : Lookup ω) :
    m.Accounts p depth (if lookup.purpose.isImport then 1 else 0)
      (m.completeLookup p lookup) := by
  have hanswer := hp.answer m.loader.world lookup.ticket
  rw [completeLookup]
  rcases hanswered : p.resolver.answer m.loader.world lookup.ticket with ⟨world, answer⟩
  rw [hanswered] at hanswer
  obtain ⟨events, hnoted, -⟩ := noteFound_eq { m.loader with world } lookup.key answer
  have htidy' := htidy.noteFound world lookup.key answer
  have hlevel : m.loader.Level p depth ({ m.loader with world }.noteFound lookup.key answer) := by
    rw [hnoted]
    exact .of_units rfl rfl hanswer
  have hmade := hlevel.trans
    ((strokes_unitOfAnswer p _ lookup.locator lookup.origin answer).level hp)
  have hquiet := quiet_unitOfAnswer p ({ m.loader with world }.noteFound lookup.key answer)
    lookup.locator lookup.origin answer
  dsimp only
  rcases hunit : ({ m.loader with world }.noteFound lookup.key answer).unitOfAnswer p
    lookup.locator lookup.origin answer with ⟨l, e | id⟩
  all_goals
    rw [hunit] at hmade hquiet
    simp only [hunit]
  · exact .after_level (n := m.update fun _ ↦ l) hmade rfl (accounts_failSearch hp _ _ e)
  · obtain ⟨resource, -, hid⟩ := exists_of_unitOfAnswer p (congrArg Prod.snd hunit)
    rw [hunit] at hid
    obtain ⟨s, hs, -⟩ := (htidy'.quiet hquiet).unit hid
    exact .after_level (n := m.update fun _ ↦
      { l with cache := l.cache.insertResult lookup.key id }) (hmade.trans (.of_units rfl rfl rfl))
      rfl (accounts_continueSearch hp _ ⟨s, hs⟩ lookup.purpose)

omit hp in
/-- A lookup that is taken leaves an import in hand, if it was for one. -/
theorem accounts_leave (m : Machine ω χ) {world : ω} (hworld : depth world = depth m.loader.world)
    {before after : List (Lookup ω)} {lookup : Lookup ω}
    (hsplit : m.loader.lookups = before ++ lookup :: after) :
    m.Accounts p depth (-if lookup.purpose.isImport then 1 else 0)
      (m.update (·.leave world (before ++ after))) := by
  intro hfit
  refine ⟨hfit, ?_⟩
  have hlookups : m.loader.importLookups
      = (m.loader.leave world (before ++ after)).importLookups
        + if lookup.purpose.isImport then 1 else 0 := by
    rw [importLookups, hsplit, importLookups, leave, List.countP_append, List.countP_cons,
      List.countP_append, Nat.add_assoc]
  have hwaiting : (m.loader.leave world (before ++ after)).waitingImports
      = m.loader.waitingImports := rfl
  rw [surplus_eq, surplus_eq, Loader.surplus, Loader.surplus, update, hlookups, hwaiting]
  change depth world - _ - _ - _ = _
  rw [hworld]
  dsimp only
  split <;> push_cast <;> ring

/-- Asking for the next lookup accounts for nothing when none is picked. -/
theorem accounts_drive_stalled (m : Machine ω χ) (next : Awaited Unit → Code ω)
    (h : ∀ lookup ∈ m.loader.lookups,
      (p.resolver.next? m.loader.world (m.loader.lookups.map (·.ticket))).2
        ≠ some lookup.ticket) : m.Accounts p depth 0 (m.drive p next) := by
  have hnext := hp.next m.loader.world (m.loader.lookups.map (·.ticket))
  rw [drive]
  split
  · exact .refl m
  · rcases hpicked : p.resolver.next? m.loader.world (m.loader.lookups.map (·.ticket)) with
      ⟨world, ticket⟩
    rw [hpicked] at h hnext
    have hnone : (ticket.bind fun ticket ↦ m.loader.lookups.find? (·.ticket = ticket)) = none := by
      cases ticket with
      | none => rfl
      | some ticket =>
        refine List.find?_eq_none.mpr fun lookup hlookup hticket ↦ ?_
        exact h lookup hlookup (congrArg some (of_decide_eq_true hticket)).symm
    simp only [hpicked, hnone]
    exact .of_level (.of_units rfl rfl hnext) rfl

theorem accounts_drive (m : Machine ω χ) (htidy : m.loader.Tidy)
    (next : Awaited Unit → Code ω) : m.Accounts p depth 0 (m.drive p next) := by
  have hnext := hp.next m.loader.world (m.loader.lookups.map (·.ticket))
  rcases drive_cases p m next with
    ⟨-, heq⟩ | ⟨world, hpicked, -⟩ | ⟨world, before, lookup, after, hworld, hsplit, heq⟩
  · rw [heq]
    exact .refl m
  · exact accounts_drive_stalled hp m next hpicked
  · rw [hworld] at hnext
    rw [heq]
    have htaken := accounts_leave (p := p) m hnext hsplit
    have hleft : (m.loader.leave world (before ++ after)).Tidy := htidy.congr rfl rfl rfl rfl
    have := htaken.trans (.after_push (.driving next)
      (accounts_completeLookup hp ((m.update (·.leave world (before ++ after))).push
        (.driving next)) hleft lookup) rfl trivial)
    rwa [neg_add_cancel] at this

/-! ## Dropping -/

theorem level_dropLookups (l : Loader ω χ) : l.Level p depth (l.dropLookups p) where
  surplus := by
    have hdepth := depth_endImports hp (({ l with lookups := [] } : Loader ω χ).touch fun world ↦
      p.resolver.cancel world (l.lookups.map fun lookup ↦ lookup.ticket)) l.importLookups
    have hcancel := hp.cancel l.world (l.lookups.map (·.ticket))
    have hworld : depth (l.dropLookups p).world = depth l.world - l.importLookups :=
      hdepth.trans (congrArg (· - (l.importLookups : Int)) hcancel)
    have hnone : (l.dropLookups p).importLookups = 0 := rfl
    have hwaiting : (l.dropLookups p).waitingImports = l.waitingImports := rfl
    rw [Loader.surplus, Loader.surplus, hworld, hnone, hwaiting, Nat.cast_zero, sub_zero]
  fit h := h

theorem level_abort (l : Loader ω χ) (error : LoaderError) :
    l.Level p depth (l.abort p error) := by
  rw [abort]
  split
  · have hleft : l.Level p depth { l.record (.aborted error) with wave := none } :=
      .of_units rfl rfl rfl
    exact hleft.trans (level_dropLookups hp _)
  · have hleft : l.Level p depth { l with wave := none } := .of_units rfl rfl rfl
    exact hleft.trans (level_dropLookups hp _)

theorem level_release (l : Loader ω χ) : l.Level p depth (l.release p) := by
  have hleft : l.Level p depth { l.record .released with wave := none, released := true } :=
    .of_units rfl rfl rfl
  exact hleft.trans (level_dropLookups hp _)

/-! ## Closing -/

omit hp in
theorem accounts_take (m : Machine ω χ) (id : UnitId) :
    m.Accounts p depth (-((m.loader.queue id).countP Callback.isImport))
      (m.update (·.modifyUnit id fun unit ↦ { unit with callbacks := [] })) := by
  intro ⟨hfit, hsuits⟩
  refine ⟨⟨allFit_modifyCallbacks hfit id fun _ ↦ [], hsuits⟩, ?_⟩
  have hwaiting : (m.loader.modifyUnit id fun unit ↦ { unit with callbacks := [] }).waitingImports
      + (m.loader.queue id).countP Callback.isImport = m.loader.waitingImports := by
    cases hs : m.loader.standing? id with
    | some s =>
      rw [queue_of_standing? hs]
      exact waitingImports_modifyCallbacks hs fun _ ↦ []
    | none =>
      have hlength := List.getElem?_eq_none_iff.mp (standing?_eq_none.mp hs)
      rw [queue_of_unknown hs, modifyUnit, List.modify_eq_self hlength]
      rfl
  have hlookups : (m.loader.modifyUnit id fun unit ↦
      { unit with callbacks := [] }).importLookups = m.loader.importLookups := rfl
  rw [surplus_eq, surplus_eq, Loader.surplus, Loader.surplus, update, hlookups, ← hwaiting]
  change depth m.loader.world - _ - _ - _ = _
  dsimp only
  push_cast
  ring

theorem accounts_continueDraining (m : Machine ω χ) (id : UnitId) (callbacks : List (Callback ω))
    (rest : List UnitId) :
    m.Accounts p depth (callbacks.countP Callback.isImport)
      (m.continueDraining id callbacks rest) := by
  cases callbacks with
  | cons callback callbacks =>
    have hpushed : m.Accounts p depth _ _ :=
      accounts_push m (.draining id callbacks rest) trivial
    have hcalled := hpushed.trans (.after_level (n := (m.push (.draining id callbacks rest)).update
      (·.record (.delivered id))) (.of_units rfl rfl rfl) rfl (accounts_callBack hp _ id callback))
    rw [List.countP_cons]
    push_cast
    exact hcalled
  | nil =>
    cases rest with
    | nil => exact .refl m
    | cons next rest =>
      have htaken : m.Accounts p depth _ _ := accounts_take m next
      have := htaken.trans
        (accounts_push _ (.draining next (m.loader.queue next) rest) trivial)
      rw [Frame.imports, neg_add_cancel] at this
      exact this

/-! ## Steps -/

omit hp in
theorem accounts_pop {m : Machine ω χ} {frame : Frame ω χ} {base : List (Frame ω χ)}
    (hs : m.stack = frame :: base) :
    m.Accounts p depth (-frame.imports) { m with stack := base } := by
  intro ⟨hfit, hsuits⟩
  refine ⟨⟨hfit, fun frame hframe ↦ hsuits frame (hs ▸ List.mem_cons_of_mem _ hframe)⟩, ?_⟩
  rw [surplus_eq, surplus_eq, hs, List.map_cons, List.sum_cons]
  push_cast
  ring

/-- How much code outside the loader changes the depth in the next step. -/
def outsideChange (depth : ω → Int) (m : Machine ω χ) : Int :=
  match m.control with
  | .running (.touch change _) => depth (change m.loader.world) - depth m.loader.world
  | _ => 0

theorem accounts_runCode (m : Machine ω χ) (htidy : m.loader.Tidy) {code : Code ω}
    (h : m.control = .running code) :
    m.Accounts p depth (-m.outsideChange depth) (m.runCode p code) := by
  -- only code that changes the world can change the depth
  by_cases htouch : ∃ change next, code = .touch change next
  · obtain ⟨change, next, rfl⟩ := htouch
    intro hfit
    refine ⟨hfit, ?_⟩
    have himports : (m.runCode p (.touch change next)).imports = m.imports := rfl
    rw [surplus, surplus, himports, outsideChange, h]
    change depth (change m.loader.world) - _ = _
    ring
  have hnone : -m.outsideChange depth = 0 := by
    rw [outsideChange, h]
    cases code <;> first | rfl | exact absurd ⟨_, _, rfl⟩ htouch
  rw [hnone]
  have hcode {m' : Machine ω χ} (hlevel : m.loader.Level p depth m'.loader)
      (hstack : m'.stack = m.stack) : m.Accounts p depth 0 m' := .of_level hlevel hstack
  cases code with
  | finish outcome => exact hcode (.refl _) rfl
  | observe next => exact hcode (.refl _) rfl
  | touch change next => exact absurd ⟨_, _, rfl⟩ htouch
  | bindGlobal name value next => exact hcode (.of_units rfl rfl rfl) rfl
  | loadDependencies unit callback next =>
    have hcount : (callback.map Callback.code).toList.countP Callback.isImport = 0 := by
      cases callback <;> rfl
    have := accounts_loadDependencies hp (m.push (.resumeAfter next)) unit
      (callback.map .code) (.inr hcount)
    rw [hcount] at this
    exact .after_push (.resumeAfter next) this rfl trivial
  | drive next => exact accounts_drive hp m htidy next
  | execute unit next =>
    exact .after_push (.resume next) (accounts_execute hp _ unit) rfl trivial
  | call executer reference next =>
    rw [runCode]
    split
    · exact hcode (.refl _) rfl
    · exact .after_push (.resume next) (accounts_callReference hp _ _ _) rfl trivial
  | importFile importer reference callback next =>
    rw [runCode]
    split
    · exact hcode (.refl _) rfl
    · exact .after_push (.resumeAfter next)
        (accounts_importFile hp (m.push (.resumeAfter next)) htidy _ _ _) rfl trivial
  | openUnit url next => exact hcode ((m.loader.strokes_openUnit p url).level hp) rfl
  | createFromSource url code dependencies next =>
    exact hcode ((m.loader.strokes_createFromSource p url code dependencies).level hp) rfl
  | createFromFunction url body dependencies next =>
    exact hcode ((m.loader.strokes_createFromFunction p url body dependencies).level hp) rfl
  | createFromResource resource next =>
    exact hcode ((m.loader.strokes_unitOfResource p resource).level hp) rfl
  | operation kind context next => exact hcode (level_operation m.loader kind context) rfl
  | reset next => exact hcode (.of_units rfl rfl rfl) rfl
  | setHost host next => exact hcode (.of_units rfl rfl rfl) rfl
  | setSubstitutions substitutions next => exact hcode (.of_units rfl rfl rfl) rfl
  | release next => exact hcode (level_release hp m.loader) rfl

theorem accounts_resume (m : Machine ω χ) (htidy : m.loader.Tidy) {frame : Frame ω χ}
    (hsuits : frame.Suits p) (outcome : Outcome) :
    m.Accounts p depth frame.imports (m.resume p frame outcome) := by
  cases frame with
  | resume next | resumeAfter next | ignoring => exact .refl m
  | calling previous => exact .of_level (.of_units rfl rfl rfl) rfl
  | compiling pass executer =>
    cases outcome with
    | ok value => exact accounts_continueCompilation hp m hsuits executer
    | error e => exact .of_level (level_leaveCompilation m.loader pass .failed trivial) rfl
  | driving next =>
    cases outcome with
    | ok value => exact accounts_drive hp m htidy next
    | error e => exact .of_level (level_abort hp m.loader e) rfl
  | dispatching id searcher rest =>
    cases outcome with
    | ok value => exact accounts_continueDispatching hp m htidy id searcher rest
    | error e => exact .refl m
  | draining id callbacks rest =>
    cases outcome with
    | ok value => exact accounts_continueDraining hp m id callbacks rest
    | error e => exact accounts_endImports hp m _
  | delivering deliver =>
    have hended := accounts_endImports hp m 1
    cases deliver with
    | none => exact hended
    | some deliver =>
      exact hended.trans (.after_push .ignoring (.refl _) rfl trivial)
  | aborting =>
    cases outcome with
    | ok value => exact .refl m
    | error e => exact .of_level (level_abort hp m.loader e) rfl

/-- **A step accounts for every import.** Only code outside the loader changes the surplus. -/
theorem accounts_step (m : Machine ω χ) (htidy : m.loader.Tidy) :
    m.Accounts p depth (-m.outsideChange depth) (m.step p) := by
  rw [step]
  split
  case h_1 hcontrol => exact accounts_runCode hp m htidy hcontrol
  case h_2 hcontrol _ =>
    rw [outsideChange, hcontrol]
    exact .refl m
  case h_3 outcome frame base hcontrol hs =>
    intro hfit
    have hsuits : frame.Suits p := hfit.2 frame (hs ▸ List.mem_cons_self)
    have := (accounts_pop hs).trans
      (accounts_resume hp { m with stack := base } htidy hsuits outcome)
    rw [outsideChange, hcontrol]
    rw [neg_add_cancel] at this
    exact this hfit

end

/-! ## Runs -/

variable {m : Machine ω χ} {earlier : List (Machine ω χ)}

/-- The depth that the code outside the loader has given caching in a run: the depth to begin with,
and all changes since that it has made itself. -/
def held (depth : ω → Int) : List (Machine ω χ) → Int
  | [] => 0
  | [m] => depth m.loader.world
  | _ :: m :: earlier => held depth (m :: earlier) + m.outsideChange depth

private theorem accounted_of_fresh {l : Loader ω χ} (h : l.IsFresh) (code : Code ω) :
    let m : Machine ω χ := { loader := l, control := .running code }
    m.AllFit p ∧ m.surplus depth = held depth [m] := by
  refine ⟨⟨by simp [Loader.AllFit, h.units], by simp⟩, ?_⟩
  simp [surplus, imports, importLookups, waitingImports, h.units, h.lookups, held]

/-- **In every run each import is accounted for.** -/
theorem History.accounted (hp : p.Meters depth) (h : History p (m :: earlier)) :
    m.AllFit p ∧ m.surplus depth = held depth (m :: earlier) := by
  generalize heq : m :: earlier = machines at h
  induction h generalizing m earlier with
  | start fresh code =>
    cases heq
    exact accounted_of_fresh fresh code
  | @step m' earlier history ih =>
    cases heq
    obtain ⟨hfit, hheld⟩ := ih rfl
    obtain ⟨hfit', hstep⟩ := accounts_step hp m' (history.reachable.sound p).tidy hfit
    exact ⟨hfit', by rw [hstep, hheld, held, sub_neg_eq_add]⟩
  | @again m' earlier _ halted code ih =>
    cases heq
    obtain ⟨hfit, hheld⟩ := ih (m := m') rfl
    obtain ⟨outcome, hcontrol, -⟩ := exists_of_isHalted halted
    have hnone : m'.outsideChange depth = 0 := by rw [outsideChange, hcontrol]
    exact ⟨hfit, by rw [held, hnone, add_zero]; exact hheld⟩

/-- With nothing on the stack and no lookup under way, imports are left only where they wait. -/
private theorem imports_eq_zero_iff (hstack : m.stack = []) (hlookups : m.loader.lookups = []) :
    m.imports = 0 ↔ ∀ id, ∀ callback ∈ m.loader.queue id, callback.isImport = false := by
  rw [imports, importLookups, hlookups, hstack, List.countP_nil, List.map_nil, List.sum_nil,
    Nat.zero_add, Nat.add_zero, waitingImports, List.sum_eq_zero_iff_forall_eq_nat,
    List.forall_mem_map]
  simp only [List.countP_eq_zero, Bool.not_eq_true]
  constructor
  · intro h id callback hcallback
    rw [queue] at hcallback
    cases hunit : m.loader.unit? id with
    | none =>
      rw [hunit] at hcallback
      cases hcallback
    | some unit =>
      rw [hunit] at hcallback
      exact h unit (List.mem_of_getElem? hunit) callback hcallback
  · intro h unit hunit callback hcallback
    obtain ⟨id, hid⟩ := List.mem_iff_getElem?.mp hunit
    refine h id callback ?_
    have : m.loader.unit? id = some unit := hid
    rw [queue, this]
    exact hcallback

/-- **Caching is released, except for imports that are left waiting.** The depth of caching is what
the code outside the loader has made it, and one more for each import that is not over. So when
nothing is on the stack and no lookup is under way, caching is as the code outside has left it if
and only if no import waits for a unit. That is so unless a wave has been dropped, or a callback of
a closed wave has failed. -/
theorem History.caching_depth (hp : p.Meters depth) (h : History p (m :: earlier)) :
    depth m.loader.world = held depth (m :: earlier) + m.imports ∧
    (m.stack = [] → m.loader.lookups = [] →
      (depth m.loader.world = held depth (m :: earlier) ↔
        ∀ id, ∀ callback ∈ m.loader.queue id, callback.isImport = false) ∧
      ((∀ e ∈ m.loader.journal, e.dropsWave = false) →
        (∀ m' ∈ earlier, m'.failsCallback = false) →
        depth m.loader.world = held depth (m :: earlier))) := by
  have hdepth : depth m.loader.world = held depth (m :: earlier) + m.imports := by
    rw [← (h.accounted hp).2, surplus]
    ring
  refine ⟨hdepth, fun hstack hlookups ↦ ?_⟩
  have hiff : depth m.loader.world = held depth (m :: earlier) ↔
      ∀ id, ∀ callback ∈ m.loader.queue id, callback.isImport = false := by
    rw [← imports_eq_zero_iff hstack hlookups, hdepth]
    omega
  refine ⟨hiff, fun hkept hfine ↦ hiff.mpr fun id callback hcallback ↦ ?_⟩
  -- when nothing has gone wrong, nothing waits at all
  have hidle : m.IsIdle := ⟨hlookups, by rw [drains, hstack]; rfl, .inl hstack⟩
  rw [queue_of_isIdle (h.delivers hkept hfine) (h.reachable.wave_of_isIdle hidle) hidle.drains id]
    at hcallback
  cases hcallback

/-- A file is imported that refers to a missing file. Its wave is dropped when the lookup of the
missing file completes, and the import is left waiting. -/
def droppedImport : List (Machine (List Request × Int) Unit) :=
  let done : Code (List Request × Int) := .finish (.ok .undefined)
  let code : Code (List Request × Int) := .operation .importer (.file "/".toList) fun importer ↦
    .importFile importer ⟨"main", true⟩ none fun _ ↦ .drive fun _ ↦ done
  prolong ((Project.orphans.platform List.head?).metered fun _ _ ↦ .finish (.ok .undefined)) 10
    [{ loader := { world := ([], 0), base := .file "/".toList }, control := .running code }]

theorem caching_depth_droppedImport :
    held Prod.snd droppedImport = 0 ∧
      ∃ m ∈ droppedImport.head?, m.isHalted = true ∧ m.loader.wave = none ∧
        m.loader.lookups = [] ∧ m.loader.world.2 = m.imports ∧ m.loader.world.2 ≠ 0 ∧
        ∃ id, ∃ callback ∈ m.loader.queue id, callback.isImport = true := by
  have hhistory : History
      ((Project.orphans.platform List.head?).metered fun _ _ ↦ .finish (.ok .undefined))
      droppedImport := (History.start (isFresh_mk _ _) _).prolong 10
  have hheld : held Prod.snd droppedImport = 0 := by decide +kernel
  have hended : (droppedImport.head?.any fun m ↦ m.isHalted && m.loader.wave.isNone &&
      m.loader.lookups.isEmpty && m.loader.world.2 != 0) = true := by decide +kernel
  generalize droppedImport = machines at hhistory hheld hended ⊢
  obtain _ | ⟨m, earlier⟩ := machines
  · cases hhistory
  simp only [List.head?_cons, Option.any_some, Bool.and_eq_true, List.isEmpty_iff, bne_iff_ne,
    Option.isNone_iff_eq_none] at hended
  obtain ⟨⟨⟨hhalted, hwave⟩, hlookups⟩, hdeep⟩ := hended
  obtain ⟨-, -, hstack⟩ := exists_of_isHalted hhalted
  obtain ⟨hdepth, hrest⟩ := History.caching_depth (Platform.meters_metered _ _) hhistory
  rw [hheld, zero_add] at hdepth
  refine ⟨hheld, m, rfl, hhalted, hwave, hlookups, hdepth, hdeep, ?_⟩
  -- caching is not as it was, so an import waits
  by_contra hnone
  refine hdeep (((hrest hstack hlookups).1.mpr fun id callback hcallback ↦ ?_).trans hheld)
  by_contra himport
  exact hnone ⟨id, callback, hcallback, by simpa using himport⟩

end Machine

end ScriptLoader
