import ScriptLoader.Proofs.Making.Hosting
import ScriptLoader.Proofs.Making.Rebuilding

/-!
# What the callables of units are

A unit that is given code is given something that can be called together with it: what the engine
returned for the function that was asked for then. From then on the unit keeps it. So what is called
of a unit with code has been built for a function that is known, and in particular with known
parameters.

`Loader.Forges` says this of a change in which functions may be asked for. Most changes are at rest:
they make nothing and leave alone what can be called.
-/

namespace ScriptLoader

variable {ω χ : Type}

namespace Loader

variable {p : Platform ω χ} {l l' l'' : Loader ω χ} {id : UnitId} {script : Script}
  {callable : Callable ω}

/-- A unit can be called. -/
structure Holds (l : Loader ω χ) (id : UnitId) (script : Script) (callable : Callable ω) :
    Prop where
  body : l.body? id = some (.ready callable)
  script : l.stock.scripts[id]? = some script

/-- What can be called of a unit that is known can be called of it afterwards, and is the same. -/
theorem Matures.holds (h : l.Matures l') (hafter : l'.Holds id script callable)
    (hscript : l.stock.scripts[id]? = some script) : l.Holds id script callable := by
  refine ⟨?_, hscript⟩
  obtain ⟨unit, hunit, hbody⟩ := Option.map_eq_some_iff.mp hafter.body
  have hsame := hafter.script
  rw [script_of_unit? hunit] at hsame
  rw [scripts_stock, ← hsame, Option.map_eq_some_iff] at hscript
  obtain ⟨old, hold, heq⟩ := hscript
  have hready : decide (old.body.stage = .ready) = decide (unit.body.stage = .ready) :=
    congrArg Script.isReady heq
  rw [hbody] at hready
  obtain ⟨known, hknown⟩ : ∃ known, old.body = .ready known := by
    cases hcases : old.body with
    | ready known => exact ⟨known, rfl⟩
    | pending | compiling | failed => rw [hcases] at hready; cases hready
  obtain ⟨body, hbody', hadvances⟩ := h (body?_of_unit? hold)
  rw [hknown] at hadvances
  rw [hadvances.eq_ready, hafter.body, Option.some.injEq] at hbody'
  rw [body?_of_unit? hold, hknown, hbody']

/-- A change in which nothing is made and no function is asked for. -/
structure Rests (l l' : Loader ω χ) : Prop where
  scripts : l'.stock.scripts = l.stock.scripts
  functions : l'.stock.functions = l.stock.functions
  matures : l.Matures l'

namespace Rests

theorem of_stock (hstock : l'.stock = l.stock) (hmatures : l.Matures l') : l.Rests l' :=
  ⟨by rw [hstock], by rw [hstock], hmatures⟩

/-- What is there is left alone, and nothing is told but of files. -/
theorem of_same (hunits : l'.units = l.units)
    (hfunctions : l'.stock.functions = l.stock.functions) : l.Rests l' where
  scripts := congrArg (List.map LoadedUnit.script) hunits
  functions := hfunctions
  matures id body hbody := ⟨body, (body?_congr hunits id).trans hbody, .refl body⟩

theorem trans (h : l.Rests l') (h' : l'.Rests l'') : l.Rests l'' :=
  ⟨h'.scripts.trans h.scripts, h'.functions.trans h.functions, h.matures.trans h'.matures⟩

theorem holds (h : l.Rests l') (hafter : l'.Holds id script callable) :
    l.Holds id script callable :=
  h.matures.holds hafter (h.scripts ▸ hafter.script)

end Rests

/-- How what can be called of units with code comes about: it was there before, or the engine has
built it for the one function that was asked for, with the parameters in force. -/
def Forges (p : Platform ω χ) (l l' : Loader ω χ) : Prop :=
  ∀ ⦃id script callable code⦄, l'.Holds id script callable → script.code = some code →
    l.Holds id script callable ∨
    ∃ world source, source = .assemble l.host (p.engine.headerLines world) script.url code
        script.sourceMap ∧
      (p.engine.synthesize world source).2 = .ok callable ∧
      l'.stock.functions = .synthesized source :: l.stock.functions

namespace Forges

theorem of_scripts (hscripts : l'.stock.scripts = l.stock.scripts) (hmatures : l.Matures l') :
    Forges p l l' :=
  fun _ _ _ _ hafter _ ↦ .inl (hmatures.holds hafter (hscripts ▸ hafter.script))

theorem of_rests (h : l.Rests l') : Forges p l l' := of_scripts h.scripts h.matures

theorem after (h : l.Rests l') (hhost : l'.host = l.host) (h' : Forges p l' l'') :
    Forges p l l'' := by
  intro id script callable code hafter hcode
  obtain hbefore | ⟨world, source, hsource, hbuilt, hasked⟩ := h' hafter hcode
  · exact .inl (h.holds hbefore)
  · rw [hhost] at hsource
    rw [h.functions] at hasked
    exact .inr ⟨world, source, hsource, hbuilt, hasked⟩

theorem before (h : Forges p l l') (h' : l'.Rests l'') : Forges p l l'' := by
  intro id script callable code hafter hcode
  rw [h'.functions]
  exact h (h'.holds hafter) hcode

end Forges

/-! ## Units that are made -/

variable (l)

theorem rests_world (world : ω) : l.Rests { l with world } := .of_same rfl rfl

/-- What is told of files concerns no function. -/
theorem rests_record {e : Event} (h : e.isFunction = false) : l.Rests (l.record e) := by
  refine .of_same rfl ?_
  rw [Machine.functions_stock, Machine.functions_stock, record, List.filter_cons_of_neg]
  simp [h]

theorem holds_of_units (hunits : l'.units = l.units) (h : l'.Holds id script callable) :
    l.Holds id script callable := by
  refine ⟨(body?_congr hunits id).symm.trans h.body, ?_⟩
  have hscript := h.script
  rwa [stock, hunits] at hscript

theorem Forges.of_units (p : Platform ω χ) (hunits : l'.units = l.units) : Forges p l l' :=
  fun _ _ _ _ hafter _ ↦ .inl (l.holds_of_units hunits hafter)

/-- A unit can be called when one is added: it could before, or it is the one that is new. -/
theorem holds_addUnit {unit : LoadedUnit ω χ} (h : (l.addUnit unit).1.Holds id script callable) :
    l.Holds id script callable ∨ script = unit.script ∧ unit.body = .ready callable := by
  have hscript := h.script
  have hbody := h.body
  rw [stock_addUnit, Stock.scripts_add] at hscript
  rcases Nat.lt_or_ge id l.units.length with hlt | hle
  · have hlength : id < l.stock.scripts.length := by simpa [stock] using hlt
    rw [List.getElem?_append_left hlength] at hscript
    have hunit : (l.addUnit unit).1.unit? id = l.unit? id := List.getElem?_append_left hlt
    rw [body?, hunit] at hbody
    exact .inl ⟨hbody, hscript⟩
  · have hlength : l.stock.scripts.length ≤ id := by simpa [stock] using hle
    rw [List.getElem?_append_right hlength, List.getElem?_singleton] at hscript
    have hunit : (l.addUnit unit).1.unit? id = [unit][id - l.units.length]? :=
      List.getElem?_append_right hle
    rw [body?, hunit, List.getElem?_singleton, ← scripts_length] at hbody
    split_ifs at hscript hbody
    exact .inr ⟨(Option.some.inj hscript).symm, Option.some.inj hbody⟩

theorem fields_of_create {url : Url} {dependencies : List Reference} {code map : Option String}
    {info : UnitInfo} (h : UnitInfo.create url dependencies code map = .ok info) :
    info.url = url ∧ info.code = code ∧ info.sourceMap = map := by
  rw [UnitInfo.create] at h
  split at h
  · cases h
  · cases h
    exact ⟨rfl, rfl, rfl⟩

/-- **A unit is made of code**, with what the engine has built for it. -/
theorem forges_createOfCode (p : Platform ω χ) (url : Url) (code : String)
    (dependencies : List Reference) (map : Option MapSource) :
    Forges p l (l.createOfCode p url code dependencies map).1 := by
  obtain ⟨embedded, world, hsynth⟩ := l.exists_synthesize p url code map
  rw [createOfCode, hsynth]
  generalize hsource : FunctionSource.assemble l.host (p.engine.headerLines l.world) url code
    embedded = source
  cases haccepted : (p.engine.synthesize l.world source).2 with
  | error e => exact .of_units l p rfl
  | ok built =>
    simp only [Except.map]
    rcases hinfo : UnitInfo.create url dependencies (some code) embedded with e | info
    · exact .of_units l p rfl
    · intro id script callable given hafter hgiven
      obtain hbefore | ⟨rfl, hbody⟩ := holds_addUnit _ hafter
      · exact .inl ⟨hbefore.body, hbefore.script⟩
      · obtain ⟨hurl, hcode, hmap⟩ := fields_of_create hinfo
        obtain rfl := Body.ready.inj hbody
        have hgiven : info.code = some given := hgiven
        rw [hcode, Option.some.injEq] at hgiven
        subst hgiven
        refine .inr ⟨l.world, source, ?_, haccepted, ?_⟩
        · rw [← hsource, ← hurl, ← hmap]
          rfl
        · rw [Machine.functions_stock, Machine.functions_stock]
          rfl

theorem forges_addUnit (p : Platform ω χ) {unit : LoadedUnit ω χ} (hcode : unit.info.code = none) :
    Forges p l (l.addUnit unit).1 := by
  intro id script callable code hafter hgiven
  obtain hbefore | ⟨rfl, -⟩ := holds_addUnit _ hafter
  · exact .inl hbefore
  · have hgiven : unit.info.code = some code := hgiven
    rw [hcode] at hgiven
    cases hgiven

theorem rests_nameUnit (url : Option Url) : l.Rests (l.nameUnit url).1 := by
  cases url <;> exact .of_same rfl rfl

theorem forges_createFromSource (p : Platform ω χ) (url : Option Url) (code : String)
    (dependencies : List Reference) :
    Forges p l (l.createFromSource p url code dependencies).1 := by
  have hnamed := l.rests_nameUnit url
  have hhost := l.host_nameUnit url
  rw [createFromSource]
  rcases h : l.nameUnit url with ⟨l', e | named⟩
  all_goals rw [h] at hnamed hhost
  · exact .of_rests hnamed
  · exact .after hnamed hhost (l'.forges_createOfCode p named code dependencies none)

theorem forges_createFromFunction (p : Platform ω χ) (url : Option Url) (callable : Callable ω)
    (dependencies : List Reference) :
    Forges p l (l.createFromFunction url callable dependencies).1 := by
  have hnamed := l.rests_nameUnit url
  have hhost := l.host_nameUnit url
  rw [createFromFunction]
  rcases h : l.nameUnit url with ⟨l', e | named⟩
  all_goals rw [h] at hnamed hhost
  · exact .of_rests hnamed
  · rcases hinfo : UnitInfo.create named dependencies none none with e | info
    all_goals simp only [hinfo]
    · exact .of_rests hnamed
    · exact .after hnamed hhost (l'.forges_addUnit p (fields_of_create hinfo).2.1)

theorem forges_createOfResource (p : Platform ω χ) (resource : Resource) :
    Forges p l (l.createOfResource p resource).1 := by
  rw [createOfResource]
  split
  · rw [createOfBundle]
    split
    · exact .of_units l p rfl
    · exact .after (l.rests_record rfl) rfl (forges_createOfCode _ p _ _ _ _)
  · split
    next compiler _ =>
      rw [createPending]
      rcases compiler.firstPass l.view resource.contents resource.url with
        ⟨world, e | ⟨dependencies, file⟩⟩
      · exact .of_units l p rfl
      · dsimp only
        rcases hinfo : UnitInfo.create resource.url dependencies none none with e | info
        · exact .of_units l p rfl
        · exact .after ((l.rests_world world).trans (rests_record _ rfl)) rfl
            (forges_addUnit _ p (fields_of_create hinfo).2.1)
    next => exact l.forges_createOfCode p _ _ _ _

theorem forges_unitOfResource (p : Platform ω χ) (resource : Resource) :
    Forges p l (l.unitOfResource p resource).1 := by
  rw [unitOfResource]
  split
  next => exact .of_rests (l.rests_record rfl)
  next =>
    have hmade := l.forges_createOfResource p resource
    rcases h : l.createOfResource p resource with ⟨l', e | id⟩
    all_goals
      rw [h] at hmade
      dsimp only
    · exact hmade.before (l'.rests_record rfl)
    · have hfiled : l'.Rests { l' with cache := l'.cache.insertUnit resource.url id } :=
        .of_same rfl rfl
      exact hmade.before (hfiled.trans (rests_record _ rfl))

theorem forges_unitOfAnswer (p : Platform ω χ) (locator : String) (origin : Option Url)
    (answer : Except LoaderError (Option Resource)) :
    Forges p l (l.unitOfAnswer p locator origin answer).1 := by
  rcases answer with error | _ | resource
  · exact .of_units l p rfl
  · exact .of_units l p rfl
  · exact l.forges_unitOfResource p resource

theorem forges_openUnit (p : Platform ω χ) (url : Url) : Forges p l (l.openUnit p url).1 := by
  rw [openUnit]
  split
  · exact .of_units l p rfl
  · obtain ⟨world, ticket⟩ := p.resolver.resolve l.world url l.substitutions
    rcases hnext : p.resolver.next? world [ticket] with ⟨world', _ | _⟩
    all_goals simp only [hnext]
    · exact .of_units l p rfl
    · have hanswered := l.rests_world (p.resolver.answer world' ticket).1
      exact .after hanswered rfl (forges_unitOfAnswer _ p _ _ _)

/-! ## Second passes -/

/-- A second pass succeeds: the engine has built the function of its code, with the parameters in
force. -/
theorem exists_of_compileUnit (p : Platform ω χ) {pass : SecondPass ω χ} {l' : Loader ω χ}
    {callable : Callable ω} (hcompiled : l.compileUnit p pass = (l', .ok callable)) :
    ∃ (l₁ : Loader ω χ) (world : ω) (source : FunctionSource) (code : String)
      (map : Option String),
      l' = l₁.modifyUnit pass.unit (fun unit ↦
        { unit with info := { unit.info with code := some code, sourceMap := map } }) ∧
      l₁.stock = l.stock.note [.synthesized source] ∧
      source = .assemble l.host (p.engine.headerLines world) pass.url code map ∧
      (p.engine.synthesize world source).2 = .ok callable := by
  rcases hleave : pass.compiler.leaveImport l.world pass.file with ⟨left, file⟩
  rcases hsecond : pass.compiler.secondPass left file with ⟨world, file', output⟩
  simp only [compileUnit, hleave, hsecond] at hcompiled
  have hbegun : ({ l with world }.record (.compiled pass.unit)).stock = l.stock :=
    stock_record _ rfl
  have hreported := (stock_report _ p pass.compiler pass.url file').trans hbegun
  have hhost := host_report p pass.compiler ({ l with world }.record (.compiled pass.unit))
    pass.url file'
  rcases hreport : ({ l with world }.record (.compiled pass.unit)).report p pass.compiler pass.url
    file' with ⟨l₀, e | _⟩
  all_goals
    rw [hreport] at hreported hhost
    simp only [hreport] at hcompiled
  · cases hcompiled
  · obtain ⟨embedded, world', hsynth⟩ := l₀.exists_synthesize p pass.url output.code
      (output.sourceMap.map MapSource.text)
    rw [hsynth] at hcompiled
    cases hbuilt : (p.engine.synthesize l₀.world (.assemble l₀.host
      (p.engine.headerLines l₀.world) pass.url output.code embedded)).2 with
    | error e => rw [hbuilt] at hcompiled; cases hcompiled
    | ok built =>
      rw [hbuilt] at hcompiled
      cases hcompiled
      refine ⟨_, l₀.world, _, output.code, embedded, rfl, ?_, by rw [hhost]; rfl, hbuilt⟩
      rw [← hreported]
      exact stock_record_making _ rfl

/-- **A second pass is run**, and the unit can be called from then on if it succeeds. -/
theorem forges_compileUnit (p : Platform ω χ) {pass : SecondPass ω χ}
    (hbody : l.body? pass.unit = some .compiling) (hnamed : l.stock.Names pass.unit pass.url)
    {l' : Loader ω χ} {callable : Callable ω}
    (hcompiled : l.compileUnit p pass = (l', .ok callable)) :
    Forges p l (l'.setBody pass.unit (.ready callable)) := by
  have hretains := l.retains_compileUnit p pass
  rw [hcompiled] at hretains
  have hcompiling : l'.body? pass.unit = some .compiling := hretains.spares.bodies hbody
  have hran : l.Matures l' := fun _ body hbody ↦ ⟨body, hretains.spares.bodies hbody, .refl body⟩
  have hmatures := hran.trans (.setBody hcompiling (.succeed callable))
  obtain ⟨l₁, world, source, code, map, rfl, hstock, hsource, hbuilt⟩ :=
    l.exists_of_compileUnit p hcompiled
  obtain ⟨old, hold, hurl⟩ := hnamed
  have hold₁ : l₁.stock.scripts[pass.unit]? = some old := by rwa [hstock]
  have hready := stock_setBody_ready l₁ hold₁ code map callable
  intro id script called given hafter hgiven
  have hscript := hafter.script
  rw [hready, hstock, List.getElem?_set] at hscript
  by_cases hid : pass.unit = id
  · subst hid
    have hlt : pass.unit < l.stock.scripts.length := (List.getElem?_eq_some_iff.mp hold).1
    have hbody' := hafter.body
    rw [body?_setBody, hcompiling, Option.map_some, if_pos rfl, Option.some.injEq] at hbody'
    rw [if_pos rfl, Stock.note, if_pos hlt, Option.some.injEq] at hscript
    cases hbody'
    subst hscript
    cases hgiven
    refine .inr ⟨world, source, hurl ▸ hsource, hbuilt, ?_⟩
    rw [hready, hstock]
    rfl
  · rw [if_neg hid] at hscript
    exact .inl (hmatures.holds hafter hscript)

end Loader

namespace Machine

open Loader

variable {m m' : Machine ω χ} (p : Platform ω χ)

theorem rests_of_leads (hnests : m.loader.Nests m.underway) (h : m.Leads m') :
    m.loader.Rests m'.loader :=
  .of_stock (Idles.of_leads h).stock ((ExecutesLast.of_leads h).proceeds hnests).matures

theorem forges_completeLookup (hnests : m.loader.Nests m.underway) (lookup : Lookup ω) :
    Forges p m.loader (m.completeLookup p lookup).loader := by
  obtain ⟨world, answer, hleads⟩ := m.leads_completeLookup p lookup
  have hnoted := m.loader.shifts_noteFound world lookup.key answer
  generalize { m.loader with world }.noteFound lookup.key answer = noted at hnoted hleads
  have hrests : m.loader.Rests noted := .of_stock hnoted.stock (.of_spares hnoted.spares)
  have hforges := noted.forges_unitOfAnswer p lookup.locator lookup.origin answer
  have hmade := hnoted.retains.trans
    (noted.strokes_unitOfAnswer p lookup.locator lookup.origin answer).retains
  obtain ⟨l, e, heq, hleads⟩ | ⟨l, id, heq, hleads⟩ := hleads
  all_goals rw [heq] at hforges hmade
  · have hfailed : l.Nests m.underway := hnests.retains hmade
    exact .after hrests hnoted.inForce.1
      (hforges.before (rests_of_leads (m := { m with loader := l }) hfailed hleads))
  · let found : Machine ω χ :=
      { m with loader := { l with cache := l.cache.insertResult lookup.key id } }
    have hfound : found.loader.Nests found.underway :=
      hnests.retains (hmade.trans (retains_of_same _ rfl rfl))
    have hremembered : l.Rests found.loader := .of_same rfl rfl
    exact .after hrests hnoted.inForce.1
      (hforges.before (hremembered.trans (rests_of_leads hfound hleads)))

theorem forges_drive (hnests : m.loader.Nests m.underway) (next : Awaited Unit → Code ω) :
    Forges p m.loader (m.drive p next).loader := by
  obtain hshifts | ⟨n, lookup, hshifts, heq⟩ := m.leads_drive p next
  · exact .of_rests (rests_of_leads hnests (.shifts hshifts))
  · rw [heq]
    have hbegun : n.loader.Nests n.underway := by
      rw [hshifts.underway]
      exact hnests.retains hshifts.loader.retains
    exact .after (rests_of_leads hnests (.shifts hshifts)) hshifts.loader.inForce.1
      (forges_completeLookup p hbegun lookup)

theorem forges_runCode (hnests : m.loader.Nests m.underway) (code : Code ω) :
    Forges p m.loader (m.runCode p code).loader := by
  cases code with
  | drive next => exact forges_drive p hnests next
  | openUnit url next => exact m.loader.forges_openUnit p url
  | createFromSource url code dependencies next =>
    exact m.loader.forges_createFromSource p url code dependencies
  | createFromFunction url body dependencies next =>
    exact m.loader.forges_createFromFunction p url body dependencies
  | createFromResource resource next => exact m.loader.forges_unitOfResource p resource
  | reset | setHost => exact .of_units _ p rfl
  | _ => exact .of_rests (rests_of_leads hnests (m.leads_runCode p rfl))

theorem forges_continueCompilation {pass : SecondPass ω χ} {executer : Operation}
    (hbody : m.loader.body? pass.unit = some .compiling)
    (hnamed : m.loader.stock.Names pass.unit pass.url)
    (hmatures : m.loader.Matures (m.continueCompilation p pass executer).loader) :
    Forges p m.loader (m.continueCompilation p pass executer).loader := by
  cases hrest : pass.rest with
  | cons reference rest =>
    refine .of_scripts (congrArg Stock.scripts ?_) hmatures
    rw [continueCompilation, hrest]
    exact (Idles.of_leads (leads_callReference _ executer reference)).stock
  | nil =>
    rw [continueCompilation, hrest] at hmatures ⊢
    have hcompiles := m.loader.compiles_compileUnit p pass
    have hretains := m.loader.retains_compileUnit p pass
    rcases hcompiled : m.loader.compileUnit p pass with ⟨l, error | callable⟩
    all_goals
      rw [hcompiled] at hcompiles hretains
      rw [hcompiled] at hmatures
      dsimp only at hmatures ⊢
    · cases hcompiles with
      | failed functions _ _ hstock =>
        have hfailed := l.stock_setBody .failed (hretains.spares.bodies hbody)
          (by simp [Body.stage]) (by simp [Body.stage])
        have hscripts := congrArg Stock.scripts (hfailed.trans hstock)
        rw [Stock.scripts_note] at hscripts
        exact .of_scripts hscripts hmatures
    · let ended := leaveCompilation { m with loader := l } pass (.ready callable)
      have hforges := m.loader.forges_compileUnit p hbody hnamed hcompiled
      have hcalled : ended.loader.Rests
          (ended.callBody pass.unit pass.directory callable).loader :=
        .of_same (ended.units_callBody pass.unit pass.directory callable)
          (congrArg Stock.functions (idles_callBody ended pass.unit pass.directory callable).stock)
      have hended : Rests (l.setBody pass.unit (.ready callable)) ended.loader := .of_same rfl rfl
      exact hforges.before (hended.trans hcalled)

/-- **A step makes what can be called** of units with code from functions that are asked for. -/
theorem Reachable.forges (h : m.Reachable p) : Forges p m.loader (m.step p).loader := by
  have hmatures := (step_proceeds p h.nests).matures
  -- what leaves the stock alone makes nothing
  have hidle (hstock : (m.step p).loader.stock = m.loader.stock) :
      Forges p m.loader (m.step p).loader := .of_scripts (congrArg Stock.scripts hstock) hmatures
  cases hcontrol : m.control with
  | running code =>
    have heq : m.step p = m.runCode p code := by rw [Machine.step, hcontrol]
    rw [heq] at hmatures ⊢
    exact forges_runCode p h.nests code
  | returning outcome =>
    cases hs : m.stack with
    | nil => exact hidle (by rw [Machine.step, hcontrol, hs])
    | cons frame base =>
      have heq : m.step p = { m with stack := base }.resume p frame outcome := by
        rw [Machine.step, hcontrol, hs]
      rw [heq] at hmatures hidle ⊢
      have hplain (hplain : frame.isPlain = true) (hnone : Stack.underway [frame] = []) :
          Forges p m.loader (resume p { m with stack := base } frame outcome).loader := by
        obtain hleads | ⟨next, -, heq⟩ := leads_resume { m with stack := base } p hplain outcome
        · exact hidle (Idles.of_leads hleads).stock
        · have hnests : m.loader.Nests ({ m with stack := base } : Machine ω χ).underway :=
            (underway_below hs hnone).symm ▸ h.nests
          rw [heq]
          exact forges_drive (m := { m with stack := base }) p hnests next
      cases frame with
      | compiling pass executer =>
        have hunderway : m.underway = pass.unit :: Stack.underway base := by
          rw [underway, hs]
          rfl
        have hbody : m.loader.body? pass.unit = some .compiling :=
          h.nests.compiling.mpr (hunderway ▸ List.mem_cons_self)
        cases outcome with
        | ok value =>
          exact forges_continueCompilation (m := { m with stack := base }) p hbody
            (h.named (pass.unit, pass.url) (hs ▸ List.mem_cons_self)) hmatures
        | error error =>
          exact hidle (m.loader.stock_setBody .failed hbody (by simp [Body.stage])
            (by simp [Body.stage]))
      | calling previous => exact hidle rfl
      | _ => exact hplain rfl rfl

/-- **What can be called of a unit with code has been built for the unit**, of a function that was
asked for in the step in which the unit was given its code, with the parameters in force then. -/
theorem History.exists_forged {earlier : List (Machine ω χ)} (h : History p (m :: earlier))
    {id : UnitId} {script : Script} {callable : Callable ω} {code : String}
    (hholds : m.loader.Holds id script callable) (hcode : script.code = some code) :
    ∃ m₀ ∈ earlier, ∃ world source, m₀.GivesCode p id world source ∧
      source = .assemble m₀.loader.host (p.engine.headerLines world) script.url code
        script.sourceMap ∧
      (p.engine.synthesize world source).2 = .ok callable := by
  generalize heq : m :: earlier = machines at h
  induction h generalizing m earlier with
  | start fresh _ =>
    cases heq
    have hscript := hholds.script
    rw [stock, fresh.units] at hscript
    cases hscript
  | @step m' earlier' history ih =>
    cases heq
    have hreachable := history.reachable
    rcases hreachable.next_stock.origin hreachable.scripts_sound hholds.script with
      hbefore | ⟨hbefore, -⟩
    · have hmatures := (step_proceeds p hreachable.nests).matures
      obtain ⟨m₀, hm₀, hforged⟩ := ih (hmatures.holds hholds hbefore) rfl
      exact ⟨m₀, List.mem_cons_of_mem _ hm₀, hforged⟩
    · -- it had no code before, so it has been built in this step
      rcases hreachable.forges p hholds hcode with hheld | ⟨world, source, hsource, hbuilt, hasked⟩
      · rw [hbefore script hheld.script] at hcode
        cases hcode
      · rw [functions_stock, functions_stock] at hasked
        have haccepted : (p.engine.synthesize world source).2.isOk = true := by
          rw [hbuilt]
          rfl
        have hscript := hholds.script
        rw [scripts_stock, Option.map_eq_some_iff] at hscript
        obtain ⟨unit, hunit, rfl⟩ := hscript
        exact ⟨m', List.mem_cons_self, world, source,
          ⟨fun old hold ↦ hbefore _ (script_of_unit? hold),
            ⟨unit, hunit, Option.isSome_iff_exists.mpr ⟨code, hcode⟩⟩, hasked, haccepted⟩,
          hsource, hbuilt⟩
  | @again m' earlier' history _ _ ih =>
    cases heq
    obtain ⟨m₀, hm₀, hgiven⟩ := ih (m := m') ⟨hholds.body, hholds.script⟩ rfl
    exact ⟨m₀, List.mem_cons_of_mem _ hm₀, hgiven⟩

end Machine

end ScriptLoader
