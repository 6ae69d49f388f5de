import ScriptLoader.Proofs.Compiling.Nesting

/-!
# How units are made

What a loader has made is its *stock*: the code of its units, the tables that say which unit a URL
or a reference led to, and what the journal tells of files that were read, functions that were
asked for and units that were obtained. Most of what a loader does leaves the stock alone.

The stock changes in a few ways only, `Stock.Next`. A file leads to the unit of its URL, or to a new
unit, or to none; a unit is made of code or of a function; a second pass gives a unit its code; all
that is remembered is forgotten. A unit that is given code is given it together with a function that
the engine has built of the same code, and that is all there is to know of where code comes from.
-/

namespace ScriptLoader

variable {ω χ : Type}

/-- Whether an event tells how units are made, or that they were forgotten. -/
def Event.isMaking : Event → Bool
  | read _ | obtained .. | refused _ | synthesized _ | reset => true
  | _ => false

theorem Event.isMaking_of_isShift {e : Event} (h : e.isShift = true) : e.isMaking = false := by
  cases e <;> first | rfl | cases h

/-- Whether an event is that a function was asked for. -/
def Event.isFunction : Event → Bool
  | synthesized _ => true
  | _ => false

/-- What of a unit its making decides. -/
structure Script where
  url : Url
  code : Option String
  sourceMap : Option String
  /-- Whether the unit can be called. -/
  isReady : Bool
  deriving DecidableEq

def LoadedUnit.script (unit : LoadedUnit ω χ) : Script :=
  ⟨unit.info.url, unit.info.code, unit.info.sourceMap, unit.body.stage = .ready⟩

def Script.IsLocated (script : Script) : Prop := ∃ directory, script.url.directory = .ok directory

/-- What a loader has made, and what is remembered of it. -/
structure Stock where
  scripts : List Script
  units : Table Url UnitId
  results : Table String UnitId
  log : List Event

namespace Stock

def note (s : Stock) (events : List Event) : Stock := { s with log := events ++ s.log }

def add (s : Stock) (script : Script) : Stock := { s with scripts := s.scripts ++ [script] }

/-- A stock in which a URL has a unit. -/
def file (s : Stock) (url : Url) (id : UnitId) : Stock :=
  { s with units := s.units.insert url id }

/-- A stock in which a reference, if it was one, has led to a unit. -/
def learn (s : Stock) (id : UnitId) : Option String → Stock
  | some key => { s with results := s.results.insert key id }
  | none => s

def Names (s : Stock) (id : UnitId) (url : Url) : Prop :=
  ∃ script, s.scripts[id]? = some script ∧ script.url = url

variable (s : Stock) (events : List Event) (script : Script) (id : UnitId) (key : Option String)

@[simp] theorem scripts_note : (s.note events).scripts = s.scripts := rfl
@[simp] theorem units_note : (s.note events).units = s.units := rfl
@[simp] theorem results_note : (s.note events).results = s.results := rfl
@[simp] theorem log_note : (s.note events).log = events ++ s.log := rfl
@[simp] theorem scripts_add : (s.add script).scripts = s.scripts ++ [script] := rfl
@[simp] theorem units_add : (s.add script).units = s.units := rfl
@[simp] theorem results_add : (s.add script).results = s.results := rfl
@[simp] theorem log_add : (s.add script).log = s.log := rfl
@[simp] theorem scripts_file (url : Url) : (s.file url id).scripts = s.scripts := rfl
@[simp] theorem units_file (url : Url) : (s.file url id).units = s.units.insert url id := rfl
@[simp] theorem results_file (url : Url) : (s.file url id).results = s.results := rfl
@[simp] theorem log_file (url : Url) : (s.file url id).log = s.log := rfl
@[simp] theorem scripts_learn : (s.learn id key).scripts = s.scripts := by cases key <;> rfl
@[simp] theorem units_learn : (s.learn id key).units = s.units := by cases key <;> rfl
@[simp] theorem log_learn : (s.learn id key).log = s.log := by cases key <;> rfl

theorem note_append (more : List Event) : s.note (more ++ events) = (s.note events).note more := by
  rw [note, note, note, List.append_assoc]

end Stock

namespace Loader

def stock (l : Loader ω χ) : Stock where
  scripts := l.units.map LoadedUnit.script
  units := l.cache.units
  results := l.cache.results
  log := l.journal.filter Event.isMaking

variable {l l' : Loader ω χ}

theorem scripts_stock (id : UnitId) :
    l.stock.scripts[id]? = (l.unit? id).map LoadedUnit.script :=
  List.getElem?_map

theorem script_of_unit? {id : UnitId} {unit : LoadedUnit ω χ} (h : l.unit? id = some unit) :
    l.stock.scripts[id]? = some unit.script := by
  rw [scripts_stock, h, Option.map_some]

/-! ## What leaves the stock alone -/

/-- The stock is the same if the scripts and the tables are, and nothing is told of what is made. -/
theorem stock_eq (hscripts : l'.units.map LoadedUnit.script = l.units.map LoadedUnit.script)
    (hunits : l'.cache.units = l.cache.units) (hresults : l'.cache.results = l.cache.results)
    (hjournal : ∃ events, l'.journal = events ++ l.journal ∧ ∀ e ∈ events, e.isMaking = false) :
    l'.stock = l.stock := by
  obtain ⟨events, heq, hevents⟩ := hjournal
  have hnone : events.filter Event.isMaking = [] :=
    List.filter_eq_nil_iff.mpr fun e he ↦ by simp [hevents e he]
  rw [stock, stock, hscripts, hunits, hresults, heq, List.filter_append, hnone, List.nil_append]

theorem map_script_modify (units : List (LoadedUnit ω χ)) (id : UnitId)
    {change : LoadedUnit ω χ → LoadedUnit ω χ}
    (h : ∀ unit, units[id]? = some unit → (change unit).script = unit.script) :
    (units.modify id change).map LoadedUnit.script = units.map LoadedUnit.script := by
  refine List.ext_getElem? fun other ↦ ?_
  rw [List.getElem?_map, List.getElem?_map, List.getElem?_modify]
  cases hunit : units[other]? with
  | none => rfl
  | some unit =>
    by_cases hid : id = other
    · subst hid
      simp [h unit hunit]
    · simp [hid]

variable (l)

theorem stock_record {e : Event} (h : e.isMaking = false) : (l.record e).stock = l.stock :=
  stock_eq rfl rfl rfl ⟨[e], rfl, by simpa using h⟩

/-- What is told of the making of units is told by the stock. -/
theorem stock_record_making {e : Event} (h : e.isMaking = true) :
    (l.record e).stock = l.stock.note [e] := by
  rw [stock, record, List.filter_cons_of_pos h]
  rfl

theorem stock_modifyUnit (id : UnitId) {change : LoadedUnit ω χ → LoadedUnit ω χ}
    (h : ∀ unit, l.unit? id = some unit → (change unit).script = unit.script) :
    (l.modifyUnit id change).stock = l.stock :=
  stock_eq (map_script_modify l.units id h) rfl rfl ⟨[], rfl, by simp⟩

/-- A body may change that could not be called and cannot be now. -/
theorem stock_setBody {id : UnitId} {old : Body ω χ} (body : Body ω χ)
    (hold : l.body? id = some old) (hunready : old.stage ≠ .ready) (hbody : body.stage ≠ .ready) :
    (l.setBody id body).stock = l.stock := by
  refine l.stock_modifyUnit id fun unit hunit ↦ ?_
  rw [body?_of_unit? hunit, Option.some.injEq] at hold
  simp [LoadedUnit.script, hold, hunready, hbody]

theorem stock_operation (kind : OperationKind) (context : Url) :
    (l.operation kind context).1.stock = l.stock := by
  rw [operation]
  split <;> rfl

theorem Shifts.stock (h : l.Shifts l') : l'.stock = l.stock := by
  refine h.congr fun {l l'} hshift ↦ ?_
  cases hshift with
  | aside => rfl
  | record hshift => exact l.stock_record (Event.isMaking_of_isShift hshift)
  | status | callbacks => exact l.stock_modifyUnit _ fun _ _ ↦ rfl
  | mark key =>
    exact stock_eq rfl (ResolutionCache.units_mark _ _) (ResolutionCache.results_mark _ _)
      ⟨[], rfl, by simp⟩
  | operation kind context => exact l.stock_operation kind context

variable (p : Platform ω χ)

theorem stock_report (compiler : Compiler ω χ) (url : Url) (file : χ) :
    (l.report p compiler url file).1.stock = l.stock := by
  obtain ⟨world, heq⟩ := l.exists_report p compiler url file
  rw [heq]
  rfl

end Loader

/-! ## What changes the stock -/

section

variable (p : Platform ω χ) (host : HostBindings)

/-- What a unit is when it is made, and the functions that are asked for then: none for a unit that
awaits its second pass and for one that is made of a function, and otherwise the one function that
the engine has built of the code. -/
inductive Script.Built : Script → List Event → Prop
  | pending (url : Url) : Built ⟨url, none, none, false⟩ []
  | callable (url : Url) : Built ⟨url, none, none, true⟩ []
  | code {url : Url} {code : String} {map : Option String} {world : ω}
      (accepted : (p.engine.synthesize world
        (.assemble host (p.engine.headerLines world) url code map)).2.isOk = true) :
      Built ⟨url, some code, map, true⟩
        [.synthesized (.assemble host (p.engine.headerLines world) url code map)]

/-- What may become of a stock in one step, for a loader with some further parameters. -/
inductive Stock.Next (s : Stock) : Stock → Prop
  | same : Next s s
  /-- All that is remembered is forgotten. -/
  | forget : Next s ({ s with units := {}, results := {} }.note [.reset])
  /-- A file is found whose URL has a unit. -/
  | revisit {url id} (key : Option String) (known : s.units.get? url = some id) :
      Next s ((s.note [.obtained url id]).learn id key)
  /-- A file is found of which no unit can be made. -/
  | refuse {url functions reads} (unknown : s.units.get? url = none)
      (functions_only : ∀ e ∈ functions, e.isFunction = true) (read : ∀ e ∈ reads, e = .read url) :
      Next s (s.note (.refused url :: functions ++ reads))
  /-- A file is found of which a unit is made. -/
  | file {script functions reads} (key : Option String)
      (unknown : s.units.get? script.url = none) (located : script.IsLocated)
      (built : script.Built p host functions)
      (read : ∀ e ∈ reads, e = .read script.url) :
      Next s ((((s.add script).file script.url s.scripts.length).note
        (.obtained script.url s.scripts.length :: functions ++ reads)).learn s.scripts.length key)
  /-- A unit is made of code or of a function. -/
  | make {script functions} (located : script.IsLocated) (built : script.Built p host functions) :
      Next s ((s.add script).note functions)
  /-- No unit can be made, or a second pass fails. -/
  | fail {functions} (functions_only : ∀ e ∈ functions, e.isFunction = true) :
      Next s (s.note functions)
  /-- A second pass gives a unit its code. -/
  | compile {id old script functions} (known : s.scripts[id]? = some old)
      (unready : old.isReady = false) (built : script.Built p host functions)
      (code : script.code.isSome = true) (url : script.url = old.url) :
      Next s ({ s with scripts := s.scripts.set id script }.note functions)

end

namespace Loader

variable {p : Platform ω χ} {l l' : Loader ω χ} {url : Url}

section

variable (p) (l) (url)

/-- What the making of a unit comes to. -/
inductive Crafts : Loader ω χ × Except LoaderError UnitId → Prop
  | failed {l' : Loader ω χ} (functions : List Event) (error : LoaderError)
      (functions_only : ∀ e ∈ functions, e.isFunction = true)
      (stock : l'.stock = l.stock.note functions) : Crafts (l', .error error)
  | made {l' : Loader ω χ} {script : Script} {functions : List Event} (named : script.url = url)
      (located : script.IsLocated) (built : script.Built p l.host functions)
      (stock : l'.stock = (l.stock.add script).note functions) :
      Crafts (l', .ok l.stock.scripts.length)

end

theorem Crafts.of_stock {l₀ : Loader ω χ} {made : Loader ω χ × Except LoaderError UnitId}
    (h : l₀.Crafts p url made) (hstock : l₀.stock = l.stock) (hhost : l₀.host = l.host) :
    l.Crafts p url made := by
  cases h with
  | failed functions error functions_only stock =>
    rw [hstock] at stock
    exact .failed functions error functions_only stock
  | made named located built stock =>
    rw [hstock] at stock ⊢
    exact .made named located (hhost ▸ built) stock

/-- What follows when a unit is made without a file. -/
theorem Crafts.next {made : Loader ω χ × Except LoaderError UnitId} (h : l.Crafts p url made) :
    l.stock.Next p l.host made.1.stock := by
  cases h with
  | failed _ _ functions_only stock => exact stock ▸ .fail functions_only
  | made _ located built stock => exact stock ▸ .make located built

theorem stock_addUnit (l : Loader ω χ) (unit : LoadedUnit ω χ) :
    (l.addUnit unit).1.stock = l.stock.add unit.script := by
  rw [stock, addUnit, List.map_append, List.map_singleton]
  rfl

theorem scripts_length (l : Loader ω χ) : l.stock.scripts.length = l.units.length :=
  List.length_map ..

theorem crafts_addUnit {dependencies : List Reference} {code map : Option String} {info : UnitInfo}
    {body : Body ω χ} (functions : List Event) (hstock : l'.stock = l.stock.note functions)
    (hinfo : UnitInfo.create url dependencies code map = .ok info)
    (hbuilt : Script.Built p l.host ⟨url, code, map, body.stage = .ready⟩ functions) :
    l.Crafts p url ((l'.addUnit { info, body }).1, .ok (l'.addUnit { info, body }).2) := by
  obtain ⟨hscript, hlocated⟩ : ({ info, body } : LoadedUnit ω χ).script
      = ⟨url, code, map, body.stage = .ready⟩ ∧
        Script.IsLocated ⟨url, code, map, body.stage = .ready⟩ := by
    rw [UnitInfo.create] at hinfo
    split at hinfo
    case h_1 => cases hinfo
    case h_2 directory hdirectory =>
      cases hinfo
      exact ⟨rfl, directory, hdirectory⟩
  have hadded := l'.stock_addUnit { info, body }
  rw [hstock, hscript] at hadded
  have hid : (l'.addUnit { info, body }).2 = l.stock.scripts.length := by
    rw [addUnit, ← scripts_length, hstock, Stock.scripts_note]
  rw [hid]
  exact .made rfl hlocated hbuilt hadded

theorem exists_synthesize (p : Platform ω χ) (l : Loader ω χ) (url : Url) (code : String)
    (map : Option MapSource) :
    ∃ embedded world,
      let source := FunctionSource.assemble l.host (p.engine.headerLines l.world) url code embedded
      l.synthesize p url code map =
        ({ l with world }.record (.synthesized source),
          (p.engine.synthesize l.world source).2.map fun callable ↦ (callable, embedded)) :=
  ⟨_, _, rfl⟩

theorem crafts_createOfCode (p : Platform ω χ) (l : Loader ω χ) (url : Url) (code : String)
    (dependencies : List Reference) (map : Option MapSource) :
    l.Crafts p url (l.createOfCode p url code dependencies map) := by
  obtain ⟨embedded, world, hsynth⟩ := l.exists_synthesize p url code map
  rw [createOfCode, hsynth]
  generalize hsource : FunctionSource.assemble l.host (p.engine.headerLines l.world) url code
    embedded = source
  have hasked : ({ l with world }.record (.synthesized source)).stock
      = l.stock.note [.synthesized source] := stock_record_making _ rfl
  cases haccepted : (p.engine.synthesize l.world source).2 with
  | error e => exact .failed _ e (by simp [Event.isFunction]) hasked
  | ok callable =>
    simp only [Except.map]
    rcases hinfo : UnitInfo.create url dependencies (some code) embedded with e | info
    · exact .failed _ e (by simp [Event.isFunction]) hasked
    · have hbuilt : Script.Built p l.host ⟨url, some code, embedded, true⟩
          [.synthesized source] := hsource ▸ .code (by rw [hsource, haccepted]; rfl)
      exact crafts_addUnit _ hasked hinfo hbuilt

theorem stock_nameUnit (l : Loader ω χ) (url : Option Url) :
    (l.nameUnit url).1.stock = l.stock ∧ (l.nameUnit url).1.host = l.host := by
  cases url <;> exact ⟨rfl, rfl⟩

theorem next_createFromSource (p : Platform ω χ) (l : Loader ω χ) (url : Option Url)
    (code : String) (dependencies : List Reference) :
    l.stock.Next p l.host (l.createFromSource p url code dependencies).1.stock := by
  obtain ⟨hstock, hhost⟩ := l.stock_nameUnit url
  rw [createFromSource]
  rcases h : l.nameUnit url with ⟨l', e | named⟩
  all_goals rw [h] at hstock hhost
  · exact hstock ▸ .same
  · exact ((crafts_createOfCode p l' named code dependencies none).of_stock hstock hhost).next

theorem next_createFromFunction (p : Platform ω χ) (l : Loader ω χ) (url : Option Url)
    (callable : Callable ω) (dependencies : List Reference) :
    l.stock.Next p l.host (l.createFromFunction url callable dependencies).1.stock := by
  obtain ⟨hstock, -⟩ := l.stock_nameUnit url
  rw [createFromFunction]
  rcases h : l.nameUnit url with ⟨l', e | named⟩
  all_goals rw [h] at hstock
  · exact hstock ▸ .same
  · rcases hinfo : UnitInfo.create named dependencies none none with e | info
    all_goals simp only [hinfo]
    · exact hstock ▸ .same
    · exact (crafts_addUnit [] hstock hinfo (.callable named)).next

/-! ## Files -/

/-- A file is read, if it is not taken as code, and a unit is made of it. -/
theorem exists_createOfResource (p : Platform ω χ) (l : Loader ω χ) (resource : Resource) :
    ∃ (l' : Loader ω χ) (reads : List Event), l'.host = l.host ∧ l'.stock = l.stock.note reads ∧
      (∀ e ∈ reads, e = .read resource.url) ∧
      l'.Crafts p resource.url (l.createOfResource p resource) := by
  -- what fails has not been read
  have hfailed (world : ω) (error : LoaderError) :
      l.Crafts p resource.url ({ l with world }, .error error) :=
    .failed [] error (by simp) rfl
  have hread (l₀ : Loader ω χ) (hstock : l₀.stock = l.stock) :
      (l₀.record (.read resource.url)).stock = l.stock.note [.read resource.url] := by
    rw [← hstock]
    exact l₀.stock_record_making rfl
  rw [createOfResource]
  split
  · rw [createOfBundle]
    split
    case h_1 => exact ⟨l, [], rfl, rfl, by simp, hfailed l.world _⟩
    case h_2 =>
      exact ⟨l.record (.read resource.url), [.read resource.url], rfl, hread l rfl, by simp,
        crafts_createOfCode p _ _ _ _ _⟩
  · split
    case h_1 compiler _ =>
      rw [createPending]
      rcases compiler.firstPass l.view resource.contents resource.url with
        ⟨world, e | ⟨dependencies, file⟩⟩
      · exact ⟨l, [], rfl, rfl, by simp, hfailed world e⟩
      · refine ⟨{ l with world }.record (.read resource.url), [.read resource.url], rfl,
          hread { l with world } rfl, by simp, ?_⟩
        rcases hinfo : UnitInfo.create resource.url dependencies none none with e | info
        all_goals simp only [hinfo]
        · exact .failed [] e (by simp) rfl
        · exact crafts_addUnit [] rfl hinfo (.pending resource.url)
    case h_2 => exact ⟨l, [], rfl, rfl, by simp, crafts_createOfCode p l _ _ _ _⟩

/-- **A file leads to the unit of its URL, to a new unit or to none.** The unit may be remembered
for a reference as well. -/
theorem next_unitOfResource (p : Platform ω χ) (l : Loader ω χ) (resource : Resource) :
    ((∃ error, (l.unitOfResource p resource).2 = .error error) ∧
      l.stock.Next p l.host (l.unitOfResource p resource).1.stock) ∨
    ∃ id, (l.unitOfResource p resource).2 = .ok id ∧ ∀ key,
      l.stock.Next p l.host ((l.unitOfResource p resource).1.stock.learn id key) := by
  rw [unitOfResource]
  cases hknown : l.cache.unit? resource.url with
  | some id =>
    refine .inr ⟨id, rfl, fun key ↦ ?_⟩
    have hstock : (l.record (.obtained resource.url id)).stock
        = l.stock.note [.obtained resource.url id] := l.stock_record_making rfl
    rw [hstock]
    exact .revisit key hknown
  | none =>
    -- only files that are not taken as code are read, and that comes first
    obtain ⟨l₀, reads, hhost, hstock₀, hreads, hcrafts⟩ := l.exists_createOfResource p resource
    rcases h : l.createOfResource p resource with ⟨l', result⟩
    rw [h] at hcrafts
    cases hcrafts with
    | failed functions error hfunctions hstock =>
      refine .inl ⟨⟨error, rfl⟩, ?_⟩
      have hrefused : (l'.record (.refused resource.url)).stock
          = l.stock.note (.refused resource.url :: functions ++ reads) := by
        rw [stock_record_making _ rfl, hstock, hstock₀, ← Stock.note_append, ← Stock.note_append]
        rfl
      exact hrefused ▸ .refuse hknown hfunctions hreads
    | @made _ script functions hnamed hlocated hbuilt hstock =>
      refine .inr ⟨l₀.stock.scripts.length, rfl, fun key ↦ ?_⟩
      rw [← hnamed] at hknown hreads ⊢
      have hlength : l₀.stock.scripts.length = l.stock.scripts.length := by rw [hstock₀]; rfl
      have hfiled : ({ l' with
          cache := l'.cache.insertUnit script.url l.stock.scripts.length }.record
            (.obtained script.url l.stock.scripts.length)).stock
          = ((l.stock.add script).file script.url l.stock.scripts.length).note
            (.obtained script.url l.stock.scripts.length :: functions ++ reads) := by
        have hinserted : ({ l' with
            cache := l'.cache.insertUnit script.url l.stock.scripts.length } : Loader ω χ).stock
            = l'.stock.file script.url l.stock.scripts.length := rfl
        rw [stock_record_making _ rfl, hinserted, hstock, hstock₀]
        simp [Stock.note, Stock.add, Stock.file]
      rw [hlength]
      exact hfiled ▸ .file key hknown hlocated (hhost ▸ hbuilt) hreads

/-! ## Second passes -/

theorem host_report (p : Platform ω χ) (compiler : Compiler ω χ) (l : Loader ω χ) (url : Url)
    (file : χ) : (l.report p compiler url file).1.host = l.host := by
  obtain ⟨world, heq⟩ := l.exists_report p compiler url file
  rw [heq]

theorem stock_modifyUnit_set (l : Loader ω χ) {id : UnitId} {unit : LoadedUnit ω χ}
    {change : LoadedUnit ω χ → LoadedUnit ω χ} (hunit : l.unit? id = some unit) :
    (l.modifyUnit id change).stock
      = { l.stock with scripts := l.stock.scripts.set id (change unit).script } := by
  have hscripts : (l.units.modify id change).map LoadedUnit.script
      = (l.units.map LoadedUnit.script).set id (change unit).script := by
    obtain ⟨hlt, hunit⟩ := List.getElem?_eq_some_iff.mp hunit
    refine List.ext_getElem? fun other ↦ ?_
    rw [List.getElem?_map, List.getElem?_modify, List.getElem?_set, List.getElem?_map]
    by_cases hid : id = other
    · subst hid
      simp [hunit, hlt]
    · simp [hid]
  rw [stock, modifyUnit, hscripts]
  rfl

section

variable (p) (l) (pass : SecondPass ω χ)

/-- What a second pass comes to. -/
inductive Compiles : Loader ω χ × Except LoaderError (Callable ω) → Prop
  | failed {l' : Loader ω χ} (functions : List Event) (error : LoaderError)
      (functions_only : ∀ e ∈ functions, e.isFunction = true)
      (stock : l'.stock = l.stock.note functions) : Compiles (l', .error error)
  | succeeded {l' : Loader ω χ} {code : String} {map : Option String} {functions : List Event}
      (callable : Callable ω) (stock : l'.stock = l.stock.note functions)
      (built : Script.Built p l.host ⟨pass.url, some code, map, true⟩ functions) :
      Compiles (l'.modifyUnit pass.unit fun unit ↦
        { unit with info := { unit.info with code := some code, sourceMap := map } }, .ok callable)

end

theorem compiles_compileUnit (p : Platform ω χ) (l : Loader ω χ) (pass : SecondPass ω χ) :
    l.Compiles p pass (l.compileUnit p pass) := by
  rcases hleave : pass.compiler.leaveImport l.world pass.file with ⟨left, file⟩
  rcases hsecond : pass.compiler.secondPass left file with ⟨world, file', output⟩
  simp only [compileUnit, hleave, hsecond]
  have hbegun : ({ l with world }.record (.compiled pass.unit)).stock = l.stock :=
    stock_record _ rfl
  have hreported := (stock_report _ p pass.compiler pass.url file').trans hbegun
  have hhost := host_report p pass.compiler ({ l with world }.record (.compiled pass.unit))
    pass.url file'
  rcases hreport : ({ l with world }.record (.compiled pass.unit)).report p pass.compiler pass.url
    file' with ⟨l₁, e | _⟩
  all_goals
    rw [hreport] at hreported hhost
    simp only [hreport]
  · exact .failed [] e (by simp) hreported
  · obtain ⟨embedded, world', hsynth⟩ := l₁.exists_synthesize p pass.url output.code
      (output.sourceMap.map MapSource.text)
    simp only [hsynth]
    generalize hsource : FunctionSource.assemble l₁.host (p.engine.headerLines l₁.world) pass.url
      output.code embedded = source
    have hasked : ({ l₁ with world := world' }.record (.synthesized source)).stock
        = l.stock.note [.synthesized source] := by
      rw [← hreported]
      exact stock_record_making _ rfl
    cases haccepted : (p.engine.synthesize l₁.world source).2 with
    | error e => exact .failed _ e (by simp [Event.isFunction]) hasked
    | ok callable =>
      have hbuilt : Script.Built p l.host ⟨pass.url, some output.code, embedded, true⟩
          [.synthesized source] := hhost ▸ hsource ▸ .code (by rw [hsource, haccepted]; rfl)
      exact .succeeded callable hasked hbuilt

/-- The body of a unit that has been given code can be called from then on. -/
theorem stock_setBody_ready (l : Loader ω χ) {id : UnitId} {old : Script}
    (hold : l.stock.scripts[id]? = some old) (code : String) (map : Option String)
    (callable : Callable ω) :
    ((l.modifyUnit id fun unit ↦
      { unit with info := { unit.info with code := some code, sourceMap := map } }).setBody id
        (.ready callable)).stock
      = { l.stock with scripts := l.stock.scripts.set id ⟨old.url, some code, map, true⟩ } := by
  rw [scripts_stock, Option.map_eq_some_iff] at hold
  obtain ⟨unit, hunit, rfl⟩ := hold
  have hgiven : (l.modifyUnit id fun unit ↦
      { unit with info := { unit.info with code := some code, sourceMap := map } }).unit? id
      = some { unit with info := { unit.info with code := some code, sourceMap := map } } := by
    rw [unit?_modifyUnit, hunit, Option.map_some, if_pos rfl]
  rw [setBody, stock_modifyUnit_set _ hgiven, stock_modifyUnit_set l hunit]
  simp [LoadedUnit.script, Body.stage]

/-- What becomes of a unit whose second pass has been run. -/
theorem next_compileUnit (p : Platform ω χ) (l : Loader ω χ) {pass : SecondPass ω χ}
    (hbody : l.body? pass.unit = some .compiling) (hnamed : l.stock.Names pass.unit pass.url) :
    l.stock.Next p l.host (match l.compileUnit p pass with
      | (l, .error _) => l.setBody pass.unit .failed
      | (l, .ok callable) => l.setBody pass.unit (.ready callable)).stock := by
  have hcompiles := l.compiles_compileUnit p pass
  have hretains := l.retains_compileUnit p pass
  rcases h : l.compileUnit p pass with ⟨l', result⟩
  rw [h] at hcompiles hretains
  cases hcompiles with
  | failed functions error hfunctions hstock =>
    have hfailed := l'.stock_setBody .failed (hretains.spares.bodies hbody) (by simp [Body.stage])
      (by simp [Body.stage])
    exact (hfailed.trans hstock) ▸ .fail hfunctions
  | @succeeded l₀ code map functions callable hstock hbuilt =>
    obtain ⟨old, hold, hurl⟩ := hnamed
    have hunready : old.isReady = false := by
      obtain ⟨unit, hunit, hcompiling⟩ := Option.map_eq_some_iff.mp hbody
      rw [script_of_unit? hunit, Option.some.injEq] at hold
      rw [← hold, LoadedUnit.script, hcompiling]
      rfl
    have hold₀ : l₀.stock.scripts[pass.unit]? = some old := hstock ▸ hold
    dsimp only
    rw [stock_setBody_ready l₀ hold₀, hstock, hurl]
    exact .compile hold hunready hbuilt rfl hurl.symm

end Loader

end ScriptLoader
