import Mathlib.Algebra.BigOperators.Group.List.Basic
import Mathlib.Algebra.Ring.Nat
import ScriptLoader.Proofs.Strokes
import ScriptLoader.Proofs.Wave

/-!
# Metering the caching of a resolver

A resolver counts how often caching has been enabled and not disabled again. The *depth* of caching
is that count, as a function of the world: enabling raises it by one, disabling lowers it by one,
and nothing else that a loader asks of its platform changes it. Any platform can be given a meter.

## The surplus

An import enables caching when it is requested, and the loader disables it when the import is over.
Until then the import is in exactly one place: it is looked up, it waits for a unit, or it is held
by a frame on the stack. The *surplus* of a loader is the depth of caching less the imports that are
looked up or wait. Most of what a loader does is *level*: it does not change the surplus.
-/

namespace ScriptLoader

variable {ω χ : Type}

/-- Enabling and disabling caching change a depth by one, and nothing else changes it. -/
structure Platform.Meters (p : Platform ω χ) (depth : ω → Int) : Prop where
  enable : ∀ world, depth (p.resolver.enableCaching world) = depth world + 1
  disable : ∀ world, depth (p.resolver.disableCaching world) = depth world - 1
  resolve : ∀ world url substitutions,
    depth (p.resolver.resolve world url substitutions).1 = depth world
  search : ∀ world locator, depth (p.resolver.search world locator).1 = depth world
  next : ∀ world tickets, depth (p.resolver.next? world tickets).1 = depth world
  answer : ∀ world ticket, depth (p.resolver.answer world ticket).1 = depth world
  cancel : ∀ world tickets, depth (p.resolver.cancel world tickets) = depth world
  synthesize : ∀ world source, depth (p.engine.synthesize world source).1 = depth world
  write : ∀ world piece, depth (p.write world piece).1 = depth world
  firstPass : ∀ compiler ∈ p.compiler, ∀ view source url,
    depth (compiler.firstPass view source url).1 = depth view.world
  enterImport : ∀ compiler ∈ p.compiler, ∀ world file name,
    depth (compiler.enterImport world file name).1 = depth world
  leaveImport : ∀ compiler ∈ p.compiler, ∀ world file,
    depth (compiler.leaveImport world file).1 = depth world
  secondPass : ∀ compiler ∈ p.compiler, ∀ world file,
    depth (compiler.secondPass world file).1 = depth world

/-- Asking a platform, and its compiler, for anything else leaves the depth as it is. -/
theorem Platform.Meters.of_alters {p : Platform ω χ} {depth : ω → Int} (hp : p.Meters depth)
    {world world' : ω} (h : p.Alters p.compiler world world') : depth world' = depth world := by
  cases h with
  | resolve => exact hp.resolve _ _ _
  | next => exact hp.next _ _
  | answer => exact hp.answer _ _
  | cancel => exact hp.cancel _ _
  | synthesize => exact hp.synthesize _ _
  | write => exact hp.write _ _
  | firstPass hcompiler => exact hp.firstPass _ hcompiler _ _ _
  | leaveImport hcompiler => exact hp.leaveImport _ hcompiler _ _
  | secondPass hcompiler => exact hp.secondPass _ hcompiler _ _

/-! ## A meter for any platform -/

/-- What is seen of a metered world without the meter. -/
def View.unmetered (view : View (ω × Int)) : View ω where
  world := view.world.1
  unit? := view.unit?
  unitCount := view.unitCount
  cachedUnit? := view.cachedUnit?
  cachedResult? := view.cachedResult?
  executing := view.executing
  compiling := view.compiling
  outstanding := view.outstanding
  pendingLookups := view.pendingLookups
  host := view.host
  base := view.base
  config := view.config
  scope := view.scope

/-- Something done to a metered world that leaves the meter alone. -/
private def unmetered {α : Type} (world : ω × Int) (act : ω → ω × α) : (ω × Int) × α :=
  (((act world.1).1, world.2), (act world.1).2)

def Compiler.metered (compiler : Compiler ω χ) : Compiler (ω × Int) χ where
  firstPass view source url :=
    unmetered view.world fun _ ↦ compiler.firstPass view.unmetered source url
  enterImport world file name := unmetered world (compiler.enterImport · file name)
  leaveImport world file := unmetered world (compiler.leaveImport · file)
  secondPass world file := unmetered world (compiler.secondPass · file)
  diagnostics := compiler.diagnostics
  wording := compiler.wording

/-- A platform whose world has a meter for caching. Functions that are built are adapted to the
metered world. -/
def Platform.metered (p : Platform ω χ) (adapt : Callable ω → Callable (ω × Int)) :
    Platform (ω × Int) χ where
  resolver :=
    { includePaths := fun world ↦ p.resolver.includePaths world.1
      resolve := fun world url substitutions ↦
        unmetered world (p.resolver.resolve · url substitutions)
      search := fun world locator ↦ unmetered world (p.resolver.search · locator)
      next? := fun world tickets ↦ unmetered world (p.resolver.next? · tickets)
      answer := fun world ticket ↦ unmetered world (p.resolver.answer · ticket)
      cancel := fun world tickets ↦ (p.resolver.cancel world.1 tickets, world.2)
      enableCaching := fun world ↦ (p.resolver.enableCaching world.1, world.2 + 1)
      disableCaching := fun world ↦ (p.resolver.disableCaching world.1, world.2 - 1) }
  engine :=
    { headerLines := fun world ↦ p.engine.headerLines world.1
      synthesize := fun world source ↦
        unmetered world fun world ↦ (p.engine.synthesize world source).map id (·.map adapt) }
  compiler := p.compiler.map Compiler.metered
  write world piece := unmetered world (p.write · piece)

theorem Platform.meters_metered (p : Platform ω χ) (adapt : Callable ω → Callable (ω × Int)) :
    (p.metered adapt).Meters Prod.snd := by
  have hcompiler {compiler : Compiler (ω × Int) χ} (h : compiler ∈ (p.metered adapt).compiler) :
      ∃ inner : Compiler ω χ, inner.metered = compiler := by
    obtain ⟨inner, -, heq⟩ := Option.map_eq_some_iff.mp h
    exact ⟨inner, heq⟩
  constructor
  case firstPass | enterImport | leaveImport | secondPass =>
    intro compiler h
    obtain ⟨inner, rfl⟩ := hcompiler h
    intros
    rfl
  all_goals
    intros
    rfl

/-! ## What is accounted for -/

/-- A unit that awaits its second pass has been through the first pass of this compiler. -/
def Body.Fits (p : Platform ω χ) : Body ω χ → Prop
  | pending compiler _ => compiler ∈ p.compiler
  | _ => True

theorem Body.Begins.fits {p : Platform ω χ} {url : Url} {body : Body ω χ}
    (h : body.Begins p url) : body.Fits p := by
  cases h with
  | ready => trivial
  | pending hcompiler => exact hcompiler

namespace Loader

variable (p : Platform ω χ) (depth : ω → Int)

/-- How many imports wait for units. -/
def waitingImports (l : Loader ω χ) : Nat :=
  (l.units.map fun unit ↦ unit.callbacks.countP Callback.isImport).sum

def importLookups (l : Loader ω χ) : Nat := l.lookups.countP (·.purpose.isImport)

/-- How much deeper caching is than the imports that are looked up or wait account for. -/
def surplus (l : Loader ω χ) : Int := depth l.world - l.importLookups - l.waitingImports

/-- All units that await their second pass have been through the first. -/
def AllFit (l : Loader ω χ) : Prop := ∀ unit ∈ l.units, unit.body.Fits p

/-- A change that does not concern the caching of the resolver. -/
structure Level (l l' : Loader ω χ) : Prop where
  surplus : l'.surplus depth = l.surplus depth
  fit : l.AllFit p → l'.AllFit p

variable {p depth}

namespace Level

variable {l l' l'' : Loader ω χ}

theorem trans (h : l.Level p depth l') (h' : l'.Level p depth l'') : l.Level p depth l'' :=
  ⟨h'.surplus.trans h.surplus, fun hfit ↦ h'.fit (h.fit hfit)⟩

theorem of_units (hunits : l'.units = l.units) (hlookups : l'.lookups = l.lookups)
    (hworld : depth l'.world = depth l.world) : l.Level p depth l' where
  surplus := by
    rw [Loader.surplus, Loader.surplus, importLookups, importLookups, waitingImports,
      waitingImports, hunits, hlookups, hworld]
  fit h := by
    rw [AllFit, hunits]
    exact h

theorem refl (l : Loader ω χ) : l.Level p depth l := of_units rfl rfl rfl

theorem addUnit (l : Loader ω χ) {unit : LoadedUnit ω χ} (hcallbacks : unit.callbacks = [])
    (hfits : unit.body.Fits p) : l.Level p depth (l.addUnit unit).1 where
  surplus := by
    have hsame : (l.addUnit unit).1.waitingImports = l.waitingImports := by
      simp [waitingImports, Loader.addUnit, hcallbacks]
    rw [Loader.surplus, hsame]
    rfl
  fit h := List.forall_mem_append.mpr ⟨h, by simpa using hfits⟩

end Level

theorem mem_modifyUnit {l : Loader ω χ} {id : UnitId} {f : LoadedUnit ω χ → LoadedUnit ω χ}
    {unit : LoadedUnit ω χ} (h : unit ∈ (l.modifyUnit id f).units) :
    ∃ old ∈ l.units, unit = old ∨ unit = f old := by
  obtain ⟨i, hi⟩ := List.mem_iff_getElem?.mp h
  rw [modifyUnit, List.getElem?_modify, Option.map_eq_map, Option.map_eq_some_iff] at hi
  obtain ⟨old, hold, rfl⟩ := hi
  refine ⟨old, List.mem_of_getElem? hold, ?_⟩
  split
  · exact .inr rfl
  · exact .inl rfl

theorem level_modifyUnit (l : Loader ω χ) (id : UnitId) {f : LoadedUnit ω χ → LoadedUnit ω χ}
    (hcallbacks : ∀ unit, (f unit).callbacks = unit.callbacks)
    (hfits : ∀ unit, unit.body.Fits p → (f unit).body.Fits p) :
    l.Level p depth (l.modifyUnit id f) where
  surplus := by
    have hsame : (l.modifyUnit id f).waitingImports = l.waitingImports := by
      rw [waitingImports, waitingImports]
      congr 1
      refine List.ext_getElem? fun i ↦ ?_
      rw [modifyUnit, List.getElem?_map, List.getElem?_map, List.getElem?_modify,
        Option.map_eq_map, Option.map_map]
      congr 1
      funext unit
      by_cases hid : id = i <;> simp [hid, hcallbacks]
    rw [Loader.surplus, hsame]
    rfl
  fit h unit hunit := by
    obtain ⟨old, hold, rfl | rfl⟩ := mem_modifyUnit hunit
    · exact h _ hold
    · exact hfits old (h old hold)

theorem level_setStatus (l : Loader ω χ) (id : UnitId) (status : LoadStatus) :
    l.Level p depth (l.setStatus id status) :=
  l.level_modifyUnit id (fun _ ↦ rfl) fun _ h ↦ h

theorem level_setStatuses (l : Loader ω χ) (ids : List UnitId) (status : LoadStatus) :
    l.Level p depth (l.setStatuses ids status) := by
  induction ids generalizing l with
  | nil => exact .refl l
  | cons id rest ih => exact (l.level_setStatus id status).trans (ih _)

theorem level_setBody (l : Loader ω χ) (id : UnitId) (body : Body ω χ) (h : body.Fits p) :
    l.Level p depth (l.setBody id body) :=
  l.level_modifyUnit (f := fun unit ↦ { unit with body }) id (fun _ ↦ rfl) fun _ _ ↦ h

theorem level_operation (l : Loader ω χ) (kind : OperationKind) (context : Url) :
    l.Level p depth (l.operation kind context).1 := by
  rw [operation]
  split
  · exact .refl l
  · exact .of_units rfl rfl rfl

theorem level_argumentsFor (l : Loader ω χ) (directory : Url) :
    l.Level p depth (l.argumentsFor directory).1 :=
  (l.level_operation .executer directory).trans (level_operation _ .importer directory)

/-! ## Making and compiling units -/

section Making

variable (hp : p.Meters depth)

include hp

/-- Units are made, and second passes run, at the same depth. -/
theorem Strokes.level {l l' : Loader ω χ} (h : l.Strokes p p.compiler l') :
    l.Level p depth l' := by
  refine h.induct Level.refl Level.trans fun {l l'} hstroke ↦ ?_
  cases hstroke with
  | world halters => exact .of_units rfl rfl (hp.of_alters halters)
  | add hnew hbegins => exact .addUnit l hnew.callbacks hbegins.fits
  | code => exact l.level_modifyUnit _ (fun _ ↦ rfl) fun _ hfits ↦ hfits
  | record | name | file => exact .of_units rfl rfl rfl

theorem level_compileUnit (l : Loader ω χ) {pass : SecondPass ω χ}
    (hpass : pass.compiler ∈ p.compiler) : l.Level p depth (l.compileUnit p pass).1 := by
  have hrecorded : l.Level p depth (l.record (.compiled pass.unit)) := .of_units rfl rfl rfl
  have hstrokes := l.strokes_compileUnit p pass
  rw [← Option.mem_def.mp hpass] at hstrokes
  exact hrecorded.trans (hstrokes.level hp)

end Making

end Loader

end ScriptLoader
