import ScriptLoader.Proofs.Resetting.Closures
import ScriptLoader.Proofs.Resetting.Machines
import ScriptLoader.Proofs.Project
import ScriptLoader.Proofs.Turn

/-!
# A reset is a fresh start

A loader that is at rest when it is told to forget everything goes on like a new one. It does not
matter what it has been through: units may have been left waiting, waves may have been dropped, and
second passes may have failed. What is left of all that cannot be reached any more, because code has
only the units and operations that it has been given since.

## Side by side

`Likeness.Pairs` runs the old loader and a new one side by side, on code that is alike. They are
alike after the reset, and each step keeps them alike. So their outcomes are, and what can be seen
of them, and what their journals tell. A world may keep a record of its own of what is asked of the
platform; whether the records agree is part of what makes worlds alike.

## The exception

Walks through dependencies tell units apart by their URLs, so the number of a name that is made up
makes a difference if there is a file of that name. `Likeness.closure_ne_renumbering` is such a
case. Nothing else depends on these numbers.
-/

namespace ScriptLoader

variable {ω χ : Type}

/-! ## What the journal tells -/

namespace Journal

variable (journal : List Event)

/-- The lookups that were started, by key, the earliest first, and which of them were imports. -/
def lookups : List (String × Request × Bool) :=
  (journal.filterMap fun
    | .lookedUp key request forImport => some (key, request, forImport)
    | _ => none).reverse

def functions : List FunctionSource :=
  (journal.filterMap fun
    | .synthesized source => some source
    | _ => none).reverse

/-- The units whose callbacks were called, the earliest first and as often as one was called. -/
def deliveries : List UnitId :=
  (journal.filterMap fun
    | .delivered id => some id
    | _ => none).reverse

end Journal

/-- What the next step looks up for code that waits for the unit of a URL. The journal does not tell
of it. -/
def Machine.opens (m : Machine ω χ) : Option Request :=
  match m.control with
  | .running (.openUnit url _) =>
    if (m.loader.cache.unit? url).isSome then none
    else some (.resolve url m.loader.substitutions)
  | _ => none

/-! ## New loaders -/

namespace Loader

/-- A loader has nothing to do: no wave is active, no lookup is under way, and no unit is executing
or compiling. It has not been given up. -/
structure IsAtRest (l : Loader ω χ) : Prop where
  wave : l.wave = none
  lookups : l.lookups = []
  executing : l.executing = none
  compiling : l.compiling = none
  released : l.released = false

/-- A new loader with the settings of a loader, and a world of its own. -/
def anew (l : Loader ω χ) (world : ω) : Loader ω χ where
  world
  base := l.base
  config := l.config
  host := l.host
  substitutions := l.substitutions
  scope := l.scope

theorem isFresh_anew (l : Loader ω χ) (world : ω) : (l.anew world).IsFresh :=
  ⟨rfl, rfl, rfl, rfl, rfl, rfl, rfl, rfl⟩

end Loader

namespace Likeness

variable {R : Likeness ω χ} {p : Platform ω χ} {world : ω} {m m' : Machine ω χ}

open Journal

theorem bindings_refl (bindings : List (String × Value)) : R.Bindings bindings bindings :=
  List.forall₂_same.mpr fun binding _ ↦ ⟨rfl, R.value_refl binding.2⟩

/-- **A loader that has forgotten everything is like a new one.** -/
theorem loaders_anew (rest : R.before.loader.IsAtRest)
    (worlds : R.world R.before.loader.world world) :
    R.Loaders { R.before.loader.record .reset with cache := {} } (R.before.loader.anew world) where
  world := worlds
  base := rfl
  base_eq := rfl
  config := rfl
  units := ⟨[], (List.append_nil _).symm, .nil⟩
  operations _ := rfl
  results _ := rfl
  markers := rfl
  cached _ := rfl
  wave := rest.wave
  lookups := by
    show List.Forall₂ R.Lookups R.before.loader.lookups []
    rw [rest.lookups]
    exact .nil
  executing := rest.executing
  compiling := rest.compiling
  host := bindings_refl _
  substitutions := rfl
  scope := bindings_refl _
  anonymousCount := (Nat.zero_add _).symm
  operationCount := (Nat.zero_add _).symm
  released := rest.released
  journal := ⟨[], rfl, .nil⟩

variable (R p world) in
/-- The machines of two runs, side by side. In one a loader is told to forget everything, in the
other there is a new loader; code that is alike goes on in both. More code may be run in both when
all code has ended in both. -/
inductive Pairs : Machine ω χ → Machine ω χ → Prop
  | reset {next next' : Code ω} (resets : R.before.control = .running (.reset next))
      (codes : R.Codes next next') :
      Pairs (R.before.step p)
        { loader := R.before.loader.anew world, control := .running next' }
  | step {m m' : Machine ω χ} (pair : Pairs m m') (running : m'.isHalted = false) :
      Pairs (m.step p) (m'.step p)
  | again {m m' : Machine ω χ} (pair : Pairs m m') (halted : m.isHalted = true)
      (halted' : m'.isHalted = true) {code code' : Code ω} (codes : R.Codes code code') :
      Pairs { m with control := .running code } { m' with control := .running code' }

/-- The machines stay alike. -/
theorem Pairs.machines (h : R.Pairs p world m m') (hp : R.Respects p)
    (rest : R.before.loader.IsAtRest) (worlds : R.world R.before.loader.world world) :
    R.Machines m m' := by
  -- by induction on the steps that both have taken; the first is the reset
  induction h with
  | @reset next next' resets codes =>
    rw [Machine.step.eq_def, resets]
    exact ⟨loaders_anew rest worlds, .running codes, [], rfl, .nil⟩
  | step _ running ih => exact ih.step hp running
  | again _ _ _ codes ih => exact ih.start codes

/-! ## What both tell -/

theorem Machines.opens (h : R.Machines m m') : m.opens = m'.opens := by
  have hcontrol := h.control
  rw [Machine.opens, Machine.opens]
  generalize m.control = control at hcontrol ⊢
  generalize m'.control = control' at hcontrol ⊢
  cases hcontrol with
  | returning => rfl
  | running hcodes =>
    cases hcodes with
    | openUnit url =>
      dsimp only
      rw [h.loader.cached, Option.isSome_map, h.loader.substitutions]
    | _ => rfl

namespace Events

variable {events events' : List Event} (h : List.Forall₂ R.Events events events')

include h

theorem lookups : Journal.lookups events = Journal.lookups events' := by
  refine congrArg List.reverse (List.forall₂_eq_eq_eq ▸ List.rel_filterMap ?_ h)
  intro _ e he
  cases he with
  | renumber => cases e <;> first | exact .none | exact .some rfl
  | aborted => exact .none
  | synthesized => exact .none

theorem functions :
    List.Forall₂ R.Sources (Journal.functions events) (Journal.functions events') := by
  refine List.rel_reverse (List.rel_filterMap ?_ h)
  intro _ e he
  cases he with
  | renumber => cases e <;> first | exact .none | exact .some (.same _)
  | aborted => exact .none
  | synthesized hsources => exact .some hsources

theorem deliveries :
    Journal.deliveries events = (Journal.deliveries events').map R.shift := by
  rw [Journal.deliveries, Journal.deliveries, List.map_reverse]
  refine congrArg List.reverse ?_
  rw [← List.forall₂_eq_eq_eq, List.forall₂_map_right_iff]
  refine List.rel_filterMap ?_ h
  intro _ e he
  cases he with
  | renumber => cases e <;> first | exact .none | exact .some rfl
  | aborted => exact .none
  | synthesized => exact .none

end Events

/-! ## Likeness that leaves little open -/

/-- Worlds, files and values are alike if they are the same. -/
def exact (before : Machine ω χ) (given : Url → Prop) : Likeness ω χ where
  before
  given
  world := Eq
  file := Eq
  value := Eq
  value_refl _ := rfl

theorem Pairs.iterate (h : R.Pairs p world m m') (count : Nat)
    (running : ∀ k < count, ((Machine.step p)^[k] m').isHalted = false) :
    R.Pairs p world ((Machine.step p)^[count] m) ((Machine.step p)^[count] m') := by
  induction count with
  | zero => exact h
  | succ count ih =>
    rw [Function.iterate_succ_apply', Function.iterate_succ_apply']
    exact (ih fun k hk ↦ running k (hk.trans (Nat.lt_succ_self _))).step
      (running count (Nat.lt_succ_self _))

theorem respects_platform (project : Project) (pick : List Ticket → Option Ticket)
    (before : Machine (List Request) Unit) {given : Url → Prop}
    (found : ∀ request url, project.target request = some url → given url) :
    (exact before given).Respects (project.platform pick) where
  includePaths _ := rfl
  start := by
    rintro _ _ rfl request
    exact ⟨rfl, rfl⟩
  next := by
    rintro _ _ rfl tickets
    exact ⟨rfl, rfl⟩
  answer := by
    rintro _ _ rfl ticket
    exact ⟨rfl, rfl⟩
  found := by
    rintro _ made ticket resource rfl hanswer
    obtain ⟨url, hurl, rfl⟩ := Option.map_eq_some_iff.mp (Except.ok.inj hanswer)
    obtain ⟨request, -, htarget⟩ := Option.bind_eq_some_iff.mp hurl
    exact found request url htarget
  cancel := by
    rintro _ _ rfl tickets
    rfl
  enableCaching := id
  disableCaching := id
  headerLines _ := rfl
  synthesize := by
    rintro _ _ _ _ rfl -
    exact ⟨rfl, .ok fun _ ↦ .finish (.ok rfl)⟩
  compiler := by
    rintro _ ⟨⟩
    exact {
      firstPass := fun hviews _ _ ↦ ⟨hviews.world, .ok ⟨rfl, rfl⟩⟩
      enterImport := fun hworld hfile _ ↦ ⟨hworld, hfile⟩
      leaveImport := fun hworld hfile ↦ ⟨hworld, hfile⟩
      secondPass := fun hworld hfile ↦ ⟨hworld, hfile, rfl⟩
      diagnostics := fun _ ↦ rfl
      wording := fun _ ↦ rfl }
  write := by
    rintro _ _ rfl piece
    exact ⟨rfl, .ok rfl⟩

/-! ## Fresh starts -/

/-- **A reset is a fresh start.** A loader that is at rest is told to forget everything. From then
on it does what a fresh loader with its settings does, over a world that is alike: results and
errors are alike, units have the same status, the same lookups are started in the same order,
functions of the same code are asked for, and callbacks are called in the same order. Closures
consist of the same units if no file has the URL of a unit that was made without one. -/
theorem Pairs.afresh (h : R.Pairs p world m m') (hp : R.Respects p)
    (rest : R.before.loader.IsAtRest) (worlds : R.world R.before.loader.world world) :
    (R.before.loader.anew world).IsFresh ∧ R.Controls m.control m'.control ∧
    (∃ frames, m.stack = frames ++ R.before.stack ∧ frames.length = m'.stack.length) ∧
    R.Views m.loader.view m'.loader.view ∧ m.opens = m'.opens ∧
    (∀ id, (m.loader.unit? (R.shift id)).map (·.info.status)
      = (m'.loader.unit? id).map (·.info.status)) ∧
    (∃ events, m.loader.journal = events ++ .reset :: R.before.loader.journal ∧
      lookups events = lookups m'.loader.journal ∧
      List.Forall₂ R.Sources (functions events) (functions m'.loader.journal) ∧
      deliveries events = (deliveries m'.loader.journal).map R.shift) ∧
    (R.KeepsApart → ∀ id,
      m.loader.view.closure (R.shift id) = (m'.loader.view.closure id).map R.shift) := by
  have hopens := (h.machines hp rest worlds).opens
  obtain ⟨hloader, hcontrol, frames, hstack, hframes⟩ := h.machines hp rest worlds
  obtain ⟨events, hjournal, hevents⟩ := hloader.journal
  refine ⟨R.before.loader.isFresh_anew world, hcontrol, ⟨frames, hstack, hframes.length_eq⟩,
    hloader.view, hopens, fun id ↦ ?_, ?_, fun apart id ↦ hloader.view.closure apart id⟩
  · rcases hloader.unit?_cases id with ⟨hnone, hnone'⟩ | ⟨unit, unit', hunit, hunit', hunits⟩
    · rw [hnone, hnone']
    · rw [hunit, hunit', Option.map_some, Option.map_some, hunits.info.status]
  · exact ⟨events, hjournal, Events.lookups hevents, Events.functions hevents,
      Events.deliveries hevents⟩

/-- One file that refers to a missing file. -/
def broken : Project := Project.orphans.restrict [.file "/b".toList]

/-- A unit without a URL is made, of code that refers to the file and to a missing one, and is
loaded. -/
def loadBroken : Code (List Request) :=
  .createFromSource none "" [⟨"b", true⟩, ⟨"missing", true⟩] fun
    | .ok id => Program.load id fun
      | .settled (.error e) => .finish (.error e)
      | _ => .finish (.ok .undefined)
    | .error e => .finish (.error e)

theorem codes_loadBroken (R : Likeness (List Request) Unit) : R.Codes loadBroken loadBroken := by
  refine .createFromSource none "" _ nofun fun {result result'} hresults ↦ ?_
  cases hresults with
  | error herrors => exact .finish (.error herrors)
  | @ok id id' hids =>
    cases hids
    refine .load id' fun {result result'} hresults ↦ ?_
    cases hresults with
    | stalled => exact .finish (.ok (R.value_refl _))
    | settled hresults =>
      cases hresults with
      | error herrors => exact .finish (.error herrors)
      | ok => exact .finish (.ok (R.value_refl _))

/-- The load fails. The loader is told to forget that, and the same is tried once more. -/
def forgetting : Machine (List Request) Unit :=
  { (Machine.step (broken.platform List.head?))^[13]
      { loader := { world := [], base := .file "/".toList }, control := .running loadBroken } with
    control := .running (.reset loadBroken) }

/-- The second load fails like that of a new loader, with the same units in the closure. -/
theorem afresh_forgetting :
    ∃ R : Likeness (List Request) Unit, R.before = forgetting ∧ R.before.loader.IsAtRest ∧
      R.Respects (broken.platform List.head?) ∧ R.KeepsApart ∧
      ∃ m m', R.Pairs (broken.platform List.head?) forgetting.loader.world m m' ∧
        m'.isHalted = true ∧ R.Controls m.control m'.control ∧
        (m.loader.unit? 2).map (·.info.status) = some .loading ∧
        m.loader.view.closure 2 = [3, 2] := by
  let R := exact forgetting (· ∈ [Url.file "/b".toList])
  have hrest : R.before.loader.IsAtRest := by
    refine ⟨?_, List.isEmpty_iff.mp ?_, ?_, ?_, ?_⟩ <;> decide +kernel
  have hp : R.Respects (broken.platform List.head?) :=
    respects_platform _ _ _ fun request url htarget ↦
      of_decide_eq_true (Option.filter_eq_some_iff.mp htarget).2
  have hapart : R.KeepsApart := by
    refine keepsApart_of_getLast? fun url hurl ↦ ?_
    rw [List.mem_singleton.mp hurl]
    decide
  have hreset : R.Pairs (broken.platform List.head?) forgetting.loader.world _ _ :=
    .reset rfl (codes_loadBroken R)
  have hpair := hreset.iterate 13 (by decide +kernel)
  obtain ⟨-, hcontrols, -, -, -, hstatus, -, hclosure⟩ := hpair.afresh hp hrest rfl
  have hshift : R.shift 0 = 2 := by decide +kernel
  refine ⟨R, rfl, hrest, hp, hapart, _, _, hpair, by decide +kernel, hcontrols, ?_, ?_⟩
  · rw [← hshift, hstatus]
    decide +kernel
  · rw [← hshift, hclosure hapart]
    decide +kernel

def islands : Project where
  target
    | .resolve url _ => some url
    | .search _ => none
  declared _ := []

/-- A unit without a URL is made, of code that refers to a file that is named like one. -/
def loadNamesake : Code (List Request) :=
  .createFromSource none "" [⟨"(Anonymous0)", true⟩] fun
    | .ok id => Program.load id fun _ ↦ .finish (.ok .undefined)
    | .error e => .finish (.error e)

theorem codes_loadNamesake (R : Likeness (List Request) Unit) :
    R.Codes loadNamesake loadNamesake := by
  refine .createFromSource none "" _ nofun fun {result result'} hresults ↦ ?_
  cases hresults with
  | error herrors => exact .finish (.error herrors)
  | @ok id id' hids =>
    cases hids
    exact .load id' fun _ ↦ .finish (.ok (R.value_refl _))

/-- A unit without a URL has been made before everything is forgotten. -/
def renumbering : Machine (List Request) Unit where
  loader := ((Machine.step (islands.platform List.head?))
    { loader := { world := [], base := .file "/".toList }
      control := .running (.createFromSource none "" [] fun _ ↦ .finish (.ok .undefined)) }).loader
  control := .running (.reset loadNamesake)

/-- The file is listed by the old loader, where the unit that refers to it has the number after its
own. A new loader takes it for that unit. -/
theorem closure_ne_renumbering :
    ∃ R : Likeness (List Request) Unit, R.before = renumbering ∧ R.before.loader.IsAtRest ∧
      R.Respects (islands.platform List.head?) ∧
      ∃ m m', R.Pairs (islands.platform List.head?) renumbering.loader.world m m' ∧
        m'.isHalted = true ∧ m.loader.view.closure (R.shift 0) = [R.shift 1, R.shift 0] ∧
        m'.loader.view.closure 0 = [0] := by
  let R := exact renumbering fun _ ↦ True
  have hrest : R.before.loader.IsAtRest := by
    refine ⟨?_, List.isEmpty_iff.mp ?_, ?_, ?_, ?_⟩ <;> decide +kernel
  have hp : R.Respects (islands.platform List.head?) := respects_platform _ _ _ fun _ _ _ ↦ trivial
  have hreset : R.Pairs (islands.platform List.head?) renumbering.loader.world _ _ :=
    .reset rfl (codes_loadNamesake R)
  have hpair := hreset.iterate 12 (by decide +kernel)
  exact ⟨R, rfl, hrest, hp, _, _, hpair, by decide +kernel, by decide +kernel, by decide +kernel⟩

end Likeness

end ScriptLoader
