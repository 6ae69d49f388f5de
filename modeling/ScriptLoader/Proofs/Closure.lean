import Mathlib.Logic.Relation
import ScriptLoader.Proofs.Account

/-!
# Loaded means closed

A loaded unit may be executed, and so may all that its references led to. This is what the status is
for: compiling a unit executes its dependencies by reference, which fails for a reference that led
nowhere, or to a unit that is not loaded.

## What is behind it

Every key that was asked for is accounted for, so a reference of a loaded unit led to a loaded unit,
unless it is *suspect*: a wave that was dropped had asked for it or had been joined by the unit that
it led to, or it was asked for before a reset. Where nothing was ever dropped or forgotten, no
reference is suspect.
-/

namespace ScriptLoader

variable {ω χ : Type}

/-! ## Journals without losses -/

/-- Whether two events are not about one key that led to two files. -/
def Event.agrees : Event → Event → Bool
  | found key url, found key' url' => key ≠ key' || url = url'
  | _, _ => true

/-- Whether what is known is lost. -/
def Event.loses : Event → Bool
  | aborted _ | released | reset => true
  | _ => false

namespace Journal

variable {journal : List Event}

theorem consistent_iff :
    Consistent journal ↔ ∀ e ∈ journal, ∀ e' ∈ journal, e.agrees e' = true := by
  constructor
  · intro h e he e' he'
    cases e with
    | found key url =>
      cases e' with
      | found key' url' =>
        by_cases hkey : key = key'
        · subst hkey
          simp [Event.agrees, h he he']
        · simp [Event.agrees, hkey]
      | _ => rfl
    | _ => rfl
  · intro h key url url' hfound hfound'
    simpa [Event.agrees] using h _ hfound _ hfound'

instance : Decidable (Consistent journal) := decidable_of_iff' _ consistent_iff

/-- No wave was dropped, and nothing was forgotten. -/
def Intact (journal : List Event) : Prop := ∀ e ∈ journal, e.loses = false

instance : Decidable (Intact journal) :=
  inferInstanceAs (Decidable (∀ e ∈ journal, e.loses = false))

theorem Intact.dropped_eq_nil (h : Intact journal) : dropped journal = [] := by
  induction journal with
  | nil => rfl
  | cons e rest ih =>
    obtain ⟨he, hrest⟩ := List.forall_mem_cons.mp h
    rw [dropped_cons (by cases e <;> first | rfl | cases he), ih hrest]

theorem Intact.forgotten_eq_nil (h : Intact journal) : forgotten journal = [] := by
  induction journal with
  | nil => rfl
  | cons e rest ih =>
    obtain ⟨he, hrest⟩ := List.forall_mem_cons.mp h
    cases e with
    | reset => cases he
    | _ => exact ih hrest

end Journal

/-! ## Closures -/

namespace Loader

open Journal Relation

def Leads (l : Loader ω χ) (id id' : UnitId) : Prop :=
  ∃ unit, l.unit? id = some unit ∧
    ∃ r ∈ unit.info.dependencies, l.cache.result? (unit.info.key r) = some id'

/-- A unit is loaded, and each of its references led to a loaded unit. -/
def Complete (l : Loader ω χ) (id : UnitId) : Prop :=
  ∃ unit, l.unit? id = some unit ∧ unit.info.status = .loaded ∧ ∀ r ∈ unit.info.dependencies,
    ∃ id', l.cache.result? (unit.info.key r) = some id' ∧ l.isLoaded id' = true

/-- A reference is known by a lost key, or led to a stranded unit. -/
def Suspect (l : Loader ω χ) (key : String) : Prop :=
  Lost l.journal key ∨ ∃ id, l.cache.result? key = some id ∧ Stranded l.journal id

/-- All suspect references of a unit have led to loaded units nevertheless. -/
def Cleared (l : Loader ω χ) (id : UnitId) : Prop :=
  ∀ {unit}, l.unit? id = some unit → ∀ r ∈ unit.info.dependencies, l.Suspect (unit.info.key r) →
    ∃ id', l.cache.result? (unit.info.key r) = some id' ∧ l.isLoaded id' = true

variable {l : Loader ω χ} {id id' : UnitId}

theorem complete_iff : l.Complete id ↔ (l.unit? id).any (fun unit ↦ unit.info.status = .loaded &&
    unit.info.dependencies.all fun r ↦ (l.cache.result? (unit.info.key r)).any l.isLoaded) := by
  simp [Complete, Option.any_eq_true]

instance : Decidable (l.Complete id) := decidable_of_iff' _ complete_iff

theorem Complete.cleared (h : l.Complete id) : l.Cleared id := by
  intro unit hunit r hr _
  obtain ⟨unit', hunit', -, hled⟩ := h
  rw [hunit] at hunit'
  cases hunit'
  exact hled r hr

theorem Complete.isLoaded_of_leads (h : l.Complete id) (hleads : l.Leads id id') :
    l.isLoaded id' = true := by
  obtain ⟨unit, hunit, -, hled⟩ := h
  obtain ⟨unit', hunit', r, hr, hresult⟩ := hleads
  rw [hunit] at hunit'
  cases hunit'
  obtain ⟨target, htarget, hloaded⟩ := hled r hr
  rw [hresult] at htarget
  cases htarget
  exact hloaded

/-- A loaded unit is complete but for its suspect references. -/
theorem Traced.complete (h : l.Traced) (hloaded : l.isLoaded id = true) (hcleared : l.Cleared id) :
    l.Complete id := by
  obtain ⟨s, hs, hstatus⟩ := isLoaded_iff.mp hloaded
  obtain ⟨unit, hunit, rfl⟩ := standing?_eq_some.mp hs
  refine ⟨unit, hunit, hstatus, fun r hr ↦ ?_⟩
  obtain ⟨-, hlost | ⟨target, htarget, hdone | hstranded⟩⟩ := h.closed hs hstatus r hr
  · exact hcleared hunit r hr (.inl hlost)
  · exact ⟨target, htarget, hdone⟩
  · exact hcleared hunit r hr (.inr ⟨target, htarget, hstranded⟩)

/-- The closure of a loaded unit is complete exactly when its suspect references led to loaded units
nevertheless. -/
theorem Traced.closure_complete_iff (h : l.Traced) (hloaded : l.isLoaded id = true) :
    (∀ id', ReflTransGen l.Leads id id' → l.Complete id') ↔
      ∀ id', ReflTransGen l.Leads id id' → l.Cleared id' := by
  constructor
  · intro hcomplete id' hleads
    exact (hcomplete id' hleads).cleared
  · intro hcleared id' hleads
    -- along the references, each unit is loaded because the one before is complete
    induction hleads with
    | refl => exact h.complete hloaded (hcleared id .refl)
    | tail hleads hlast ih =>
      exact h.complete (ih.isLoaded_of_leads hlast) (hcleared _ (hleads.tail hlast))

theorem not_suspect (h : Intact l.journal) (key : String) : ¬l.Suspect key := by
  rintro ((hdropped | hforgotten) | ⟨id, -, hstranded⟩)
  · rw [h.dropped_eq_nil] at hdropped
    cases hdropped
  · rw [h.forgotten_eq_nil] at hforgotten
    cases hforgotten
  · rw [Stranded, h.dropped_eq_nil] at hstranded
    cases hstranded

end Loader

/-! ## Runs -/

namespace Machine

open Journal Loader Relation

variable {p : Platform ω χ} {m : Machine ω χ}

theorem callReference_of_loaded {executer : Operation} {reference : Reference} {id : UnitId}
    (hresult : m.loader.cache.result? (reference.key executer.context.text) = some id)
    (hloaded : m.loader.isLoaded id = true) :
    m.callReference executer reference = m.execute id := by
  rw [callReference, hresult]
  exact if_pos hloaded

/-- **Loaded means closed.** Where no wave was dropped, nothing was forgotten, and all lookups of a
key found the same file, each unit in the closure of a loaded unit is loaded, and its references led
to loaded units. So a second pass of a loaded unit executes what its references led to: none of them
is found not to be loaded. -/
theorem Reachable.loaded_closed (h : m.Reachable p) (hconsistent : Consistent m.loader.journal)
    (hintact : Intact m.loader.journal) :
    (∀ id id', m.loader.isLoaded id = true → ReflTransGen m.loader.Leads id id' →
      m.loader.Complete id') ∧
    ∀ pass executer base value reference rest, m.control = .returning (.ok value) →
      m.stack = .compiling pass executer :: base → pass.rest = reference :: rest →
      m.loader.isLoaded pass.unit = true →
      ∃ id, m.loader.isLoaded id = true ∧ m.step p =
        ({ m with stack := base }.push (.compiling { pass with rest } executer)).execute id := by
  have htracked := h.tracked hconsistent
  have hclosed : ∀ id id', m.loader.isLoaded id = true → ReflTransGen m.loader.Leads id id' →
      m.loader.Complete id' := fun id id' hloaded hleads ↦
    (htracked.traced.closure_complete_iff hloaded).mpr
      (fun _ _ _ _ _ _ hsuspect ↦ absurd hsuspect (not_suspect hintact _)) id' hleads
  refine ⟨hclosed, fun pass executer base value reference rest hcontrol hs hrest hloaded ↦ ?_⟩
  obtain ⟨s, hs', hdeclared, hcontext⟩ := htracked.fits _ (hs ▸ List.mem_cons_self)
  obtain ⟨unit, hunit, -, hled⟩ := hclosed _ _ hloaded .refl
  rw [standing?_of_unit? hunit] at hs'
  cases hs'
  obtain ⟨id, hresult, hid⟩ := hled reference (hdeclared reference (hrest ▸ List.mem_cons_self))
  refine ⟨id, hid, ?_⟩
  have hkey : reference.key executer.context.text = unit.info.key reference := by
    rw [hcontext]; rfl
  rw [Machine.step, hcontrol, hs]
  simp only [resume, continueCompilation, hrest]
  exact callReference_of_loaded (hkey ▸ hresult) hid

/-- Two files that refer to each other have been loaded, one of them is compiled, and the other is
executed for it. -/
def executingPair : Machine (List Request) Unit :=
  let load : Code (List Request) := .openUnit (.file "/a".toList) fun
    | .settled (.ok id) => .loadDependencies id none fun _ ↦
        .drive fun _ ↦ .execute id fun outcome ↦ .finish outcome
    | _ => .finish (.ok .undefined)
  run (Project.pair.platform List.head?) 15
    { loader := { world := [], base := .file "/".toList }, control := .running load }

/-- Whether a loaded unit is being compiled whose references have not all been executed. -/
def compilesLoaded (m : Machine ω χ) : Bool :=
  match m.control, m.stack with
  | .returning (.ok _), .compiling pass _ :: _ =>
    !pass.rest.isEmpty && m.loader.isLoaded pass.unit
  | _, _ => false

theorem loaded_closed_executingPair :
    executingPair.loader.Complete 0 ∧ executingPair.loader.Complete 1 ∧
      ∃ id frame base, executingPair.loader.isLoaded id = true ∧
        executingPair.step (Project.pair.platform List.head?) =
          ({ executingPair with stack := base }.push frame).execute id := by
  have hreachable : executingPair.Reachable (Project.pair.platform List.head?) :=
    (Reachable.start (isFresh_mk _ _) _).run _ 15
  have hconsistent : Consistent executingPair.loader.journal := by decide +kernel
  have hintact : Intact executingPair.loader.journal := by decide +kernel
  obtain ⟨hclosed, hexecutes⟩ := Reachable.loaded_closed hreachable hconsistent hintact
  refine ⟨hclosed 0 0 (by decide +kernel) .refl, hclosed 1 1 (by decide +kernel) .refl, ?_⟩
  have htop : executingPair.compilesLoaded = true := by decide +kernel
  rw [compilesLoaded] at htop
  split at htop
  case h_1 pass executer base hcontrol hs =>
    obtain ⟨hrest, hloaded⟩ := Bool.and_eq_true_iff.mp htop
    have hne : pass.rest ≠ [] := by simpa using hrest
    obtain ⟨reference, rest, hrest⟩ := List.exists_cons_of_ne_nil hne
    obtain ⟨id, hid, hstep⟩ :=
      hexecutes pass executer base _ reference rest hcontrol hs hrest hloaded
    exact ⟨id, _, base, hid, hstep⟩
  case h_2 => cases htop

end Machine

end ScriptLoader
