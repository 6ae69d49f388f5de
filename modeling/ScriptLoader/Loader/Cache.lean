import ScriptLoader.Config.Basic
import ScriptLoader.Loader.Unit

/-!
# The tables of a loader

What a loader remembers between loads: the operations bound to each directory, which unit each
reference led to, which references have been asked for, and the unit of each URL. A reference is
remembered by its key, see `Reference.key`.

The type of units is a parameter; a loader keeps their numbers.
-/

namespace ScriptLoader

/-- What an operation does for the code that holds it. -/
inductive OperationKind where
  /-- Looks up references. -/
  | searcher
  /-- Loads and executes a file, some time. -/
  | importer
  /-- Executes a file that is loaded, at once. -/
  | executer
  deriving DecidableEq, Repr

/-- An operation bound to a directory. It is made once for each directory; its serial number tells
it from one made after a reset. -/
structure Operation where
  kind : OperationKind
  serial : Nat
  context : Url
  /-- The substitutions in force when it was made. -/
  substitutions : Substitutions

/-- The tables of a loader, over a type of units. -/
structure ResolutionCache (υ : Type) where
  operations : Table (OperationKind × String) Operation := {}
  /-- The unit that each reference led to, by key. -/
  results : Table String υ := {}
  /-- The keys of the references that have been asked for. -/
  markers : List String := []
  units : Table Url υ := {}

namespace ResolutionCache

variable {υ : Type}

/-- The unit that a reference led to. -/
def result? (cache : ResolutionCache υ) (key : String) : Option υ := cache.results.get? key

def insertResult (cache : ResolutionCache υ) (key : String) (unit : υ) : ResolutionCache υ :=
  { cache with results := cache.results.insert key unit }

/-- Whether a reference has been asked for. -/
def isMarked (cache : ResolutionCache υ) (key : String) : Bool := cache.markers.contains key

def mark (cache : ResolutionCache υ) (key : String) : ResolutionCache υ :=
  if cache.isMarked key then cache else { cache with markers := key :: cache.markers }

def unit? (cache : ResolutionCache υ) (url : Url) : Option υ := cache.units.get? url

def insertUnit (cache : ResolutionCache υ) (url : Url) (unit : υ) : ResolutionCache υ :=
  { cache with units := cache.units.insert url unit }

/-- How many URLs have a unit. -/
def unitCount (cache : ResolutionCache υ) : Nat := cache.units.size

/-! ## What the tables hold -/

variable (cache : ResolutionCache υ)

@[simp] theorem result?_empty (key : String) : ({} : ResolutionCache υ).result? key = none := rfl

@[simp] theorem unit?_empty (url : Url) : ({} : ResolutionCache υ).unit? url = none := rfl

theorem result?_insertResult (key other : String) (unit : υ) :
    (cache.insertResult key unit).result? other
      = if other = key then some unit else cache.result? other :=
  Table.get?_insert _ _ _ _

theorem unit?_insertUnit (url other : Url) (unit : υ) :
    (cache.insertUnit url unit).unit? other
      = if other = url then some unit else cache.unit? other :=
  Table.get?_insert _ _ _ _

theorem isMarked_iff (key : String) : cache.isMarked key = true ↔ key ∈ cache.markers := by
  rw [isMarked, List.contains_iff_mem]

theorem mem_markers_mark (key other : String) :
    other ∈ (cache.mark key).markers ↔ other = key ∨ other ∈ cache.markers := by
  rw [mark]
  split
  case isTrue h =>
    rw [isMarked_iff] at h
    exact ⟨Or.inr, fun h' ↦ h'.elim (· ▸ h) id⟩
  case isFalse => exact List.mem_cons

theorem markers_mark {key : String} (h : key ∉ cache.markers) :
    (cache.mark key).markers = key :: cache.markers := by
  rw [mark, if_neg (by rwa [isMarked_iff])]

@[simp] theorem results_mark (key : String) : (cache.mark key).results = cache.results := by
  rw [mark]; split <;> rfl

@[simp] theorem units_mark (key : String) : (cache.mark key).units = cache.units := by
  rw [mark]; split <;> rfl

@[simp] theorem operations_mark (key : String) :
    (cache.mark key).operations = cache.operations := by
  rw [mark]; split <;> rfl

@[simp] theorem result?_mark (key other : String) :
    (cache.mark key).result? other = cache.result? other := by
  rw [result?, results_mark, result?]

@[simp] theorem unit?_mark (key : String) (url : Url) :
    (cache.mark key).unit? url = cache.unit? url := by
  rw [unit?, units_mark, unit?]

end ResolutionCache

end ScriptLoader
