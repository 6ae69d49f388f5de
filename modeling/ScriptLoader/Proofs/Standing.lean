import Mathlib.Data.List.Basic
import ScriptLoader.Loader.Step

/-!
# How units stand

The loading of files goes by what a unit declares, how far it has been loaded and which callbacks
wait for it; its code does not matter. All this is the *standing* of a unit. Executing a unit
changes no standing, and making a unit adds one.
-/

namespace ScriptLoader

variable {ω χ : Type}

/-- What of a unit the loading of files goes by. -/
structure Standing (ω : Type) where
  url : Url
  directory : Url
  dependencies : List Reference
  status : LoadStatus
  callbacks : List (Callback ω)

namespace Standing

def key (s : Standing ω) (r : Reference) : String := r.key s.directory.text

/-- What is true of a unit that has just been made. -/
structure IsNew (s : Standing ω) : Prop where
  status : s.status = if s.dependencies.isEmpty then .loaded else .unloaded
  callbacks : s.callbacks = []

theorem IsNew.not_loading {s : Standing ω} (h : s.IsNew) : s.status ≠ .loading := by
  rw [h.status]; split <;> simp

theorem IsNew.dependencies_eq_nil {s : Standing ω} (h : s.IsNew) (hs : s.status = .loaded) :
    s.dependencies = [] := by
  have := h.status
  rw [hs] at this
  by_contra hne
  rw [if_neg (by simpa using hne)] at this
  cases this

theorem IsNew.dependencies_ne_nil {s : Standing ω} (h : s.IsNew) (hs : s.status = .unloaded) :
    s.dependencies ≠ [] := by
  have := h.status
  rw [hs] at this
  rintro hnil
  rw [if_pos (by simp [hnil])] at this
  cases this

end Standing

namespace LoadedUnit

def standing (unit : LoadedUnit ω χ) : Standing ω :=
  ⟨unit.info.url, unit.info.directory, unit.info.dependencies, unit.info.status, unit.callbacks⟩

theorem standing_isNew {url : Url} {dependencies : List Reference} {code map : Option String}
    {info : UnitInfo} (h : UnitInfo.create url dependencies code map = .ok info)
    (body : Body ω χ) :
    ({ info, body } : LoadedUnit ω χ).standing.IsNew ∧ info.url = url ∧
      info.dependencies = dependencies ∧ url.directory = .ok info.directory := by
  rw [UnitInfo.create] at h
  split at h
  · cases h
  · cases h
    exact ⟨⟨rfl, rfl⟩, rfl, rfl, ‹_›⟩

end LoadedUnit

namespace Loader

variable (l : Loader ω χ)

def standing? (id : UnitId) : Option (Standing ω) := (l.unit? id).map LoadedUnit.standing

variable {l}

theorem standing?_eq_some {id : UnitId} {s : Standing ω} :
    l.standing? id = some s ↔ ∃ unit, l.unit? id = some unit ∧ unit.standing = s :=
  Option.map_eq_some_iff

theorem standing?_of_unit? {id : UnitId} {unit : LoadedUnit ω χ} (h : l.unit? id = some unit) :
    l.standing? id = some unit.standing := by
  rw [standing?, h]; rfl

theorem standing?_eq_none {id : UnitId} : l.standing? id = none ↔ l.unit? id = none :=
  Option.map_eq_none_iff

theorem standing?_congr {l l' : Loader ω χ} (h : l'.units = l.units) (id : UnitId) :
    l'.standing? id = l.standing? id := by
  rw [standing?, unit?, h, standing?, unit?]

theorem standing?_modifyUnit (l : Loader ω χ) (id other : UnitId)
    (change : LoadedUnit ω χ → LoadedUnit ω χ) :
    (l.modifyUnit id change).standing? other
      = (l.unit? other).map fun unit ↦ if id = other then (change unit).standing else unit.standing
      := by
  rw [standing?, modifyUnit, unit?, List.getElem?_modify, unit?]
  cases l.units[other]? with
  | none => rfl
  | some unit => by_cases h : id = other <;> simp [h]

theorem standing?_modifyUnit_of_same (l : Loader ω χ) (id : UnitId)
    {f : LoadedUnit ω χ → LoadedUnit ω χ} (h : ∀ unit, (f unit).standing = unit.standing)
    (other : UnitId) : (l.modifyUnit id f).standing? other = l.standing? other := by
  rw [standing?_modifyUnit, standing?]
  simp [h]

theorem standing?_setStatus (l : Loader ω χ) (id other : UnitId) (status : LoadStatus) :
    (l.setStatus id status).standing? other
      = (l.standing? other).map fun s ↦ if id = other then { s with status } else s := by
  rw [setStatus, standing?_modifyUnit, standing?, Option.map_map]
  rfl

theorem setStatuses_eq (l : Loader ω χ) (ids : List UnitId) (status : LoadStatus) :
    l.setStatuses ids status = { l with units := (l.setStatuses ids status).units } := by
  induction ids generalizing l with
  | nil => rfl
  | cons id rest ih =>
    rw [setStatuses, List.foldl_cons, ← setStatuses, ih]
    rfl

theorem standing?_setStatuses (l : Loader ω χ) (ids : List UnitId) (status : LoadStatus)
    (other : UnitId) :
    (l.setStatuses ids status).standing? other
      = (l.standing? other).map fun s ↦ if other ∈ ids then { s with status } else s := by
  induction ids generalizing l with
  | nil => simp [setStatuses]
  | cons id rest ih =>
    rw [setStatuses, List.foldl_cons, ← setStatuses, ih, standing?_setStatus, Option.map_map]
    congr 1
    funext s
    by_cases hid : id = other <;> by_cases hrest : other ∈ rest <;>
      simp [hid, hrest, Ne.symm]

theorem standing?_append {l' : Loader ω χ} {unit : LoadedUnit ω χ}
    (h : l'.units = l.units ++ [unit]) (other : UnitId) :
    l'.standing? other
      = if other = l.units.length then some unit.standing else l.standing? other := by
  rw [standing?, unit?, h, standing?, unit?, List.getElem?_append]
  rcases Nat.lt_trichotomy other l.units.length with h | rfl | h
  · rw [if_pos h, if_neg (Nat.ne_of_lt h)]
  · simp
  · rw [if_neg (Nat.not_lt_of_lt h), if_neg (Nat.ne_of_gt h),
      List.getElem?_eq_none (by rw [List.length_singleton]; exact Nat.sub_pos_of_lt h),
      List.getElem?_eq_none (Nat.le_of_lt h)]

theorem standing?_length (l : Loader ω χ) : l.standing? l.units.length = none := by
  rw [standing?_eq_none, unit?, List.getElem?_eq_none (Nat.le_refl _)]

theorem isLoaded_iff {id : UnitId} :
    l.isLoaded id = true ↔ ∃ s, l.standing? id = some s ∧ s.status = .loaded := by
  rw [isLoaded]
  cases h : l.unit? id with
  | none => simp [standing?, h]
  | some unit => simp [standing?, h, LoadedUnit.standing]

end Loader

end ScriptLoader
