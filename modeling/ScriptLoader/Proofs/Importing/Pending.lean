import Mathlib.Algebra.BigOperators.Group.Finset.Piecewise
import Mathlib.Algebra.Order.Group.Multiset
import ScriptLoader.Proofs.Importing.Executing
import ScriptLoader.Proofs.Waiting

/-!
# Imports that are not over

An import that has been accepted is looked up, and then its callback waits for the unit that was
found, unless it is called at once. So the imports that are not over are those of the lookups under
way and of the callbacks that wait. No change of the loader loses one: a lookup that completes hands
its import on, and the closing of a wave takes the callbacks of its units one after the other.

Nor can new work come up for ever. A reference of a wave is looked up only if its key has not been
asked for, so the keys that have not, together with the lookups under way, become fewer.
-/

namespace ScriptLoader

variable {ω χ : Type}

/-- What an import is for: the URL of the file, and the callback. -/
abbrev Errand (ω : Type) := Url × Option (Outcome → Code ω)

/-- The import that a callback belongs to, which waits for the file of a URL. -/
def Callback.errand? (url : Url) : Callback ω → Option (Errand ω)
  | code _ => none
  | importing deliver => some (url, deliver)

def Lookup.errand? (leads : String → Url) (lookup : Lookup ω) : Option (Errand ω) :=
  match lookup.purpose with
  | .wave => none
  | .importing deliver => some (leads lookup.key, deliver)

def Standing.errands (s : Standing ω) : Multiset (Errand ω) :=
  (s.callbacks.filterMap (Callback.errand? s.url) : List (Errand ω))

theorem Standing.errands_of_callbacks {s : Standing ω} (h : s.callbacks = []) : s.errands = 0 := by
  rw [errands, h]
  rfl

namespace Loader

/-! ## Errands -/

/-- The imports that wait for a unit. -/
def waitingFor (l : Loader ω χ) (id : UnitId) : Multiset (Errand ω) :=
  (l.standing? id).elim 0 Standing.errands

/-- The imports that are looked up. -/
def lookedUp (leads : String → Url) (l : Loader ω χ) : Multiset (Errand ω) :=
  (l.lookups.filterMap (Lookup.errand? leads) : List (Errand ω))

/-- The imports that are not over. -/
def errands (leads : String → Url) (l : Loader ω χ) : Multiset (Errand ω) :=
  l.lookedUp leads + ∑ id ∈ Finset.range l.units.length, l.waitingFor id

variable {leads : String → Url} {l l' : Loader ω χ} {id : UnitId} {s : Standing ω}

theorem waitingFor_of_standing? (h : l.standing? id = some s) : l.waitingFor id = s.errands := by
  rw [waitingFor, h, Option.elim_some]

theorem waitingFor_of_unknown (h : l.standing? id = none) : l.waitingFor id = 0 := by
  rw [waitingFor, h, Option.elim_none]

/-- No import waits for a unit that there is not, so any bound will do. -/
theorem sum_waitingFor {bound : Nat} (h : l.units.length ≤ bound) :
    ∑ id ∈ Finset.range bound, l.waitingFor id
      = ∑ id ∈ Finset.range l.units.length, l.waitingFor id := by
  refine (Finset.sum_subset (Finset.range_subset_range.mpr h) fun id _ hid ↦ ?_).symm
  rw [Finset.mem_range, Nat.not_lt] at hid
  exact waitingFor_of_unknown (standing?_eq_none.mpr (List.getElem?_eq_none hid))

theorem errands_of_waitingFor (h : ∀ id, l'.waitingFor id = l.waitingFor id) :
    l'.errands leads + l.lookedUp leads = l.errands leads + l'.lookedUp leads := by
  have hsum : ∑ id ∈ Finset.range l'.units.length, l'.waitingFor id
      = ∑ id ∈ Finset.range l.units.length, l.waitingFor id := by
    rw [← sum_waitingFor (Nat.le_max_left l'.units.length l.units.length),
      ← sum_waitingFor (Nat.le_max_right l'.units.length l.units.length)]
    exact Finset.sum_congr rfl fun id _ ↦ h id
  rw [errands, errands, hsum, add_right_comm, add_comm (l'.lookedUp leads), add_right_comm]

theorem errands_congr (hlookups : l'.lookups = l.lookups)
    (h : ∀ id, l'.waitingFor id = l.waitingFor id) : l'.errands leads = l.errands leads := by
  have hboth : _ + _ = l.errands leads + _ := errands_of_waitingFor h
  have hsame : l'.lookedUp leads = l.lookedUp leads := by rw [lookedUp, hlookups, lookedUp]
  rw [hsame] at hboth
  exact add_right_cancel hboth

theorem errands_of_waitingFor_ne (h : ∀ other ≠ id, l'.waitingFor other = l.waitingFor other)
    (hlookups : l'.lookups = l.lookups) :
    l'.errands leads + l.waitingFor id = l.errands leads + l'.waitingFor id := by
  generalize hbound : max (max l.units.length l'.units.length) (id + 1) = bound
  have hmem : id ∈ Finset.range bound := Finset.mem_range.mpr (by omega)
  have hrest : ∑ other ∈ Finset.range bound \ {id}, l'.waitingFor other
      = ∑ other ∈ Finset.range bound \ {id}, l.waitingFor other := by
    refine Finset.sum_congr rfl fun other hother ↦ h other ?_
    exact Finset.notMem_singleton.mp (Finset.mem_sdiff.mp hother).2
  have hsame : l'.lookedUp leads = l.lookedUp leads := by rw [lookedUp, hlookups, lookedUp]
  have hl : ∑ other ∈ Finset.range bound, l.waitingFor other = _ := sum_waitingFor (by omega)
  have hl' : ∑ other ∈ Finset.range bound, l'.waitingFor other = _ := sum_waitingFor (by omega)
  rw [Finset.sum_eq_add_sum_sdiff_singleton_of_mem hmem] at hl hl'
  rw [errands, errands, ← hl, ← hl', hrest, hsame]
  ac_rfl

theorem waitingFor_quiet (h : l.Quiet l') (id : UnitId) : l'.waitingFor id = l.waitingFor id := by
  cases hs : l.standing? id with
  | some s => rw [waitingFor_of_standing? hs, waitingFor_of_standing? (h.known hs)]
  | none =>
    rw [waitingFor_of_unknown hs]
    cases hs' : l'.standing? id with
    | none => exact waitingFor_of_unknown hs'
    | some s' =>
      rcases h.fresh hs' with hold | ⟨-, hnew⟩
      · rw [hs] at hold
        cases hold
      · rw [waitingFor_of_standing? hs', Standing.errands_of_callbacks hnew.callbacks]

theorem errands_quiet (h : l.Quiet l') : l'.errands leads = l.errands leads :=
  errands_congr h.lookups (waitingFor_quiet h)

/-- Moving units along leaves alone what waits for them. -/
theorem waitingFor_of_map {change : UnitId → Standing ω → Standing ω}
    (h : ∀ id, l'.standing? id = (l.standing? id).map (change id))
    (hchange : ∀ id s, (change id s).errands = s.errands) (id : UnitId) :
    l'.waitingFor id = l.waitingFor id := by
  rw [waitingFor, waitingFor, h]
  cases l.standing? id with
  | none => rfl
  | some s => exact hchange id s

theorem errands_enroll (l : Loader ω χ) (wave : Wave) (id : UnitId)
    (dependencies : List Reference) :
    (l.enroll wave id dependencies).errands leads = l.errands leads :=
  errands_congr rfl (waitingFor_of_map (l.standing?_enroll wave id dependencies)
    fun _ _ ↦ by split <;> rfl)

theorem errands_close (l : Loader ω χ) (wave : Wave) :
    (l.close wave).errands leads = l.errands leads :=
  errands_congr (l.lookups_close wave) (waitingFor_of_map (l.standing?_close wave)
    fun _ _ ↦ by split <;> rfl)

/-- The import that a lookup is for is not over. -/
theorem errands_enlist (l : Loader ω χ) (world : ω) (request : Request) (lookup : Lookup ω) :
    (l.enlist world request lookup).errands leads
      = l.errands leads + ((lookup.errand? leads).toList : Multiset (Errand ω)) := by
  have hlookedUp : (l.enlist world request lookup).lookedUp leads
      = l.lookedUp leads + ((lookup.errand? leads).toList : Multiset (Errand ω)) := by
    have hlookups : (l.enlist world request lookup).lookups = l.lookups ++ [lookup] := rfl
    rw [lookedUp, hlookups, List.filterMap_append, ← Multiset.coe_add, lookedUp]
    cases h : lookup.errand? leads <;> simp [h]
  rw [errands, hlookedUp, add_right_comm]
  rfl

theorem errands_leave {before after : List (Lookup ω)} {lookup : Lookup ω}
    (hsplit : l.lookups = before ++ lookup :: after) (world : ω) :
    (l.leave world (before ++ after)).errands leads
      + ((lookup.errand? leads).toList : Multiset (Errand ω)) = l.errands leads := by
  have hlookedUp : (l.leave world (before ++ after)).lookedUp leads
      + ((lookup.errand? leads).toList : Multiset (Errand ω)) = l.lookedUp leads := by
    have hlookups : (l.leave world (before ++ after)).lookups = before ++ after := rfl
    have hcons : (lookup :: after).filterMap (Lookup.errand? leads)
        = (lookup.errand? leads).toList ++ after.filterMap (Lookup.errand? leads) := by
      cases h : lookup.errand? leads <;> simp [h]
    rw [lookedUp, lookedUp, hlookups, hsplit, List.filterMap_append, List.filterMap_append, hcons]
    simp only [← Multiset.coe_add]
    ac_rfl
  rw [errands, add_right_comm, hlookedUp]
  rfl

theorem standing?_await (l : Loader ω χ) (id : UnitId) (callback : Option (Callback ω))
    (other : UnitId) :
    (l.await id callback).standing? other = (l.standing? other).map fun s ↦
      if id = other then { s with callbacks := s.callbacks ++ callback.toList } else s :=
  l.standing?_modifyCallbacks id (· ++ callback.toList) other

theorem errands_await (hs : l.standing? id = some s) (deliver : Option (Outcome → Code ω)) :
    (l.await id (some (.importing deliver))).errands leads
      = l.errands leads + {(s.url, deliver)} := by
  have hother : ∀ other ≠ id, (l.await id (some (.importing deliver))).waitingFor other
      = l.waitingFor other := by
    intro other hne
    rw [waitingFor, standing?_await, waitingFor]
    simp [hne.symm]
  have hadded : (l.await id (some (.importing deliver))).waitingFor id
      = l.waitingFor id + {(s.url, deliver)} := by
    rw [waitingFor_of_standing? (standing?_await_self hs _), waitingFor_of_standing? hs,
      Standing.errands, List.filterMap_append]
    rfl
  have hboth : _ + _ = l.errands leads + _ := errands_of_waitingFor_ne hother rfl
  rw [hadded, ← add_assoc, add_right_comm] at hboth
  exact add_right_cancel hboth

theorem errands_take (l : Loader ω χ) (id : UnitId) :
    (l.modifyUnit id fun unit ↦ { unit with callbacks := [] }).errands leads + l.waitingFor id
      = l.errands leads := by
  have htaken := l.standing?_modifyCallbacks id fun _ ↦ []
  have hother : ∀ other ≠ id, (l.modifyUnit id fun unit ↦ { unit with callbacks := [] }).waitingFor
      other = l.waitingFor other := by
    intro other hne
    rw [waitingFor, htaken, waitingFor]
    simp [hne.symm]
  have hboth : _ + _ = l.errands leads + _ := errands_of_waitingFor_ne hother rfl
  have hnone : (l.modifyUnit id fun unit ↦ { unit with callbacks := [] }).waitingFor id = 0 := by
    rw [waitingFor, htaken]
    cases l.standing? id with
    | none => rfl
    | some s =>
      rw [Option.map_some, if_pos rfl, Option.elim_some]
      exact Standing.errands_of_callbacks rfl
  rwa [hnone, add_zero] at hboth

/-! ## Work that is left -/

/-- How many keys have not been asked for. -/
def unmarked (keys : List String) (l : Loader ω χ) : Nat :=
  keys.countP fun key ↦ !l.cache.isMarked key

/-- The work that is left: the lookups that are under way, and those that may still be started. -/
def remaining (keys : List String) (l : Loader ω χ) : Nat := l.lookups.length + l.unmarked keys

/-- Nothing has been added to the work that is left: a lookup may have been started for a key that
had not been asked for. -/
structure Nears (keys : List String) (l l' : Loader ω χ) : Prop where
  unmarked : l'.unmarked keys ≤ l.unmarked keys
  remaining : l'.remaining keys ≤ l.remaining keys
  base : l'.base = l.base

variable {keys : List String} {l'' : Loader ω χ}

theorem Nears.trans (h : l.Nears keys l') (h' : l'.Nears keys l'') : l.Nears keys l'' :=
  ⟨h'.unmarked.trans h.unmarked, h'.remaining.trans h.remaining, h'.base.trans h.base⟩

theorem unmarked_congr (h : l'.cache.markers = l.cache.markers) :
    l'.unmarked keys = l.unmarked keys := by
  simp only [unmarked, ResolutionCache.isMarked, h]

theorem Nears.of_same (hlookups : l'.lookups = l.lookups)
    (hmarkers : l'.cache.markers = l.cache.markers) (hbase : l'.base = l.base) :
    l.Nears keys l' := by
  have hsame : l'.unmarked keys = l.unmarked keys := unmarked_congr hmarkers
  exact ⟨hsame.le, by rw [Loader.remaining, Loader.remaining, hlookups, hsame], hbase⟩

theorem Nears.refl (keys : List String) (l : Loader ω χ) : l.Nears keys l := .of_same rfl rfl rfl

theorem Executed.nears (h : l.Executed l') : l.Nears keys l' :=
  .of_same h.quiet.lookups h.quiet.markers h.base

theorem unmarked_ask {key : String} (hkey : key ∈ keys) (hunmarked : key ∉ l.cache.markers) :
    (l.ask key).unmarked keys < l.unmarked keys := by
  have hmarks : ∀ other, (l.ask key).cache.isMarked other = true ↔
      other = key ∨ l.cache.isMarked other = true := by
    intro other
    rw [ResolutionCache.isMarked_iff, ResolutionCache.isMarked_iff]
    exact l.cache.mem_markers_mark key other
  have hnot : l.cache.isMarked key = false := by
    rw [Bool.eq_false_iff]
    exact hunmarked ∘ (l.cache.isMarked_iff key).mp
  obtain ⟨before, after, rfl⟩ := List.append_of_mem hkey
  have hfewer : ∀ others : List String, (l.ask key).unmarked others ≤ l.unmarked others := by
    intro others
    refine List.countP_mono_left fun other _ hother ↦ ?_
    rw [Bool.not_eq_true', Bool.eq_false_iff] at hother ⊢
    exact fun hold ↦ hother ((hmarks other).mpr (.inr hold))
  have hmarked : (l.ask key).cache.isMarked key = true := (hmarks key).mpr (.inl rfl)
  have hbefore := hfewer before
  have hafter := hfewer after
  simp only [Loader.unmarked, List.countP_append, List.countP_cons, hmarked, hnot] at *
  simp only [Bool.not_true, Bool.not_false, Bool.false_eq_true, if_true, if_false]
  omega

theorem nears_enlist {key : String} (hkey : key ∈ keys) (hunmarked : key ∉ l.cache.markers)
    (world : ω) (request : Request) (lookup : Lookup ω) :
    l.Nears keys ((l.ask key).enlist world request lookup) := by
  have hfewer := unmarked_ask hkey hunmarked
  have hsame :
      ((l.ask key).enlist world request lookup).unmarked keys = (l.ask key).unmarked keys := rfl
  have hlonger : ((l.ask key).enlist world request lookup).lookups.length = l.lookups.length + 1 :=
    List.length_append
  refine ⟨hfewer.le, ?_, rfl⟩
  rw [remaining, remaining, hsame, hlonger]
  omega

end Loader

end ScriptLoader
