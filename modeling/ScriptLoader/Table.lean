/-!
# Tables

A finite map as a list of bindings. A key is bound at most once, so the number of bindings is the
number of keys; their order carries no meaning. Binding a key changes what is bound to that key and
nothing else.
-/

namespace ScriptLoader

structure Table (κ α : Type) where
  bindings : List (κ × α) := []
  deriving DecidableEq, Repr, Inhabited

namespace Table

variable {κ α : Type} [DecidableEq κ]

def get? (table : Table κ α) (key : κ) : Option α := table.bindings.lookup key

/-- Binds a key, in place of an earlier binding if there is one. -/
def insert (table : Table κ α) (key : κ) (value : α) : Table κ α :=
  ⟨(key, value) :: table.bindings.filter fun binding ↦ binding.1 ≠ key⟩

def size (table : Table κ α) : Nat := table.bindings.length

/-- The table of a list of bindings; of two for one key the later counts. -/
def ofList (bindings : List (κ × α)) : Table κ α :=
  bindings.foldl (fun table binding ↦ table.insert binding.1 binding.2) ⟨[]⟩

/-! ## What is bound -/

@[simp] theorem get?_empty (key : κ) : ({} : Table κ α).get? key = none := rfl

private theorem lookup_filter_ne (bindings : List (κ × α)) {key other : κ} (h : other ≠ key) :
    (bindings.filter fun binding ↦ binding.1 ≠ key).lookup other = bindings.lookup other := by
  induction bindings with
  | nil => rfl
  | cons binding rest ih =>
    obtain ⟨name, value⟩ := binding
    by_cases hname : name = key
    · subst hname
      rw [List.filter_cons_of_neg (by simp), ih, List.lookup_cons, beq_false_of_ne h]
    · rw [List.filter_cons_of_pos (by simpa using hname), List.lookup_cons, List.lookup_cons, ih]

theorem get?_insert (table : Table κ α) (key other : κ) (value : α) :
    (table.insert key value).get? other = if other = key then some value else table.get? other := by
  rw [insert, get?, get?, List.lookup_cons]
  by_cases h : other = key
  · rw [if_pos h, h, beq_self_eq_true]
  · rw [if_neg h, beq_false_of_ne h]
    exact lookup_filter_ne _ h

theorem mem_of_get? {table : Table κ α} {key : κ} {value : α} (h : table.get? key = some value) :
    (key, value) ∈ table.bindings := by
  obtain ⟨bindings⟩ := table
  rw [get?] at h
  induction bindings with
  | nil => cases h
  | cons binding rest ih =>
    rw [List.lookup_cons] at h
    split at h
    next hkey =>
      obtain rfl := Option.some.inj h
      rw [eq_of_beq hkey]
      exact List.mem_cons_self
    next => exact List.mem_cons_of_mem _ (ih h)

end Table

end ScriptLoader
