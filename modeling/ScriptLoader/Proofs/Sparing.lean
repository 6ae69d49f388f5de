import ScriptLoader.Proofs.Shifts
import ScriptLoader.Proofs.Strokes

/-!
# What executes nothing

Units are executed when code asks for it, for an import, and for the second pass of a unit that
depends on them. Nothing else touches the body of a unit or calls one. Making units in particular
does not: the units that there were stay as they are.
-/

namespace ScriptLoader

variable {ω χ : Type}

/-- Whether an event tells of a unit that is executed. -/
def Event.isExecution : Event → Bool
  | compiled _ | called _ => true
  | _ => false

theorem Event.isExecution_of_isShift {e : Event} (h : e.isShift = true) :
    e.isExecution = false := by
  cases e <;> first | rfl | cases h

theorem Event.isExecution_of_isStroke {e : Event} (h : e.isStroke = true) :
    e.isExecution = false := by
  cases e <;> first | rfl | cases h

namespace Loader

def body? (l : Loader ω χ) (id : UnitId) : Option (Body ω χ) := (l.unit? id).map (·.body)

theorem body?_congr {l l' : Loader ω χ} (h : l'.units = l.units) (id : UnitId) :
    l'.body? id = l.body? id := by
  rw [body?, unit?, h, body?, unit?]

/-- A change that leaves all bodies alone and executes nothing. -/
structure Spares (l l' : Loader ω χ) : Prop where
  bodies : ∀ {id body}, l.body? id = some body → l'.body? id = some body
  journal : ∃ events, l'.journal = events ++ l.journal ∧ ∀ e ∈ events, e.isExecution = false

namespace Spares

variable {l l' l'' : Loader ω χ}

theorem trans (h : l.Spares l') (h' : l'.Spares l'') : l.Spares l'' where
  bodies hbody := h'.bodies (h.bodies hbody)
  journal := by
    obtain ⟨events, heq, hevents⟩ := h.journal
    obtain ⟨events', heq', hevents'⟩ := h'.journal
    refine ⟨events' ++ events, by rw [heq', heq, List.append_assoc], fun e he ↦ ?_⟩
    exact (List.mem_append.mp he).elim (hevents' e) (hevents e)

theorem not_isExecution (h : l.Spares l') (hl : ∀ e ∈ l.journal, e.isExecution = false) :
    ∀ e ∈ l'.journal, e.isExecution = false := by
  obtain ⟨events, heq, hevents⟩ := h.journal
  rw [heq]
  exact List.forall_mem_append.mpr ⟨hevents, hl⟩

theorem of_units (hunits : l'.units = l.units)
    (hjournal : ∃ events, l'.journal = events ++ l.journal ∧ ∀ e ∈ events, e.isExecution = false) :
    l.Spares l' where
  bodies hbody := (body?_congr hunits _).trans hbody
  journal := hjournal

theorem of_same (hunits : l'.units = l.units) (hjournal : l'.journal = l.journal) : l.Spares l' :=
  .of_units hunits ⟨[], hjournal, by simp⟩

theorem refl (l : Loader ω χ) : l.Spares l := of_same rfl rfl

theorem of_bodies (hbodies : ∀ id, l'.body? id = l.body? id) (hjournal : l'.journal = l.journal) :
    l.Spares l' where
  bodies hbody := (hbodies _).trans hbody
  journal := ⟨[], hjournal, by simp⟩

end Spares

theorem spares_world (l : Loader ω χ) (world : ω) : l.Spares { l with world } := .of_same rfl rfl

theorem spares_record (l : Loader ω χ) {e : Event} (h : e.isExecution = false) :
    l.Spares (l.record e) :=
  .of_units rfl ⟨[e], rfl, by simpa using h⟩

theorem spares_modifyUnit (l : Loader ω χ) (id : UnitId)
    {change : LoadedUnit ω χ → LoadedUnit ω χ} (h : ∀ unit, (change unit).body = unit.body) :
    l.Spares (l.modifyUnit id change) := by
  refine .of_bodies (fun other ↦ ?_) rfl
  rw [body?, modifyUnit, unit?, List.getElem?_modify, body?, unit?]
  cases l.units[other]? with
  | none => rfl
  | some unit => by_cases hid : id = other <;> simp [hid, h]

theorem spares_operation (l : Loader ω χ) (kind : OperationKind) (context : Url) :
    l.Spares (l.operation kind context).1 := by
  rw [operation]
  split
  · exact .refl l
  · exact .of_same rfl rfl

theorem Shifts.spares {l l' : Loader ω χ} (h : l.Shifts l') : l.Spares l' := by
  refine h.induct Spares.refl Spares.trans fun {l l'} hshift ↦ ?_
  cases hshift with
  | record hshift => exact l.spares_record (Event.isExecution_of_isShift hshift)
  | status | callbacks => exact l.spares_modifyUnit _ fun _ ↦ rfl
  | operation kind context => exact l.spares_operation kind context
  | aside | mark => exact .of_same rfl rfl

theorem spares_addUnit (l : Loader ω χ) (unit : LoadedUnit ω χ) : l.Spares (l.addUnit unit).1 where
  bodies {id body} hbody := by
    obtain ⟨old, hold, rfl⟩ := Option.map_eq_some_iff.mp hbody
    have hlt : id < l.units.length := (List.getElem?_eq_some_iff.mp hold).1
    have hadded : (l.addUnit unit).1.unit? id = some old :=
      (List.getElem?_append_left hlt).trans hold
    rw [body?, hadded]
    rfl
  journal := ⟨[], rfl, by simp⟩

/-- However units are made, those that there were are left alone. -/
theorem Strokes.spares {p : Platform ω χ} {asked : Option (Compiler ω χ)} {l l' : Loader ω χ}
    (h : l.Strokes p asked l') : l.Spares l' := by
  refine h.induct Spares.refl Spares.trans fun {l l'} hstroke ↦ ?_
  cases hstroke with
  | record hstroke => exact l.spares_record (Event.isExecution_of_isStroke hstroke)
  | add => exact l.spares_addUnit _
  | code => exact l.spares_modifyUnit _ fun _ ↦ rfl
  | world | name | file => exact .of_same rfl rfl

end Loader

end ScriptLoader
