import ScriptLoader.Proofs.Importing.Showing
import ScriptLoader.Proofs.Strokes

/-!
# What executing files leaves alone

Executing a file compiles it, and the files that it depends on, unless they have been compiled
before, and calls their bodies. None of this concerns waves and lookups, and when it is over, the
loader is in the middle of the same things as before: all it has done to the units that there were
is to compile some that awaited it.

The same is true of code that only looks at the loader, binds names and changes the world.
-/

namespace ScriptLoader

variable {ω χ : Type}

/-! ## Bodies -/

/-- How far a body has come. -/
inductive Stage where
  | ready
  | pending
  | compiling
  | failed
  deriving DecidableEq, Repr

def Body.stage : Body ω χ → Stage
  | ready _ => .ready
  | pending .. => .pending
  | compiling => .compiling
  | failed => .failed

theorem Body.Begins.stage {p : Platform ω χ} {url : Url} {body : Body ω χ}
    (h : body.Begins p url) : body.stage = .ready ∨ body.stage = .pending := by
  cases h with
  | ready => exact .inl rfl
  | pending => exact .inr rfl

/-- What may have become of the body of a unit, if there was one, when something has been executed.
The body of a new unit has not failed. -/
inductive Stage.Moves : Option Stage → Option Stage → Prop
  | stay (stage) : Moves stage stage
  | compile : Moves (some .pending) (some .ready)
  | add {stage} (usable : stage = .ready ∨ stage = .pending) : Moves none (some stage)

namespace Stage.Moves

variable {s s' s'' : Option Stage}

theorem trans (h : Moves s s') (h' : Moves s' s'') : Moves s s'' := by
  cases h with
  | stay => exact h'
  | compile => cases h'; exact .compile
  | add husable =>
    cases h' with
    | stay => exact .add husable
    | compile => exact .add (.inl rfl)

theorem isSome (h : Moves s s') (hs : s.isSome = true) : s'.isSome = true := by
  cases h <;> first | exact hs | rfl

theorem eq_of (h : Moves s s') {stage : Stage} (hs : s' = some stage)
    (hstage : stage = .compiling ∨ stage = .failed) : s = some stage := by
  cases h with
  | stay => exact hs
  | compile => cases hs; simp at hstage
  | add husable => cases hs; rcases husable with rfl | rfl <;> simp at hstage

end Stage.Moves

namespace Loader

def stage? (l : Loader ω χ) (id : UnitId) : Option Stage := (l.unit? id).map (·.body.stage)

theorem stage?_congr {l l' : Loader ω χ} (h : l'.units = l.units) (id : UnitId) :
    l'.stage? id = l.stage? id := by
  rw [stage?, unit?, h, stage?, unit?]

theorem unit?_modifyUnit (l : Loader ω χ) (id other : UnitId)
    (change : LoadedUnit ω χ → LoadedUnit ω χ) :
    (l.modifyUnit id change).unit? other
      = (l.unit? other).map fun unit ↦ if id = other then change unit else unit := by
  rw [modifyUnit, unit?, List.getElem?_modify, unit?]
  cases l.units[other]? with
  | none => rfl
  | some unit => by_cases h : id = other <;> simp [h]

theorem stage?_modifyUnit (l : Loader ω χ) (id : UnitId)
    {change : LoadedUnit ω χ → LoadedUnit ω χ} (h : ∀ unit, (change unit).body = unit.body)
    (other : UnitId) : (l.modifyUnit id change).stage? other = l.stage? other := by
  rw [stage?, unit?_modifyUnit, stage?, Option.map_map]
  congr 1
  funext unit
  by_cases hid : id = other <;> simp [hid, h]

theorem stage?_setBody (l : Loader ω χ) (id : UnitId) (body : Body ω χ) (other : UnitId) :
    (l.setBody id body).stage? other
      = (l.stage? other).map fun stage ↦ if id = other then body.stage else stage := by
  rw [stage?, setBody, unit?_modifyUnit, stage?, Option.map_map, Option.map_map]
  congr 1
  funext unit
  by_cases hid : id = other <;> simp [hid]

/-! ## Executing -/

/-- A change that executing files may make. -/
structure Executed (l l' : Loader ω χ) : Prop where
  quiet : l.Quiet l'
  executing : l'.executing = l.executing
  base : l'.base = l.base
  released : l'.released = l.released
  stages : ∀ id, Stage.Moves (l.stage? id) (l'.stage? id)

namespace Executed

variable {l l' l'' : Loader ω χ}

theorem trans (h : l.Executed l') (h' : l'.Executed l'') : l.Executed l'' where
  quiet := h.quiet.trans h'.quiet
  executing := h'.executing.trans h.executing
  base := h'.base.trans h.base
  released := h'.released.trans h.released
  stages id := (h.stages id).trans (h'.stages id)

theorem of_units (hquiet : l.Quiet l') (hunits : l'.units = l.units)
    (hexecuting : l'.executing = l.executing) (hbase : l'.base = l.base)
    (hreleased : l'.released = l.released) : l.Executed l' where
  quiet := hquiet
  executing := hexecuting
  base := hbase
  released := hreleased
  stages id := stage?_congr hunits id ▸ .stay _

theorem refl (l : Loader ω χ) : l.Executed l := of_units (.refl l) rfl rfl rfl rfl

end Executed

theorem executed_world (l : Loader ω χ) (world : ω) : l.Executed { l with world } :=
  .of_units (l.quiet_world world) rfl rfl rfl rfl

theorem executed_record (l : Loader ω χ) {e : Event} (h : e.isQuiet = true) :
    l.Executed (l.record e) := .of_units (quiet_record l h) rfl rfl rfl rfl

theorem executed_operation (l : Loader ω χ) (kind : OperationKind) (context : Url) :
    l.Executed (l.operation kind context).1 := by
  refine .of_units (l.quiet_operation kind context) ?_ ?_ ?_ ?_
  all_goals rw [operation]; split <;> rfl

theorem executed_argumentsFor (l : Loader ω χ) (directory : Url) :
    l.Executed (l.argumentsFor directory).1 :=
  (l.executed_operation .executer directory).trans (executed_operation _ .importer directory)

theorem stages_addUnit (l : Loader ω χ) {unit : LoadedUnit ω χ}
    (husable : unit.body.stage = .ready ∨ unit.body.stage = .pending) (id : UnitId) :
    Stage.Moves (l.stage? id) ((l.addUnit unit).1.stage? id) := by
  have hunit : (l.addUnit unit).1.unit? id = (l.units ++ [unit])[id]? := rfl
  rw [stage?, stage?, hunit, unit?]
  rcases Nat.lt_trichotomy id l.units.length with hlt | rfl | hgt
  · rw [List.getElem?_append_left hlt]
    exact .stay _
  · rw [List.getElem?_concat_length, List.getElem?_eq_none (Nat.le_refl _)]
    exact .add husable
  · have hlength : (l.units ++ [unit]).length ≤ id := by simp; omega
    rw [List.getElem?_eq_none hlength, List.getElem?_eq_none (Nat.le_of_lt hgt)]
    exact .stay _

/-! ## Making and compiling units -/

section Strokes

variable {p : Platform ω χ} {asked : Option (Compiler ω χ)} {l₀ l l' : Loader ω χ}

/-- However units are made, the bodies that there were come no further. -/
theorem Strokes.stages (h : l.Strokes p asked l') (id : UnitId) :
    Stage.Moves (l.stage? id) (l'.stage? id) := by
  refine h.induct (R := fun l l' ↦ ∀ id, Stage.Moves (l.stage? id) (l'.stage? id))
    (fun _ _ ↦ .stay _) (fun h h' id ↦ (h id).trans (h' id)) (fun {l l'} hstroke id ↦ ?_) id
  cases hstroke with
  | add _ hbegins => exact l.stages_addUnit hbegins.stage id
  | code =>
    rw [stage?_modifyUnit]
    · exact .stay _
    · exact fun _ ↦ rfl
  | world | record | name | file => exact .stay _

/-- To make units is a change that executing files may make, unless it concerns the loading of
files. -/
theorem Executed.strokes (h₀ : l₀.Executed l) (h : l.Strokes p asked l') (hquiet : l₀.Quiet l') :
    l₀.Executed l' where
  quiet := hquiet
  executing :=
    (h.congr (f := Loader.executing) fun hstroke ↦ by cases hstroke <;> rfl).trans h₀.executing
  base := (h.congr (f := Loader.base) fun hstroke ↦ by cases hstroke <;> rfl).trans h₀.base
  released :=
    (h.congr (f := Loader.released) fun hstroke ↦ by cases hstroke <;> rfl).trans h₀.released
  stages id := (h₀.stages id).trans (h.stages id)

end Strokes

variable (p : Platform ω χ)

theorem executed_unitOfAnswer (l : Loader ω χ) (locator : String) (origin : Option Url)
    (answer : Except LoaderError (Option Resource)) :
    l.Executed (l.unitOfAnswer p locator origin answer).1 :=
  (Executed.refl l).strokes (l.strokes_unitOfAnswer p locator origin answer)
    (l.quiet_unitOfAnswer p locator origin answer)

/-- The second pass sets the code of the unit, not its body. -/
theorem executed_compileUnit (l : Loader ω χ) (pass : SecondPass ω χ) :
    l.Executed (l.compileUnit p pass).1 :=
  (l.executed_record rfl).strokes (l.strokes_compileUnit p pass) (l.quiet_compileUnit p pass)

end Loader

/-! ## Code that leaves the loader alone -/

/-- Code that asks for nothing to be loaded, made or executed, and ends in certain ways. -/
inductive Code.IsPassive (ends : Outcome → Prop) : Code ω → Prop
  | finish {outcome} (allowed : ends outcome) : IsPassive ends (.finish outcome)
  | observe {next} (rest : ∀ view, IsPassive ends (next view)) : IsPassive ends (.observe next)
  | touch {change next} (rest : IsPassive ends next) : IsPassive ends (.touch change next)
  | bindGlobal {name value next} (rest : IsPassive ends next) :
      IsPassive ends (.bindGlobal name value next)
  | operation {kind context next} (rest : ∀ operation, IsPassive ends (next operation)) :
      IsPassive ends (.operation kind context next)

/-- Passive code comes to its end, and makes no change but such as executing files may make. -/
theorem Code.IsPassive.exists_shows {ends : Outcome → Prop} {code : Code ω}
    (h : code.IsPassive ends) (p : Platform ω χ) (l : Loader ω χ) (base : List (Frame ω χ)) :
    ∃ outcome l', Machine.Shows p ⟨l, .running code, base⟩ [] ⟨l', .returning outcome, base⟩ ∧
      ends outcome ∧ l.Executed l' := by
  -- the first request is granted at once
  have hbegin {code next : Code ω} {l l₁ : Loader ω χ} (hexecuted : l.Executed l₁)
      (hstep : Machine.step p ⟨l, .running code, base⟩ = ⟨l₁, .running next, base⟩)
      (hnext : ∃ outcome l', Machine.Shows p ⟨l₁, .running next, base⟩ []
        ⟨l', .returning outcome, base⟩ ∧ ends outcome ∧ l₁.Executed l') :
      ∃ outcome l', Machine.Shows p ⟨l, .running code, base⟩ [] ⟨l', .returning outcome, base⟩ ∧
        ends outcome ∧ l.Executed l' := by
    obtain ⟨outcome, l', hshows, hends, hexecuted'⟩ := hnext
    exact ⟨outcome, l', (Machine.shows_of_running hstep).trans hshows, hends,
      hexecuted.trans hexecuted'⟩
  induction h generalizing l with
  | finish hends => exact ⟨_, l, Machine.shows_of_running rfl, hends, .refl l⟩
  | observe _ ih => exact hbegin (.refl l) rfl (ih l.view l)
  | touch _ ih => exact hbegin (l.executed_world _) rfl (ih _)
  | @bindGlobal name value _ _ ih =>
    have hexecuted : l.Executed { l with scope := l.scope.insert name value } :=
      .of_units (.of_same rfl rfl rfl rfl rfl) rfl rfl rfl rfl
    exact hbegin hexecuted rfl (ih _)
  | @operation kind context _ _ ih =>
    exact hbegin (l.executed_operation kind context) rfl (ih (l.operation kind context).2 _)

end ScriptLoader
