import ScriptLoader.Proofs.Resetting.Likeness

/-!
# Loaders stay alike

Whatever a loader does by itself keeps loaders alike, and comes to results that are alike. This is
shown for one function after the other.
-/

namespace ScriptLoader

variable {ω χ : Type}

namespace Likeness

variable {R : Likeness ω χ} {p : Platform ω χ} {l l' : Loader ω χ}

/-! ## Lists that are alike -/

section

variable {α β : Type} {rel : α → β → Prop} {as : List α} {bs : List β}

theorem rel_getElem? (h : List.Forall₂ rel as bs) (index : Nat) :
    Option.Rel rel as[index]? bs[index]? := by
  induction h generalizing index with
  | nil => exact .none
  | cons head _ ih =>
    cases index with
    | zero => exact .some head
    | succ index => exact ih index

theorem rel_modify (h : List.Forall₂ rel as bs) (index : Nat) {change : α → α} {change' : β → β}
    (hchange : ∀ {a b}, rel a b → rel (change a) (change' b)) :
    List.Forall₂ rel (as.modify index change) (bs.modify index change') := by
  induction h generalizing index with
  | nil => cases index <;> exact .nil
  | cons head tail ih =>
    cases index with
    | zero => exact .cons (hchange head) tail
    | succ index => exact .cons head (ih index)

theorem map_eq_of_rel (h : List.Forall₂ rel as bs) {γ : Type} {f : α → γ} {g : β → γ}
    (heq : ∀ {a b}, rel a b → f a = g b) : as.map f = bs.map g := by
  rw [← List.forall₂_eq_eq_eq, List.forall₂_map_left_iff, List.forall₂_map_right_iff]
  exact h.imp fun _ _ ↦ heq

theorem rel_filter (h : List.Forall₂ rel as bs) {f : α → Bool} {g : β → Bool}
    (heq : ∀ {a b}, rel a b → f a = g b) : List.Forall₂ rel (as.filter f) (bs.filter g) :=
  List.rel_filter (fun a b hrel ↦ show f a = true ↔ g b = true by rw [heq hrel]) h

theorem countP_eq_of_rel (h : List.Forall₂ rel as bs) {f : α → Bool} {g : β → Bool}
    (heq : ∀ {a b}, rel a b → f a = g b) : as.countP f = bs.countP g := by
  rw [List.countP_eq_length_filter, List.countP_eq_length_filter]
  exact (rel_filter h heq).length_eq

theorem rel_find? (h : List.Forall₂ rel as bs) {f : α → Bool} {g : β → Bool}
    (heq : ∀ {a b}, rel a b → f a = g b) : Option.Rel rel (as.find? f) (bs.find? g) := by
  induction h with
  | nil => exact .none
  | @cons a b _ _ head _ ih =>
    rw [List.find?_cons, List.find?_cons, heq head]
    cases g b with
    | true => exact .some head
    | false => exact ih

theorem rel_eraseP (h : List.Forall₂ rel as bs) {f : α → Bool} {g : β → Bool}
    (heq : ∀ {a b}, rel a b → f a = g b) : List.Forall₂ rel (as.eraseP f) (bs.eraseP g) := by
  induction h with
  | nil => exact .nil
  | @cons a b _ _ head tail ih =>
    rw [List.eraseP_cons, List.eraseP_cons, heq head]
    cases g b with
    | true => exact tail
    | false => exact .cons head ih

theorem isEmpty_eq_of_rel (h : List.Forall₂ rel as bs) : as.isEmpty = bs.isEmpty := by
  cases h <;> rfl

theorem modify_append (first second : List α) (index : Nat) (change : α → α) :
    (first ++ second).modify (index + first.length) change
      = first ++ second.modify index change := by
  induction first with
  | nil => rfl
  | cons a first ih => exact congrArg (a :: ·) ih

end

/-! ## Units -/

theorem Units.view {unit unit' : LoadedUnit ω χ} (h : R.Units unit unit') :
    R.UnitViews unit.view unit'.view := by
  obtain ⟨hinfo, hbody, hcallbacks, -⟩ := h
  refine ⟨hinfo, hcallbacks.length_eq, ?_⟩
  show unit.body.isPending = unit'.body.isPending
  revert hbody
  cases unit.body <;> cases unit'.body <;> rintro ⟨⟩ <;> rfl

theorem Purposes.isImport {purpose purpose' : Purpose ω} (h : R.Purposes purpose purpose') :
    purpose.isImport = purpose'.isImport := by
  cases h <;> rfl

theorem Callbacks.isImport {callback callback' : Callback ω} (h : R.Callbacks callback callback') :
    callback.isImport = callback'.isImport := by
  cases h <;> rfl

namespace Loaders

theorem length (h : R.Loaders l l') : l.units.length = R.shift l'.units.length := by
  obtain ⟨units, hunits, hall⟩ := h.units
  rw [hunits, List.length_append, hall.length_eq, Nat.add_comm, shift]

theorem unit? (h : R.Loaders l l') (id : UnitId) :
    Option.Rel R.Units (l.unit? (R.shift id)) (l'.unit? id) := by
  obtain ⟨units, hunits, hall⟩ := h.units
  -- the units from before come first
  rw [Loader.unit?, Loader.unit?, hunits, shift, Nat.add_comm,
    List.getElem?_append_right (Nat.le_add_right _ _), Nat.add_sub_cancel_left]
  exact rel_getElem? hall id

/-- Either both have the unit or neither. -/
theorem unit?_cases (h : R.Loaders l l') (id : UnitId) :
    (l.unit? (R.shift id) = none ∧ l'.unit? id = none) ∨
      ∃ unit unit', l.unit? (R.shift id) = some unit ∧ l'.unit? id = some unit' ∧
        R.Units unit unit' := by
  have hrel := h.unit? id
  revert hrel
  cases l.unit? (R.shift id) <;> cases l'.unit? id <;> rintro ⟨⟩
  · exact .inl ⟨rfl, rfl⟩
  · exact .inr ⟨_, _, rfl, rfl, ‹_›⟩

theorem isLoaded (h : R.Loaders l l') (id : UnitId) :
    l.isLoaded (R.shift id) = l'.isLoaded id := by
  rcases h.unit?_cases id with ⟨hnone, hnone'⟩ | ⟨unit, unit', hunit, hunit', hunits⟩
  · rw [Loader.isLoaded, Loader.isLoaded, hnone, hnone']
  · rw [Loader.isLoaded, Loader.isLoaded, hunit, hunit']
    simp only [hunits.info.status]

theorem view (h : R.Loaders l l') : R.Views l.view l'.view where
  world := h.world
  unit id := by
    show Option.Rel _ ((l.unit? (R.shift id)).map _) ((l'.unit? id).map _)
    rcases h.unit?_cases id with ⟨hnone, hnone'⟩ | ⟨unit, unit', hunit, hunit', hunits⟩
    · rw [hnone, hnone']
      exact .none
    · rw [hunit, hunit']
      exact .some hunits.view
  made id := by
    show ((l'.unit? id).map _).isSome ↔ id < l'.units.length
    rw [Option.isSome_map, Loader.unit?, isSome_getElem?]
  unitCount := h.length
  cachedUnit := h.cached
  cachedResult := h.results
  executing := h.executing
  compiling := h.compiling
  outstanding := by
    show l.wave.map _ = l'.wave.map _
    rw [h.wave, Option.map_map]
    rfl
  pendingLookups := h.lookups.length_eq
  host := h.host
  base := h.base_eq
  config := h.config
  scope := h.scope

/-! ## Small changes -/

theorem record (h : R.Loaders l l') {e e' : Event} (he : R.Events e e') :
    R.Loaders (l.record e) (l'.record e') := by
  obtain ⟨events, hjournal, hall⟩ := h.journal
  exact { h with
    journal := ⟨e :: events, congrArg (e :: ·) hjournal, .cons he hall⟩ }

theorem set_world (h : R.Loaders l l') {world world' : ω} (hworld : R.world world world') :
    R.Loaders { l with world } { l' with world := world' } :=
  { h with world := hworld }

theorem set_wave (h : R.Loaders l l') (wave : Option Wave) :
    R.Loaders { l with wave := wave.map R.laterWave } { l' with wave } :=
  { h with wave := rfl }

theorem set_lookups (h : R.Loaders l l') {lookups lookups' : List (Lookup ω)}
    (hlookups : List.Forall₂ R.Lookups lookups lookups') :
    R.Loaders { l with lookups } { l' with lookups := lookups' } :=
  { h with lookups := hlookups }

theorem set_host (h : R.Loaders l l') {host host' : HostBindings}
    (hhosts : R.Bindings host.bindings host'.bindings) :
    R.Loaders { l with host } { l' with host := host' } :=
  { h with host := hhosts }

theorem set_substitutions (h : R.Loaders l l') (substitutions : Substitutions) :
    R.Loaders { l with substitutions } { l' with substitutions } :=
  { h with substitutions := rfl }

theorem set_executing (h : R.Loaders l l') (executing : Option UnitId) :
    R.Loaders { l with executing := executing.map R.shift } { l' with executing } :=
  { h with executing := rfl }

theorem modifyUnit (h : R.Loaders l l') (id : UnitId)
    {change change' : LoadedUnit ω χ → LoadedUnit ω χ}
    (hchange : ∀ {unit unit'}, R.Units unit unit' → R.Units (change unit) (change' unit')) :
    R.Loaders (l.modifyUnit (R.shift id) change) (l'.modifyUnit id change') := by
  obtain ⟨units, hunits, hall⟩ := h.units
  refine { h with units := ⟨units.modify id change, ?_, ?_⟩ }
  · show l.units.modify _ _ = _
    rw [hunits, shift, modify_append]
  · show List.Forall₂ R.Units _ (l'.units.modify id change')
    exact rel_modify hall id hchange

theorem setStatus (h : R.Loaders l l') (id : UnitId) (status : LoadStatus) :
    R.Loaders (l.setStatus (R.shift id) status) (l'.setStatus id status) :=
  h.modifyUnit id fun hunits ↦
    { hunits with info := { hunits.info with status := rfl } }

theorem setStatuses (h : R.Loaders l l') (ids : List UnitId) (status : LoadStatus) :
    R.Loaders (l.setStatuses (ids.map R.shift) status) (l'.setStatuses ids status) := by
  induction ids generalizing l l' with
  | nil => exact h
  | cons id rest ih => exact ih (h.setStatus id status)

/-- A body other than one that awaits its second pass. -/
theorem setBody (h : R.Loaders l l') (id : UnitId) {body body' : Body ω χ}
    (hbodies : R.Bodies body body') (hpending : body'.isPending = false) :
    R.Loaders (l.setBody (R.shift id) body) (l'.setBody id body') :=
  h.modifyUnit id fun hunits ↦
    { hunits with
      body := hbodies
      pending := fun h ↦ by rw [hpending] at h; cases h }

theorem addUnit (h : R.Loaders l l') {unit unit' : LoadedUnit ω χ} (hunits : R.Units unit unit') :
    R.Loaders (l.addUnit unit).1 (l'.addUnit unit').1 := by
  obtain ⟨units, heq, hall⟩ := h.units
  refine { h with units := ⟨units ++ [unit], ?_, ?_⟩ }
  · show l.units ++ [unit] = _
    rw [heq, List.append_assoc]
  · exact List.rel_append hall (.cons hunits .nil)

/-- **An operation is made**, or is there already, in both. -/
theorem operation (h : R.Loaders l l') (kind : OperationKind) (context : Url) :
    R.Loaders (l.operation kind context).1 (l'.operation kind context).1 ∧
      (l.operation kind context).2 = R.later (l'.operation kind context).2 := by
  have hknown := h.operations (kind, context.text)
  rw [Loader.operation, Loader.operation]
  dsimp only
  cases hoperation : l'.cache.operations.get? (kind, context.text) with
  | some operation =>
    rw [hoperation] at hknown
    rw [hknown]
    exact ⟨h, rfl⟩
  | none =>
    rw [hoperation, Option.map_none] at hknown
    rw [hknown]
    have hmade : (⟨kind, l.operationCount, context, l.substitutions⟩ : Operation)
        = R.later ⟨kind, l'.operationCount, context, l'.substitutions⟩ := by
      rw [later, h.operationCount, h.substitutions]
    refine ⟨{ h with operations := fun key ↦ ?_, operationCount := ?_ }, hmade⟩
    · dsimp only
      rw [Table.get?_insert, Table.get?_insert, h.operations key, hmade]
      split <;> rfl
    · dsimp only
      rw [h.operationCount, Nat.add_right_comm]

theorem argumentsFor (h : R.Loaders l l') (directory : Url) :
    R.Loaders (l.argumentsFor directory).1 (l'.argumentsFor directory).1 ∧
      R.Supplies (l.argumentsFor directory).2 (l'.argumentsFor directory).2 := by
  obtain ⟨hfirst, hexecuter⟩ := h.operation .executer directory
  obtain ⟨hsecond, himporter⟩ := hfirst.operation .importer directory
  refine ⟨hsecond, hexecuter, himporter, ?_⟩
  have hvalues := hsecond.host
  show List.Forall₂ R.value (List.map _ _) (List.map _ _)
  rw [List.forall₂_map_left_iff, List.forall₂_map_right_iff]
  exact hvalues.imp fun _ _ h ↦ h.2

/-! ## Waves and lookups -/

theorem settleOne (h : R.Loaders l l') :
    R.Loaders l.settleOne.1 l'.settleOne.1 ∧ l.settleOne.2 = l'.settleOne.2 := by
  have hwave := h.wave
  cases hcase : l'.wave with
  | none =>
    rw [hcase, Option.map_none] at hwave
    simp only [Loader.settleOne, Loader.record, hwave, hcase, Option.map_none]
    exact ⟨{ h.record (.renumber (.settled none)) with wave := rfl }, trivial⟩
  | some wave =>
    rw [hcase, Option.map_some] at hwave
    simp only [Loader.settleOne, Loader.record, hwave, hcase, Option.map_some]
    exact ⟨{ h.record (.renumber (.settled (some wave.outstanding))) with wave := rfl }, rfl⟩

theorem touch (h : R.Loaders l l') {change change' : ω → ω}
    (hchange : ∀ {world world'}, R.world world world' → R.world (change world) (change' world')) :
    R.Loaders (l.touch change) (l'.touch change') :=
  h.set_world (hchange h.world)

theorem endImports (h : R.Loaders l l') (hp : R.Respects p) (count : Nat) :
    R.Loaders (l.endImports p count) (l'.endImports p count) := by
  refine h.touch fun {world world'} hworld ↦ ?_
  induction count with
  | zero => exact hworld
  | succ count ih => exact hp.disableCaching ih

theorem tickets (h : R.Loaders l l') : l.lookups.map (·.ticket) = l'.lookups.map (·.ticket) :=
  map_eq_of_rel h.lookups fun hlookups ↦ hlookups.ticket

theorem dropLookups (h : R.Loaders l l') (hp : R.Respects p) :
    R.Loaders (l.dropLookups p) (l'.dropLookups p) := by
  have himports : l.lookups.countP (·.purpose.isImport)
      = l'.lookups.countP (·.purpose.isImport) :=
    countP_eq_of_rel h.lookups fun hlookups ↦ hlookups.purpose.isImport
  rw [Loader.dropLookups, Loader.dropLookups, h.tickets, himports]
  exact ((h.set_lookups .nil).touch fun hworld ↦ hp.cancel hworld _).endImports hp _

theorem abort (h : R.Loaders l l') (hp : R.Respects p) {error error' : LoaderError}
    (herrors : R.Errors error error') : R.Loaders (l.abort p error) (l'.abort p error') := by
  have hbusy : (l.wave.isSome || !l.lookups.isEmpty) = (l'.wave.isSome || !l'.lookups.isEmpty) := by
    rw [h.wave, Option.isSome_map, isEmpty_eq_of_rel h.lookups]
  rw [Loader.abort, Loader.abort, hbusy]
  split
  · exact ((h.record (.aborted herrors)).set_wave none).dropLookups hp
  · exact (h.set_wave none).dropLookups hp

theorem release (h : R.Loaders l l') (hp : R.Respects p) :
    R.Loaders (l.release p) (l'.release p) := by
  have hgiven : R.Loaders { l.record .released with wave := none, released := true }
      { l'.record .released with wave := none, released := true } :=
    { h.record (.renumber .released) with wave := rfl, released := rfl }
  exact hgiven.dropLookups hp

theorem noteFound (h : R.Loaders l l') (key : String)
    {answer answer' : Except LoaderError (Option Resource)} (hanswer : answer = answer') :
    R.Loaders (l.noteFound key answer) (l'.noteFound key answer') := by
  subst hanswer
  rw [Loader.noteFound.eq_def, Loader.noteFound.eq_def]
  split
  · exact h.record (.renumber (.found key _))
  · exact h

theorem isMarked (h : R.Loaders l l') (key : String) :
    l.cache.isMarked key = l'.cache.isMarked key := by
  rw [ResolutionCache.isMarked, ResolutionCache.isMarked, h.markers]

theorem mark (h : R.Loaders l l') (key : String) :
    R.Loaders { l with cache := l.cache.mark key } { l' with cache := l'.cache.mark key } := by
  rw [ResolutionCache.mark, ResolutionCache.mark, h.isMarked]
  split
  · exact { h with }
  · exact { h with markers := congrArg (key :: ·) h.markers }

theorem bindGlobal (h : R.Loaders l l') (name : String) {value value' : Value}
    (hvalues : R.value value value') :
    R.Loaders { l with scope := l.scope.insert name value }
      { l' with scope := l'.scope.insert name value' } :=
  -- earlier bindings of the name are dropped in both
  { h with
    scope := .cons ⟨rfl, hvalues⟩ (rel_filter h.scope fun hbinding ↦ by rw [hbinding.1]) }

theorem reset (h : R.Loaders l l') :
    R.Loaders { l.record .reset with cache := {} } { l'.record .reset with cache := {} } :=
  { h.record (.renumber .reset) with
    operations := fun _ ↦ rfl
    results := fun _ ↦ rfl
    markers := rfl
    cached := fun _ ↦ rfl }

end Loaders

end Likeness

end ScriptLoader
