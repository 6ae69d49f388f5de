import ScriptLoader.Proofs.Bounded
import ScriptLoader.Proofs.Importing.Executed
import ScriptLoader.Proofs.Loading

/-!
# What bodies leave alone

The body of a unit is code. When it neither executes nor imports anything itself, and does not wait
for lookups, then all it can do that concerns other units is to ask for dependencies and to forget
what is remembered. No second pass is run then and no body is called, and references that had led
nowhere still lead nowhere. All this is on top of the frame of the call, which stays where it is
until the body returns.

It does not matter which frames the body puts on the stack meanwhile, as long as none of them waits
for something that is executed or for lookups.
-/

namespace ScriptLoader

variable {ω χ : Type}

/-- Whether code asks for something else than to execute or import a unit, or to wait for
lookups. -/
def Code.keepsToItself : Code ω → Bool
  | execute .. | call .. | importFile .. | drive _ => false
  | _ => true

namespace Loader

theorem Spares.stage?_eq {l l' : Loader ω χ} (h : l.Spares l') {id : UnitId}
    {stage : Stage} (hstage : l.stage? id = some stage) : l'.stage? id = some stage := by
  obtain ⟨unit, hunit, rfl⟩ := Option.map_eq_some_iff.mp hstage
  have hbody : l.body? id = some unit.body := congrArg (Option.map _) hunit
  obtain ⟨unit', hunit', hsame⟩ := Option.map_eq_some_iff.mp (h.bodies hbody)
  exact Option.map_eq_some_iff.mpr ⟨unit', hunit', congrArg Body.stage hsame⟩

/-- The body of a unit that there was has not come further. -/
theorem Spares.stage?_of_unit? {l l' : Loader ω χ} (h : l.Spares l') {id : UnitId}
    {unit : LoadedUnit ω χ} (hunit : l.unit? id = some unit) : l'.stage? id = l.stage? id := by
  have hstage : l.stage? id = some unit.body.stage := congrArg (Option.map _) hunit
  rw [h.stage?_eq hstage, hstage]

/-- A change in which nothing is executed, and no reference comes to lead anywhere. -/
structure Stays (l l' : Loader ω χ) : Prop where
  spares : l.Spares l'
  results : ∀ {key id}, l'.cache.result? key = some id → l.cache.result? key = some id

namespace Stays

variable {l l' l'' : Loader ω χ}

theorem refl (l : Loader ω χ) : l.Stays l := ⟨.refl l, id⟩

theorem trans (h : l.Stays l') (h' : l'.Stays l'') : l.Stays l'' :=
  ⟨h.spares.trans h'.spares, fun hresult ↦ h.results (h'.results hresult)⟩

theorem of_quiet (hq : l.Quiet l') (hs : l.Spares l') : l.Stays l' :=
  ⟨hs, fun {key _} hresult ↦ (hq.result? key).symm.trans hresult⟩

theorem of_same (hunits : l'.units = l.units) (hcache : l'.cache = l.cache)
    (hjournal : l'.journal = l.journal) : l.Stays l' :=
  ⟨.of_same hunits hjournal, fun hresult ↦ hcache ▸ hresult⟩

end Stays

end Loader

/-! ## Stacks -/

/-- Some frames of a stack are those of another. Above them nothing is waited for that is not
allowed. -/
def Raised (allowed : Deed → Prop) (base stack : List (Frame ω χ)) : Prop :=
  ∃ above below, stack = above ++ below ∧ (∀ f ∈ above, ∀ deed ∈ f.deed?, allowed deed) ∧
    below <:+ base

namespace Raised

variable {allowed : Deed → Prop} {base stack : List (Frame ω χ)}

theorem pop (h : Raised allowed base stack) {kept : List (Frame ω χ)} (hkept : kept <:+ stack) :
    Raised allowed base kept := by
  obtain ⟨above, below, rfl, habove, hbelow⟩ := h
  obtain ⟨popped, heq⟩ := hkept
  rcases List.append_eq_append_iff.mp heq with ⟨as, rfl, rfl⟩ | ⟨bs, rfl, rfl⟩
  · exact ⟨as, below, rfl, fun f hf ↦ habove f (List.mem_append_right _ hf), hbelow⟩
  · exact ⟨[], kept, rfl, by simp, (List.suffix_append _ _).trans hbelow⟩

theorem append (h : Raised allowed base stack) {pushed : List (Frame ω χ)}
    (hpushed : ∀ f ∈ pushed, ∀ deed ∈ f.deed?, allowed deed) :
    Raised allowed base (pushed ++ stack) := by
  obtain ⟨above, below, rfl, habove, hbelow⟩ := h
  refine ⟨pushed ++ above, below, (List.append_assoc ..).symm, fun f hf ↦ ?_, hbelow⟩
  exact (List.mem_append.mp hf).elim (hpushed f) (habove f)

theorem push (h : Raised allowed base stack) {frame : Frame ω χ} (hframe : frame.deed? = none) :
    Raised allowed base (frame :: stack) := by
  have hpushed : ∀ f ∈ [frame], ∀ deed ∈ f.deed?, allowed deed := by simp [hframe]
  exact h.append hpushed

theorem exchange {frame frame' : Frame ω χ} (h : Raised allowed base (frame :: stack))
    (hframe : frame'.deed? = none) : Raised allowed base (frame' :: stack) :=
  (h.pop (List.suffix_cons _ _)).push hframe

/-- What is above the frames of the other stack is allowed if all of these are still there. -/
theorem above {above : List (Frame ω χ)} (h : Raised allowed base (above ++ base)) :
    ∀ f ∈ above, ∀ deed ∈ f.deed?, allowed deed := by
  obtain ⟨above', below, heq, habove, hbelow⟩ := h
  rcases List.append_eq_append_iff.mp heq with ⟨as, rfl, -⟩ | ⟨bs, rfl, rfl⟩
  · exact fun f hf ↦ habove f (List.mem_append_left _ hf)
  · have hlength := hbelow.length_le
    rw [List.length_append] at hlength
    have hnil : bs = [] := List.length_eq_zero_iff.mp (by omega)
    rwa [hnil, List.append_nil]

end Raised

/-! ## Callbacks -/

/-- Callbacks that are held have been held before, if no unit and no frame has more of them. -/
theorem Scene.Holds.of_same {l l' : Loader ω χ} {stack stack' : List (Frame ω χ)}
    {callback : Callback ω} (h : Scene.Holds ⟨l', stack'⟩ callback)
    (hunits : ∀ {id s'}, l'.standing? id = some s' →
      ∃ s, l.standing? id = some s ∧ s'.callbacks = s.callbacks)
    (hstack : ∀ f ∈ stack', f ∈ stack ∨ f.callbacks = []) : Scene.Holds ⟨l, stack⟩ callback := by
  rcases h with ⟨id, s', hs', hcallback⟩ | ⟨frame, hframe, hcallback⟩
  · obtain ⟨s, hs, hcallbacks⟩ := hunits hs'
    exact .inl ⟨id, s, hs, hcallbacks ▸ hcallback⟩
  · rcases hstack frame hframe with hframe | hnone
    · exact .inr ⟨frame, hframe, hcallback⟩
    · rw [hnone] at hcallback
      cases hcallback

/-- No callback comes to wait when a unit joins. -/
theorem Loader.exists_standing?_enroll (l : Loader ω χ) (wave : Wave) (joined : UnitId)
    (s : Standing ω) {id : UnitId} {s' : Standing ω}
    (hs' : ((l.enroll wave joined s.dependencies).operation .searcher s.directory).1.standing? id
      = some s') : ∃ s₀, l.standing? id = some s₀ ∧ s'.callbacks = s₀.callbacks := by
  rw [standing?_congr (units_operation _ .searcher s.directory), standing?_enroll,
    Option.map_eq_some_iff] at hs'
  obtain ⟨s₀, hs₀, rfl⟩ := hs'
  exact ⟨s₀, hs₀, by split <;> rfl⟩

/-! ## Moves -/

namespace Move

open Loader

variable {p : Platform ω χ} {allowed : Deed → Prop} {a b : Scene ω χ}

theorem raised (h : Move p allowed a b) {base : List (Frame ω χ)}
    (ha : Raised allowed base a.stack) : Raised allowed base b.stack := by
  cases h with
  | bide _ _ kept pushed => exact (ha.pop kept).append fun f hf ↦ (pushed f hf).2.1
  | await => exact ha
  | begin => exact ha.push rfl
  | join => exact ha.push rfl
  | skip => exact ha.exchange rfl
  | ask => exact ha.exchange rfl
  | lookUp => exact ha.exchange rfl
  | lookUpImport => exact ha
  | learn => exact ha
  | reset => exact ha

theorem spares (h : Move p allowed a b) (hexecutes : ¬allowed .executes) :
    a.loader.Spares b.loader := by
  cases h with
  | bide _ spares => exact spares.resolve_left hexecutes
  | await => exact spares_modifyUnit _ _ fun _ ↦ rfl
  | begin => exact .of_same rfl rfl
  | @join l _ wave id s =>
    exact (l.shifts_enroll wave id s.dependencies).spares.trans
      (spares_operation _ .searcher s.directory)
  | skip => exact .refl _
  | ask => exact .of_units rfl ⟨[_], rfl, by simp [Event.isExecution]⟩
  | lookUp => exact .of_units rfl ⟨[_, _], rfl, by simp [Event.isExecution]⟩
  | lookUpImport => exact .of_units rfl ⟨[_], rfl, by simp [Event.isExecution]⟩
  | learn => exact .of_same rfl rfl
  | reset => exact .of_units rfl ⟨[_], rfl, by simp [Event.isExecution]⟩

/-- Callbacks are held from before, unless one comes to wait for dependencies. -/
theorem holds (h : Move p allowed a b) {callback : Callback ω} (hb : b.Holds callback) :
    a.Holds callback ∨ allowed .loads ∧ (callback.isImport = true → allowed .imports) := by
  have hunits {l' : Loader ω χ} (hl' : l'.units = a.loader.units) {id : UnitId} {s' : Standing ω}
      (hs' : l'.standing? id = some s') :
      ∃ s, a.loader.standing? id = some s ∧ s'.callbacks = s.callbacks :=
    ⟨s', (standing?_congr hl' id).symm.trans hs', rfl⟩
  have hpushed {frame : Frame ω χ} (hframe : frame.callbacks = []) {below : List (Frame ω χ)}
      (hbelow : ∀ f ∈ below, f ∈ a.stack) : ∀ f ∈ frame :: below, f ∈ a.stack ∨ f.callbacks = [] :=
    List.forall_mem_cons.mpr ⟨.inr hframe, fun f hf ↦ .inl (hbelow f hf)⟩
  cases h with
  | bide bides _ kept pushed =>
    left
    rcases hb with ⟨id, s', hs', hcallback⟩ | ⟨frame, hframe, hcallback⟩
    · obtain ⟨s, hs, hwaited⟩ := bides.waited hs' hcallback
      exact .inl ⟨id, s, hs, hwaited⟩
    · rcases List.mem_append.mp hframe with hframe | hframe
      · exact (pushed frame hframe).2.2 callback hcallback
      · exact .inr ⟨frame, kept.subset hframe, hcallback⟩
  | @await l _ id s added reason known waiting imports =>
    rcases hb with ⟨other, s', hs', hcallback⟩ | hheld
    · have hawaited : (l.await id added).standing? other = _ :=
        l.standing?_modifyCallbacks id (· ++ added.toList) other
      rw [hawaited, Option.map_eq_some_iff] at hs'
      obtain ⟨s₀, hs₀, rfl⟩ := hs'
      split at hcallback
      case isTrue =>
        rcases List.mem_append.mp hcallback with hold | hnew
        · exact .inl (.inl ⟨other, s₀, hs₀, hold⟩)
        · exact .inr ⟨reason, imports callback (Option.mem_toList.mp hnew)⟩
      case isFalse => exact .inl (.inl ⟨other, s₀, hs₀, hcallback⟩)
    · exact .inl (.inr hheld)
  | begin => exact .inl (hb.of_same (hunits rfl) (hpushed rfl fun _ hf ↦ hf))
  | @join l _ wave id s =>
    exact .inl (hb.of_same (l.exists_standing?_enroll wave id s) (hpushed rfl fun _ hf ↦ hf))
  | skip | ask | lookUp =>
    exact .inl (hb.of_same (hunits rfl) (hpushed rfl fun _ hf ↦ List.mem_cons_of_mem _ hf))
  | lookUpImport => exact .inl (hb.of_same (hunits rfl) fun _ hf ↦ .inl hf)
  | learn => exact .inl (hb.of_same (hunits rfl) fun _ hf ↦ .inl hf)
  | reset => exact .inl (hb.of_same (hunits rfl) fun _ hf ↦ .inl hf)

theorem stays (h : Move p allowed a b) (hexecutes : ¬allowed .executes)
    (hcompletes : ¬allowed .completes) : a.loader.Stays b.loader :=
  ⟨h.spares hexecutes, fun hresult ↦
    (h.results hresult).resolve_right fun hlearned ↦ hcompletes hlearned.1⟩

end Move

/-! ## Without imports -/

/-- No lookup is under way for an import, and no import waits to be called back. -/
structure Scene.ImportsNothing (scene : Scene ω χ) : Prop where
  lookups : ∀ lookup ∈ scene.loader.lookups, lookup.purpose = .wave
  callbacks : ∀ callback, scene.Holds callback → callback.isImport = false

theorem Move.importsNothing {p : Platform ω χ} {allowed : Deed → Prop} {a b : Scene ω χ}
    (h : Move p allowed a b) (himports : ¬allowed .imports) (ha : a.ImportsNothing) :
    b.ImportsNothing where
  lookups lookup hlookup := by
    obtain ⟨more, hadds⟩ := h.adds
    exact ((hadds.lookups lookup hlookup).resolve_left himports).elim (ha.lookups lookup) id
  callbacks callback hheld := by
    rcases h.holds hheld with hheld | ⟨-, himport⟩
    · exact ha.callbacks callback hheld
    · exact Bool.eq_false_iff.mpr fun hcallback ↦ himports (himport hcallback)

namespace Machine

open Loader

variable {p : Platform ω χ} {m : Machine ω χ}

/-- Where nothing is imported, whatever else is about to happen is permitted if it has its
reasons. -/
theorem Permits.of_importsNothing (h : m.scene.ImportsNothing) {allowed : Deed → Prop}
    (himports : ¬allowed .imports) (hasks : ∀ deed ∈ m.asks?, allowed deed)
    (hexecutes : m.executes = true → allowed .executes)
    (hdrives : m.drives = true → allowed .completes) : m.Permits allowed where
  loads hcontrol := hasks _ (by rw [asks?, hcontrol]; rfl)
  imports hcontrol := hasks _ (by rw [asks?, hcontrol]; rfl)
  lookups lookup hlookup himport := by
    rw [h.lookups lookup hlookup] at himport
    cases himport
  executes := hexecutes
  callbacks callback hheld himport := by
    rw [h.callbacks callback hheld] at himport
    cases himport
  completes := hdrives
  resets hcontrol := hasks _ (by rw [asks?, hcontrol]; rfl)
  all hallowed := absurd hallowed himports

theorem importsNothing_step (h : m.scene.ImportsNothing) (hasks : m.asks? ≠ some .imports) :
    (m.step p).scene.ImportsNothing := by
  have hpermits : m.Permits (· ≠ .imports) :=
    .of_importsNothing h (by simp) (by rintro deed hdeed rfl; exact hasks hdeed) (by simp) (by simp)
  exact (step_moves p hpermits).invariant (fun hmove ↦ hmove.importsNothing (by simp)) h

/-! ## Bodies -/

/-- Whether the code keeps to itself that is running, if any is. -/
def keepsToItself (m : Machine ω χ) : Bool :=
  match m.control with
  | .running code => code.keepsToItself
  | .returning _ => true

/-- What a body that keeps to itself may do. -/
def ofBody (deed : Deed) : Prop := deed = .loads ∨ deed = .resets

theorem ofBody_of_asks? (hcode : m.keepsToItself = true) :
    ∀ deed ∈ m.asks?, ofBody deed := by
  intro deed hdeed
  rw [asks?] at hdeed
  split at hdeed
  case h_1 => exact .inl (Option.some.inj hdeed).symm
  case h_2 hcontrol =>
    rw [keepsToItself, hcontrol] at hcode
    cases hcode
  case h_3 => exact .inr (Option.some.inj hdeed).symm
  case h_4 => cases hdeed

/-- Neither code that keeps to itself nor what it has put on the stack executes anything or waits
for lookups. -/
theorem executes_drives_of_body {above base : List (Frame ω χ)} {previous : Option UnitId}
    (hs : m.stack = above ++ .calling previous :: base) (habove : ∀ f ∈ above, f.deed? = none)
    (hcode : m.keepsToItself = true) :
    m.executes = false ∧ m.drives = false := by
  cases hcontrol : m.control with
  | running code =>
    rw [keepsToItself, hcontrol] at hcode
    rw [executes, drives, hcontrol]
    cases code <;> first | exact ⟨rfl, rfl⟩ | cases hcode
  | returning outcome =>
    rw [executes, drives, hcontrol, hs]
    cases above with
    | nil => cases outcome <;> exact ⟨rfl, rfl⟩
    | cons frame above =>
      have hframe := habove frame List.mem_cons_self
      cases outcome <;> cases frame <;> first | exact ⟨rfl, rfl⟩ | cases hframe

/-- **The loader stays as it is while a body runs** that keeps to itself, above the frame of its
call. -/
theorem step_body {above base : List (Frame ω χ)} {previous : Option UnitId}
    (h : m.scene.ImportsNothing) (hs : m.stack = above ++ .calling previous :: base)
    (habove : ∀ f ∈ above, f.deed? = none)
    (hcode : m.keepsToItself = true)
    (hreturns : ¬(above = [] ∧ ∃ outcome, m.control = .returning outcome)) :
    m.loader.Stays (m.step p).loader ∧
      ∃ above', (m.step p).stack = above' ++ .calling previous :: base ∧
        ∀ f ∈ above', f.deed? = none := by
  obtain ⟨hexecutes, hdrives⟩ := executes_drives_of_body hs habove hcode
  have hpermits : m.Permits ofBody :=
    .of_importsNothing h (by simp [ofBody]) (ofBody_of_asks? hcode) (by simp [hexecutes])
      (by simp [hdrives])
  have hmoves := step_moves p hpermits
  have hstays : m.loader.Stays (m.step p).loader :=
    hmoves.invariant (P := fun scene ↦ m.loader.Stays scene.loader)
      (fun hmove hbefore ↦ hbefore.trans (hmove.stays (by simp [ofBody]) (by simp [ofBody])))
      (.refl _)
  obtain ⟨above', hs'⟩ := (stack_step (p := p) hs).resolve_right hreturns
  have hbefore : Raised ofBody (.calling previous :: base) m.scene.stack := by
    refine ⟨above, _, hs, fun f hf deed hdeed ↦ ?_, List.suffix_refl _⟩
    rw [habove f hf] at hdeed
    cases hdeed
  have hafter : Raised ofBody (.calling previous :: base) (m.step p).stack :=
    hmoves.invariant (P := fun scene ↦ Raised ofBody (.calling previous :: base) scene.stack)
      (fun hmove ↦ hmove.raised) hbefore
  rw [hs'] at hafter
  refine ⟨hstays, above', hs', fun f hf ↦ Option.eq_none_iff_forall_ne_some.mpr fun deed hdeed ↦ ?_⟩
  -- what a frame waits for is executed, or comes of lookups
  have hallowed := hafter.above f hf deed hdeed
  cases f <;> cases hdeed <;> simp [ofBody] at hallowed

end Machine

end ScriptLoader
