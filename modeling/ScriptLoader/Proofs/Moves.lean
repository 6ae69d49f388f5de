import Mathlib.Logic.Relation
import ScriptLoader.Proofs.Balance
import ScriptLoader.Proofs.Sparing

/-!
# What a step is made of

A step is a sequence of *moves*. A unit joins the wave, a reference is asked for, a lookup is
started, what a lookup found is remembered, a callback comes to wait, a wave is begun, everything is
forgotten: each of these is one move. In all other moves the loader *bides*. Units are only moved
along then, and nothing that has been asked for or found changes.

So an invariant of runs need only be looked at for a few moves, and for biding. Some moves have a
reason, such as that code asks for an import. Runs in which there is no such reason consist of the
other moves.
-/

namespace ScriptLoader

variable {ω χ : Type}

/-- How far a status is from the first. -/
def LoadStatus.rank : LoadStatus → Nat
  | unloaded => 0
  | loading => 1
  | loaded => 2

theorem LoadStatus.rank_le (status : LoadStatus) : status.rank ≤ loaded.rank := by
  cases status <;> decide

/-- A unit declares the same, and its status has not moved back. -/
structure Standing.Precedes (s s' : Standing ω) : Prop where
  url : s'.url = s.url
  directory : s'.directory = s.directory
  dependencies : s'.dependencies = s.dependencies
  status : s.status.rank ≤ s'.status.rank

namespace Standing.Precedes

variable {s s' s'' : Standing ω}

theorem refl (s : Standing ω) : s.Precedes s := ⟨rfl, rfl, rfl, Nat.le_refl _⟩

theorem trans (h : s.Precedes s') (h' : s'.Precedes s'') : s.Precedes s'' :=
  ⟨h'.url.trans h.url, h'.directory.trans h.directory, h'.dependencies.trans h.dependencies,
    Nat.le_trans h.status h'.status⟩

theorem key (h : s.Precedes s') (r : Reference) : s'.key r = s.key r := by
  rw [Standing.key, h.directory, Standing.key]

end Standing.Precedes

/-- Whether an event is none of the joining of a unit, the search of a reference and a reset. -/
def Event.isMinor : Event → Bool
  | joined _ | searched _ | reset => false
  | _ => true

theorem Event.isMinor_of_isQuiet {e : Event} (h : e.isQuiet = true) : e.isMinor = true := by
  cases e <;> first | rfl | cases h

/-- What only happens for a reason. -/
inductive Deed where
  /-- Dependencies are asked for. -/
  | loads
  /-- A file is imported, which may have everything else but a reset follow. -/
  | imports
  | executes
  /-- The answer to a lookup is remembered. -/
  | completes
  | resets
  deriving DecidableEq

namespace Loader

/-! ## Biding -/

/-- A change in which no unit joins and nothing is searched, found or forgotten. -/
structure Bides (l l' : Loader ω χ) : Prop where
  /-- Units keep what they declare, and their status does not move back. -/
  standing : ∀ {id s}, l.standing? id = some s → ∃ s', l'.standing? id = some s' ∧ s.Precedes s'
  /-- No callback comes to wait. -/
  waited : ∀ {id s' callback}, l'.standing? id = some s' → callback ∈ s'.callbacks →
    ∃ s, l.standing? id = some s ∧ callback ∈ s.callbacks
  results : l'.cache.results = l.cache.results
  markers : l'.cache.markers = l.cache.markers
  filed : ∀ {url id}, l.cache.unit? url = some id → l'.cache.unit? url = some id
  bound : l.OperationsBound → l'.OperationsBound
  lookups : l'.lookups.Sublist l.lookups
  wave : l.wave = none → l'.wave = none
  journal : ∃ events, l'.journal = events ++ l.journal ∧ ∀ e ∈ events, e.isMinor = true

namespace Bides

variable {l l' l'' : Loader ω χ}

theorem trans (h : l.Bides l') (h' : l'.Bides l'') : l.Bides l'' where
  standing hs := by
    obtain ⟨s', hs', hprecedes⟩ := h.standing hs
    obtain ⟨s'', hs'', hprecedes'⟩ := h'.standing hs'
    exact ⟨s'', hs'', hprecedes.trans hprecedes'⟩
  waited hs'' hcallback := by
    obtain ⟨s', hs', hcallback'⟩ := h'.waited hs'' hcallback
    exact h.waited hs' hcallback'
  results := h'.results.trans h.results
  markers := h'.markers.trans h.markers
  filed hid := h'.filed (h.filed hid)
  bound hb := h'.bound (h.bound hb)
  lookups := h'.lookups.trans h.lookups
  wave hnone := h'.wave (h.wave hnone)
  journal := by
    obtain ⟨events, heq, hminor⟩ := h.journal
    obtain ⟨events', heq', hminor'⟩ := h'.journal
    refine ⟨events' ++ events, by rw [heq', heq, List.append_assoc], fun e he ↦ ?_⟩
    exact (List.mem_append.mp he).elim (hminor' e) (hminor e)

theorem of_standing (change : UnitId → Standing ω → Standing ω)
    (hstanding : ∀ id, l'.standing? id = (l.standing? id).map (change id))
    (hchange : ∀ id (s : Standing ω), s.Precedes (change id s))
    (hcallbacks : ∀ id s, (change id s).callbacks ⊆ s.callbacks) (hcache : l'.cache = l.cache)
    (hlookups : l'.lookups.Sublist l.lookups) (hwave : l.wave = none → l'.wave = none)
    (hjournal : ∃ events, l'.journal = events ++ l.journal ∧ ∀ e ∈ events, e.isMinor = true) :
    l.Bides l' where
  standing hs := ⟨_, by rw [hstanding, hs]; rfl, hchange _ _⟩
  waited hs' hcallback := by
    rw [hstanding, Option.map_eq_some_iff] at hs'
    obtain ⟨s, hs, rfl⟩ := hs'
    exact ⟨s, hs, hcallbacks _ _ hcallback⟩
  results := by rw [hcache]
  markers := by rw [hcache]
  filed hid := hcache ▸ hid
  bound hb := by rw [OperationsBound, hcache]; exact hb
  lookups := hlookups
  wave := hwave
  journal := hjournal

theorem of_units (hunits : l'.units = l.units) (hcache : l'.cache = l.cache)
    (hlookups : l'.lookups.Sublist l.lookups) (hwave : l.wave = none → l'.wave = none)
    (hjournal : ∃ events, l'.journal = events ++ l.journal ∧ ∀ e ∈ events, e.isMinor = true) :
    l.Bides l' :=
  .of_standing (fun _ s ↦ s) (fun id ↦ by rw [standing?_congr hunits, Option.map_id'])
    (fun _ s ↦ .refl s) (fun _ _ ↦ List.Subset.refl _) hcache hlookups hwave hjournal

theorem refl (l : Loader ω χ) : l.Bides l :=
  .of_units rfl rfl (List.Sublist.refl _) id ⟨[], rfl, by simp⟩

theorem of_quiet (h : l.Quiet l') : l.Bides l' where
  standing hs := ⟨_, h.known hs, .refl _⟩
  waited hs' hcallback := by
    rcases h.fresh hs' with hs | ⟨-, hnew⟩
    · exact ⟨_, hs, hcallback⟩
    · rw [hnew.callbacks] at hcallback
      cases hcallback
  results := h.results
  markers := h.markers
  filed := h.filed
  bound := h.bound
  lookups := h.lookups ▸ List.Sublist.refl _
  wave hnone := h.wave.trans hnone
  journal := by
    obtain ⟨events, heq, hquiet⟩ := h.journal
    exact ⟨events, heq, fun e he ↦ Event.isMinor_of_isQuiet (hquiet e he)⟩

end Bides

variable (l : Loader ω χ)

theorem bides_record {e : Event} (h : e.isMinor = true) : l.Bides (l.record e) :=
  .of_units rfl rfl (List.Sublist.refl _) id ⟨[e], rfl, by simpa using h⟩

theorem bides_settleOne : l.Bides l.settleOne.1 := by
  cases hwave : l.wave with
  | some wave =>
    rw [settleOne_eq hwave]
    exact .of_units rfl rfl (List.Sublist.refl _) (fun hnone ↦ by rw [hwave] at hnone; cases hnone)
      ⟨[_], rfl, by simp [Event.isMinor]⟩
  | none =>
    have hsettled : l.settleOne.1 = l.record (.settled none) := by
      simp only [settleOne, record, hwave, Option.map_none]
    rw [hsettled]
    exact l.bides_record rfl

@[simp] theorem cache_settleOne : l.settleOne.1.cache = l.cache := by
  rw [settleOne]
  dsimp only
  split <;> rfl

theorem bides_close (wave : Wave) : l.Bides (l.close wave) := by
  refine .of_standing _ (l.standing?_close wave) (fun id s ↦ ?_) (fun id s ↦ ?_)
    (l.cache_close wave) (by rw [lookups_close]) (fun _ ↦ l.wave_close wave)
    ⟨[_], l.journal_close wave, by simp [Event.isMinor]⟩
  · split
    · exact ⟨rfl, rfl, rfl, s.status.rank_le⟩
    · exact .refl s
  · split <;> exact List.Subset.refl _

theorem bides_take (id : UnitId) :
    l.Bides (l.modifyUnit id fun unit ↦ { unit with callbacks := [] }) := by
  refine .of_standing _ (l.standing?_modifyCallbacks id fun _ ↦ []) (fun other s ↦ ?_)
    (fun other s ↦ ?_) rfl (List.Sublist.refl _) (fun hnone ↦ hnone) ⟨[], rfl, by simp⟩
  · split <;> exact ⟨rfl, rfl, rfl, Nat.le_refl _⟩
  · split
    · exact List.nil_subset _
    · exact List.Subset.refl _

theorem bides_leave (world : ω) {lookups : List (Lookup ω)} (h : lookups.Sublist l.lookups) :
    l.Bides (l.leave world lookups) :=
  .of_units rfl rfl h id ⟨[], rfl, by simp⟩

theorem bides_noteFound (world : ω) (key : String)
    (answer : Except LoaderError (Option Resource)) :
    l.Bides ({ l with world }.noteFound key answer) := by
  obtain ⟨events, heq, hevents⟩ := { l with world }.noteFound_eq key answer
  rw [heq]
  refine .of_units rfl rfl (List.Sublist.refl _) id ⟨events, rfl, fun e he ↦ ?_⟩
  obtain ⟨resource, -, rfl⟩ := hevents e he
  rfl

variable (p : Platform ω χ)

theorem bides_abort (error : LoaderError) : l.Bides (l.abort p error) := by
  obtain ⟨world, heq⟩ := l.abort_eq p error
  rw [heq, abortJournal]
  split
  · exact .of_units rfl rfl (List.nil_sublist _) (fun _ ↦ rfl) ⟨[_], rfl, by simp [Event.isMinor]⟩
  · exact .of_units rfl rfl (List.nil_sublist _) (fun _ ↦ rfl) ⟨[], rfl, by simp⟩

theorem bides_release : l.Bides (l.release p) := by
  obtain ⟨world, heq⟩ := l.release_eq p
  rw [heq]
  exact .of_units rfl rfl (List.nil_sublist _) (fun _ ↦ rfl) ⟨[_], rfl, by simp [Event.isMinor]⟩

end Loader

/-! ## Scenes -/

/-- A machine apart from what it is about to do. -/
structure Scene (ω χ : Type) where
  loader : Loader ω χ
  stack : List (Frame ω χ)

def Machine.scene (m : Machine ω χ) : Scene ω χ := ⟨m.loader, m.stack⟩

namespace Frame

/-- The callbacks that a frame is to call. -/
def callbacks : Frame ω χ → List (Callback ω)
  | draining _ callbacks _ => callbacks
  | _ => []

/-- What a frame waits for, if it is something that only happens for a reason. -/
def deed? : Frame ω χ → Option Deed
  | calling _ | compiling .. | delivering _ => some .executes
  | driving _ => some .completes
  | _ => none

theorem callbacks_of_isNeutral {frame : Frame ω χ} (h : frame.isNeutral = true) :
    frame.callbacks = [] := by
  cases frame <;> first | rfl | cases h

theorem deed?_of_isNeutral {frame : Frame ω χ} (h : frame.isNeutral = true) :
    ∀ deed ∈ frame.deed?, deed = .executes := by
  cases frame <;> simp [isNeutral, deed?] at h ⊢

end Frame

/-- A callback waits for a unit, or is to be called by a frame. -/
def Scene.Holds (scene : Scene ω χ) (callback : Callback ω) : Prop :=
  (∃ id s, scene.loader.standing? id = some s ∧ callback ∈ s.callbacks) ∨
    ∃ frame ∈ scene.stack, callback ∈ frame.callbacks

section

variable (p : Platform ω χ) (allowed : Deed → Prop)

/-- What steps are made of. -/
inductive Move : Scene ω χ → Scene ω χ → Prop
  /-- Frames that dispatch references may be taken off, but none is added. -/
  | bide {l l' : Loader ω χ} {stack above below : List (Frame ω χ)} (bides : l.Bides l')
      (spares : allowed .executes ∨ l.Spares l') (kept : below <:+ stack)
      (pushed : ∀ frame ∈ above, frame.isDispatching = false ∧
        (∀ deed ∈ frame.deed?, allowed deed) ∧
        ∀ callback ∈ frame.callbacks, Scene.Holds ⟨l, stack⟩ callback) :
      Move ⟨l, stack⟩ ⟨l', above ++ below⟩
  /-- A callback comes to wait for a unit that is being loaded or will be. -/
  | await {l stack id s callback} (reason : allowed .loads) (known : l.standing? id = some s)
      (waiting : s.status ≠ .loaded)
      (imports : ∀ c ∈ callback, Callback.isImport c = true → allowed .imports) :
      Move ⟨l, stack⟩ ⟨l.await id callback, stack⟩
  | begin {l stack} (reason : allowed .loads) (idle : l.wave = none) :
      Move ⟨l, stack⟩ ⟨{ l with wave := some {} }, .aborting :: stack⟩
  /-- A unit joins the wave because a reference led to it, or to begin with. -/
  | join {l stack wave id s} (active : l.wave = some wave) (known : l.standing? id = some s)
      (unloaded : s.status = .unloaded)
      (reason : allowed .loads ∨ ∃ key, l.cache.result? key = some id) :
      Move ⟨l, stack⟩
        ⟨((l.enroll wave id s.dependencies).operation .searcher s.directory).1,
          .dispatching id ((l.enroll wave id s.dependencies).operation .searcher s.directory).2
            s.dependencies :: stack⟩
  /-- A reference has been asked for before. -/
  | skip {l stack id searcher reference rest} :
      Move ⟨l, .dispatching id searcher (reference :: rest) :: stack⟩
        ⟨l, .dispatching id searcher rest :: stack⟩
  | ask {l stack id searcher reference rest}
      (unmarked : reference.key searcher.context.text ∉ l.cache.markers) :
      Move ⟨l, .dispatching id searcher (reference :: rest) :: stack⟩
        ⟨l.ask (reference.key searcher.context.text), .dispatching id searcher rest :: stack⟩
  | lookUp {l stack id searcher reference rest world request lookup}
      (unmarked : reference.key searcher.context.text ∉ l.cache.markers)
      (purpose : lookup.purpose = .wave) :
      Move ⟨l, .dispatching id searcher (reference :: rest) :: stack⟩
        ⟨(l.ask (reference.key searcher.context.text)).enlist world request lookup,
          .dispatching id searcher rest :: stack⟩
  | lookUpImport {l stack world request lookup} (reason : allowed .imports) :
      Move ⟨l, stack⟩ ⟨l.enlist world request lookup, stack⟩
  /-- A file that was found is the unit of its URL. -/
  | learn {l stack key id world ticket resource} (reason : allowed .completes)
      (answered : (p.resolver.answer world ticket).2 = .ok (some resource))
      (filed : l.cache.unit? resource.url = some id) :
      Move ⟨l, stack⟩ ⟨{ l with cache := l.cache.insertResult key id }, stack⟩
  | reset {l stack} (reason : allowed .resets) :
      Move ⟨l, stack⟩ ⟨{ l.record .reset with cache := {} }, stack⟩

end

namespace Machine

open Loader

/-- A machine comes about from another by moves. -/
def Moves (p : Platform ω χ) (allowed : Deed → Prop) (m m' : Machine ω χ) : Prop :=
  Relation.ReflTransGen (Move p allowed) m.scene m'.scene

variable {p : Platform ω χ} {allowed : Deed → Prop} {m m' m'' : Machine ω χ}

namespace Moves

theorem refl (m : Machine ω χ) : m.Moves p allowed m := Relation.ReflTransGen.refl

theorem trans (h : m.Moves p allowed m') (h' : m'.Moves p allowed m'') : m.Moves p allowed m'' :=
  Relation.ReflTransGen.trans h h'

theorem of_move (h : Move p allowed m.scene m'.scene) : m.Moves p allowed m' := .single h

theorem invariant {P : Scene ω χ → Prop} (h : m.Moves p allowed m')
    (hmove : ∀ {a b}, Move p allowed a b → P a → P b) (hm : P m.scene) : P m'.scene := by
  rw [Moves] at h
  generalize m'.scene = scene at h ⊢
  induction h with
  | refl => exact hm
  | tail _ hlast ih => exact hmove hlast ih

/-- What is returned or run does not matter. -/
theorem of_scene (h : m'.scene = m.scene) : m.Moves p allowed m' := by
  rw [Moves, h]

/-- The loader bides while frames are taken off the stack and others are put on it. -/
theorem of_frames {above below : List (Frame ω χ)} (hb : m.loader.Bides m'.loader)
    (hs : allowed .executes ∨ m.loader.Spares m'.loader) (hbelow : below <:+ m.stack)
    (hstack : m'.stack = above ++ below) (habove : ∀ frame ∈ above, frame.isDispatching = false ∧
      (∀ deed ∈ frame.deed?, allowed deed) ∧
      ∀ callback ∈ frame.callbacks, m.scene.Holds callback) : m.Moves p allowed m' := by
  refine of_move ?_
  rw [scene, scene, hstack]
  exact .bide hb hs hbelow habove

theorem of_bides (hb : m.loader.Bides m'.loader) (hs : m.loader.Spares m'.loader)
    (hstack : m'.stack = m.stack) : m.Moves p allowed m' :=
  .of_frames hb (.inr hs) (List.suffix_refl _) (hstack.trans (List.nil_append _).symm) (by simp)

theorem of_quiet (hq : m.loader.Quiet m'.loader) (hs : m.loader.Spares m'.loader)
    (hstack : m'.stack = m.stack) : m.Moves p allowed m' :=
  .of_bides (.of_quiet hq) hs hstack

theorem push (m : Machine ω χ) (frame : Frame ω χ) (hdispatching : frame.isDispatching = false)
    (hreason : ∀ deed ∈ frame.deed?, allowed deed) (hcallbacks : frame.callbacks = []) :
    m.Moves p allowed (m.push frame) := by
  have hstack : (m.push frame).stack = [frame] ++ m.stack := rfl
  refine .of_frames (.refl _) (.inr (.refl _)) (List.suffix_refl _) hstack fun f hf ↦ ?_
  rw [List.mem_singleton.mp hf, hcallbacks]
  exact ⟨hdispatching, hreason, by simp⟩

theorem pop {base : List (Frame ω χ)} (h : base <:+ m.stack) :
    m.Moves p allowed { m with stack := base } :=
  .of_frames (.refl _) (.inr (.refl _)) h (List.nil_append _).symm (by simp)

theorem of_grows {popped : List (Frame ω χ)} (hreason : allowed .executes)
    (h : m.Grows popped m') : m.Moves p allowed m' := by
  obtain ⟨hquiet, pushed, hstack, hneutral, -⟩ := h
  refine .of_frames (.of_quiet hquiet) (.inl hreason) (List.suffix_refl _) hstack fun f hf ↦ ?_
  rw [Frame.callbacks_of_isNeutral (hneutral f hf)]
  refine ⟨Frame.isDispatching_of_isNeutral (hneutral f hf), fun deed hdeed ↦ ?_, by simp⟩
  rw [Frame.deed?_of_isNeutral (hneutral f hf) deed hdeed]
  exact hreason

end Moves

/-! ## The functions of the loader -/

theorem moves_closeWave (m : Machine ω χ) : m.Moves p allowed m.closeWave := by
  cases hwave : m.loader.wave with
  | none =>
    rw [closeWave, hwave]
    exact .of_scene rfl
  | some wave =>
    rw [closeWave_eq hwave]
    refine .of_frames (m.loader.bides_close wave) (.inr (m.loader.shifts_close wave).spares)
      (List.suffix_refl _) rfl fun f hf ↦ ?_
    rcases hp : wave.participants with _ | ⟨first, rest⟩
    all_goals rw [hp] at hf
    · cases hf
    · rw [List.mem_singleton.mp hf]
      exact ⟨rfl, by simp [Frame.deed?], by simp [Frame.callbacks]⟩

theorem moves_join {id : UnitId}
    (hunloaded : ∀ s, m.loader.standing? id = some s → s.status = .unloaded)
    (hreason : allowed .loads ∨ ∃ key, m.loader.cache.result? key = some id) :
    m.Moves p allowed (m.join id) := by
  cases hwave : m.loader.wave with
  | none =>
    rw [join, hwave]
    exact .of_bides (m.loader.bides_record rfl) (m.loader.spares_record rfl) rfl
  | some wave =>
    cases hs : m.loader.standing? id with
    | none =>
      rw [join, hwave, standing?_eq_none.mp hs]
      exact .of_scene rfl
    | some s =>
      rw [join_eq hwave hs]
      exact .of_move (.join hwave hs (hunloaded s hs) hreason)

theorem moves_searchFinished {id : UnitId} {key : String}
    (hresult : m.loader.cache.result? key = some id) :
    m.Moves p allowed (m.searchFinished id) := by
  have hsettled : m.Moves p allowed { m with loader := m.loader.settleOne.1 } :=
    .of_bides m.loader.bides_settleOne m.loader.shifts_settleOne.spares rfl
  rw [searchFinished]
  dsimp only
  split
  · exact hsettled
  case h_2 unit hunit =>
    split
    case isTrue hunloaded =>
      refine hsettled.trans (moves_join (fun s hs ↦ ?_) (.inr ⟨key, ?_⟩))
      · rw [standing?_of_unit? hunit] at hs
        cases hs
        exact hunloaded
      · rw [cache_settleOne, hresult]
    case isFalse =>
      split
      · exact hsettled.trans (moves_closeWave _)
      · exact hsettled

theorem moves_callBack (m : Machine ω χ) (id : UnitId) {callback : Callback ω}
    (hreason : callback.isImport = true → allowed .executes) :
    m.Moves p allowed (m.callBack id callback) := by
  cases callback with
  | code code => exact .of_scene rfl
  | importing deliver =>
    have hgrows : m.Grows [] (m.callBack id (.importing deliver)) :=
      .of_pushed (grows_execute [] (m.push (.delivering deliver)) id) rfl fun _ ↦ trivial
    exact .of_grows (hreason rfl) hgrows

theorem moves_endImports (m : Machine ω χ) (count : Nat) :
    m.Moves p allowed (m.update (·.endImports p count)) :=
  .of_quiet (quiet_endImports p _ _) (.of_same rfl rfl) rfl

/-- An import has everything else allowed but a reset and the completion of lookups. -/
theorem moves_loadDependencies {id : UnitId} {callback : Option (Callback ω)}
    (hreason : allowed .loads) (hexecutes : allowed .imports → allowed .executes)
    (himports : ∀ c ∈ callback, Callback.isImport c = true → allowed .imports) :
    m.Moves p allowed (m.loadDependencies p id callback) := by
  cases hs : m.loader.standing? id with
  | none =>
    rw [loadDependencies_unknown p hs]
    exact .of_scene rfl
  | some s =>
    rw [loadDependencies_eq p hs]
    have hawaited (h : s.status ≠ .loaded) : m.Moves p allowed (m.update (·.await id callback)) :=
      .of_move (.await hreason hs h himports)
    cases hstatus : s.status with
    | loaded =>
      cases callback with
      | none => exact .of_scene rfl
      | some callback =>
        have hrecorded : m.Moves p allowed (m.update (·.record (.delivered id))) :=
          .of_bides (m.loader.bides_record rfl) (m.loader.spares_record rfl) rfl
        exact hrecorded.trans (moves_callBack _ id fun h ↦ hexecutes (himports callback rfl h))
    | loading => exact hawaited (by simp [hstatus])
    | unloaded =>
      dsimp only
      split
      case isTrue => exact moves_endImports m _
      case isFalse hwave =>
        have hnone : m.loader.wave = none := by simpa using hwave
        have hbegun : (m.update (·.await id callback)).Moves p allowed
            ((m.update (·.beginWave id callback)).push .aborting) :=
          .of_move (.begin hreason hnone)
        refine ((hawaited (by simp [hstatus])).trans hbegun).trans
          (moves_join (fun s' hs' ↦ ?_) (.inl hreason))
        have hself : (m.loader.beginWave id callback).standing? id = _ :=
          standing?_await_self hs callback
        rw [show s' = _ from Option.some.inj (hs'.symm.trans hself)]
        exact hstatus

/-- An unanswered search of an import may have anything follow but a reset. -/
theorem moves_continueSearch {id : UnitId} {key : String} {purpose : Purpose ω}
    (hresult : m.loader.cache.result? key = some id)
    (hall : allowed .imports → allowed .loads ∧ allowed .executes)
    (himports : purpose.isImport = true → allowed .imports) :
    m.Moves p allowed (m.continueSearch p id purpose) := by
  cases purpose with
  | wave => exact moves_searchFinished hresult
  | importing deliver =>
    have hallowed := himports rfl
    exact moves_loadDependencies (hall hallowed).1 (fun h ↦ (hall h).2) fun _ _ _ ↦ hallowed

theorem moves_failSearch (m : Machine ω χ) (purpose : Purpose ω) (error : LoaderError) :
    m.Moves p allowed (m.failSearch p purpose error) :=
  moves_endImports m _

/-- A reference of the wave is searched that has not been asked for. -/
theorem moves_searchWave {id : UnitId} {searcher : Operation} {reference : Reference}
    {rest : List Reference} (m : Machine ω χ)
    (hunmarked : reference.key searcher.context.text ∉ m.loader.cache.markers)
    (origin : Option Url) :
    (m.push (.dispatching id searcher (reference :: rest))).Moves p allowed
      (((m.push (.dispatching id searcher rest)).update
        (·.ask (reference.key searcher.context.text))).search p searcher reference origin
          .wave) := by
  have hasked : (m.push (.dispatching id searcher (reference :: rest))).Moves p allowed
      ((m.push (.dispatching id searcher rest)).update
        (·.ask (reference.key searcher.context.text))) := .of_move (.ask hunmarked)
  rcases search_cases p ((m.push (.dispatching id searcher rest)).update
      (·.ask (reference.key searcher.context.text))) searcher reference origin .wave with
    ⟨id, hresult, heq⟩ | ⟨-, ⟨cause, -, heq⟩ | ⟨request, -, heq⟩⟩
  all_goals rw [heq]
  · exact hasked.trans (moves_searchFinished hresult)
  · exact hasked.trans (moves_failSearch _ _ _)
  · exact .of_move (.lookUp hunmarked rfl)

theorem moves_continueDispatching (m : Machine ω χ) (id : UnitId) (searcher : Operation)
    (rest : List Reference) :
    (m.push (.dispatching id searcher rest)).Moves p allowed
      (m.continueDispatching p id searcher rest) := by
  cases rest with
  | nil => exact .pop (m := m.push (.dispatching id searcher [])) (List.suffix_cons _ _)
  | cons reference rest =>
    by_cases hmarked : reference.key searcher.context.text ∈ m.loader.cache.markers
    · have hskipped : (m.push (.dispatching id searcher (reference :: rest))).Moves p allowed
          (m.push (.dispatching id searcher rest)) := .of_move .skip
      have hsettled : (m.push (.dispatching id searcher rest)).Moves p allowed
          { m.push (.dispatching id searcher rest) with loader := m.loader.settleOne.1 } :=
        .of_bides m.loader.bides_settleOne m.loader.shifts_settleOne.spares rfl
      rw [continueDispatching]
      have hloader : (m.push (.dispatching id searcher rest)).loader = m.loader := rfl
      rw [hloader, if_pos ((m.loader.cache.isMarked_iff _).mpr hmarked)]
      dsimp only
      split
      · exact (hskipped.trans hsettled).trans (moves_closeWave _)
      · exact hskipped.trans hsettled
    · rw [continueDispatching_unmarked p m id rest hmarked]
      exact moves_searchWave m hmarked _

theorem moves_importFile (m : Machine ω χ) (importer : Operation) (reference : Reference)
    (deliver : Option (Outcome → Code ω)) (hreason : allowed .imports)
    (hall : allowed .imports → allowed .loads ∧ allowed .executes) :
    m.Moves p allowed (m.importFile p importer reference deliver) := by
  have hmade : m.Moves p allowed { m with loader := ((m.loader.touch
      p.resolver.enableCaching).operation .searcher importer.context).1 } :=
    .of_quiet ((m.loader.quiet_world _).trans (quiet_operation _ .searcher importer.context))
      ((m.loader.spares_world _).trans (spares_operation _ .searcher importer.context)) rfl
  rw [importFile]
  dsimp only
  generalize ((m.loader.touch p.resolver.enableCaching).operation .searcher
    importer.context).2 = searcher
  rcases search_cases p { m with loader := ((m.loader.touch
      p.resolver.enableCaching).operation .searcher importer.context).1 } searcher reference _
      (.importing deliver) with ⟨id, hresult, heq⟩ | ⟨-, ⟨cause, -, heq⟩ | ⟨request, -, heq⟩⟩
  all_goals rw [heq]
  · exact hmade.trans (moves_continueSearch hresult hall fun _ ↦ hreason)
  · exact hmade.trans (moves_failSearch _ _ _)
  · exact hmade.trans (.of_move (.lookUpImport hreason))

theorem moves_completeLookup (m : Machine ω χ) (lookup : Lookup ω) (hreason : allowed .completes)
    (hall : allowed .imports → allowed .loads ∧ allowed .executes)
    (himports : lookup.purpose.isImport = true → allowed .imports) :
    m.Moves p allowed (m.completeLookup p lookup) := by
  rw [completeLookup]
  rcases hanswered : p.resolver.answer m.loader.world lookup.ticket with ⟨world, answer⟩
  dsimp only
  have hnoted := m.loader.bides_noteFound world lookup.key answer
  have hspared := (m.loader.shifts_noteFound world lookup.key answer).spares
  generalize { m.loader with world }.noteFound lookup.key answer = noted at hnoted hspared ⊢
  have hquiet := quiet_unitOfAnswer p noted lookup.locator lookup.origin answer
  have hspares := (strokes_unitOfAnswer p noted lookup.locator lookup.origin answer).spares
  rcases hmade : noted.unitOfAnswer p lookup.locator lookup.origin answer with ⟨l, e | id⟩
  all_goals
    rw [hmade] at hquiet hspares
    dsimp only
    have hheard : m.Moves p allowed { m with loader := l } :=
      .of_bides (hnoted.trans (.of_quiet hquiet)) (hspared.trans hspares) rfl
  · exact hheard.trans (moves_failSearch _ _ _)
  · obtain ⟨resource, rfl, hfiled⟩ := exists_of_unitOfAnswer p (congrArg Prod.snd hmade)
    rw [hmade] at hfiled
    have hlearned : Moves p allowed { m with loader := l }
        { m with loader := { l with cache := l.cache.insertResult lookup.key id } } :=
      .of_move (.learn hreason (congrArg Prod.snd hanswered) hfiled)
    have hresult : (l.cache.insertResult lookup.key id).result? lookup.key = some id :=
      (ResolutionCache.result?_insertResult _ _ _ _).trans (if_pos rfl)
    exact (hheard.trans hlearned).trans (moves_continueSearch hresult hall himports)

theorem moves_drive (m : Machine ω χ) (next : Awaited Unit → Code ω) (hreason : allowed .completes)
    (hall : allowed .imports → allowed .loads ∧ allowed .executes)
    (himports : ∀ lookup ∈ m.loader.lookups, lookup.purpose.isImport = true → allowed .imports) :
    m.Moves p allowed (m.drive p next) := by
  rcases drive_cases p m next with
    ⟨-, heq⟩ | ⟨world, -, heq⟩ | ⟨world, before, lookup, after, -, hsplit, heq⟩
  all_goals rw [heq]
  · exact .of_scene rfl
  · exact .of_quiet (m.loader.quiet_world _) (m.loader.spares_world _) rfl
  · have hleft : (before ++ after).Sublist m.loader.lookups := by
      rw [hsplit]
      exact (List.sublist_cons_self lookup after).append_left before
    have htaken : m.Moves p allowed (m.update (·.leave world (before ++ after))) :=
      .of_bides (m.loader.bides_leave world hleft) (.of_same rfl rfl) rfl
    have hlookup : lookup ∈ m.loader.lookups :=
      hsplit ▸ List.mem_append_right _ List.mem_cons_self
    have hpushed : ∀ deed ∈ (Frame.driving next : Frame ω χ).deed?, allowed deed := by
      simpa [Frame.deed?] using hreason
    exact (htaken.trans (.push _ _ rfl hpushed rfl)).trans
      (moves_completeLookup _ lookup hreason hall (himports lookup hlookup))

theorem moves_continueDraining (m : Machine ω χ) (id : UnitId) {callbacks : List (Callback ω)}
    {rest : List UnitId}
    (hreason : ∀ callback ∈ callbacks, callback.isImport = true → allowed .executes) :
    (m.push (.draining id callbacks rest)).Moves p allowed
      (m.continueDraining id callbacks rest) := by
  cases callbacks with
  | cons callback callbacks =>
    have hcalled : (m.push (.draining id (callback :: callbacks) rest)).Moves p allowed
        ((m.push (.draining id callbacks rest)).update (·.record (.delivered id))) := by
      have hstack : (m.push (.draining id callbacks rest)).stack
          = [.draining id callbacks rest] ++ m.stack := rfl
      refine .of_frames (m.loader.bides_record rfl) (.inr (m.loader.spares_record rfl))
        (List.suffix_cons _ _) hstack fun f hf ↦ ?_
      rw [List.mem_singleton.mp hf]
      exact ⟨rfl, by simp [Frame.deed?],
        fun c hc ↦ .inr ⟨_, List.mem_cons_self, List.mem_cons_of_mem _ hc⟩⟩
    exact hcalled.trans (moves_callBack _ id (hreason callback List.mem_cons_self))
  | nil =>
    cases rest with
    | nil => exact .pop (m := m.push (.draining id [] [])) (List.suffix_cons _ _)
    | cons next rest =>
      have hstack : (m.continueDraining id [] (next :: rest)).stack
          = [.draining next (((m.loader.unit? next).map (·.callbacks)).getD []) rest]
            ++ m.stack := rfl
      refine .of_frames (m.loader.bides_take next)
        (.inr (m.loader.spares_modifyUnit next fun _ ↦ rfl)) (List.suffix_cons _ _) hstack
        fun f hf ↦ ?_
      rw [List.mem_singleton.mp hf]
      refine ⟨rfl, by simp [Frame.deed?], fun c hc ↦ .inl ?_⟩
      -- nothing waits for a unit that does not exist
      cases hunit : m.loader.unit? next with
      | none =>
        rw [Frame.callbacks, hunit] at hc
        cases hc
      | some unit =>
        rw [Frame.callbacks, hunit] at hc
        exact ⟨next, _, standing?_of_unit? hunit, hc⟩

/-! ## Steps -/

/-- Whether the next step executes a unit because code asks for it, or goes on with a second
pass. -/
def executes (m : Machine ω χ) : Bool :=
  match m.control, m.stack with
  | .running (.execute ..), _ | .running (.call ..), _ => true
  | .returning _, .compiling .. :: _ => true
  | _, _ => false

/-- Whether the next step goes on to complete lookups. -/
def drives (m : Machine ω χ) : Bool :=
  match m.control, m.stack with
  | .running (.drive _), _ => true
  | .returning (.ok _), .driving _ :: _ => true
  | _, _ => false

/-- What the next step of a machine may do is allowed. -/
structure Permits (allowed : Deed → Prop) (m : Machine ω χ) : Prop where
  loads : ∀ {id callback next}, m.control = .running (.loadDependencies id callback next) →
    allowed .loads
  imports : ∀ {importer reference deliver next},
    m.control = .running (.importFile importer reference deliver next) → allowed .imports
  lookups : ∀ lookup ∈ m.loader.lookups, lookup.purpose.isImport = true → allowed .imports
  executes : m.executes = true → allowed .executes
  callbacks : ∀ callback, m.scene.Holds callback → callback.isImport = true → allowed .executes
  completes : m.drives = true → allowed .completes
  resets : ∀ {next}, m.control = .running (.reset next) → allowed .resets
  all : allowed .imports → allowed .loads ∧ allowed .executes

theorem Permits.of_all (m : Machine ω χ) : m.Permits fun _ ↦ True :=
  ⟨fun _ ↦ trivial, fun _ ↦ trivial, fun _ _ _ ↦ trivial, fun _ ↦ trivial, fun _ _ _ ↦ trivial,
    fun _ ↦ trivial, fun _ ↦ trivial, fun _ ↦ ⟨trivial, trivial⟩⟩

variable (p)

theorem moves_runCode {code : Code ω} (hcontrol : m.control = .running code)
    (h : m.Permits allowed) : m.Moves p allowed (m.runCode p code) := by
  cases code with
  | finish outcome => exact .of_scene rfl
  | observe next => exact .of_scene rfl
  | touch change next =>
    exact .of_quiet (m.loader.quiet_world _) (m.loader.spares_world _) rfl
  | bindGlobal name value next =>
    exact .of_quiet (.of_same rfl rfl rfl rfl rfl) (.of_same rfl rfl) rfl
  | loadDependencies unit callback next =>
    have hcode : ∀ c ∈ callback.map Callback.code,
        Callback.isImport c = true → allowed .imports := by
      intro c hc himport
      obtain ⟨code, -, rfl⟩ := Option.map_eq_some_iff.mp hc
      cases himport
    exact (Moves.push m (.resumeAfter next) rfl (by simp [Frame.deed?]) rfl).trans
      (moves_loadDependencies (h.loads hcontrol) (fun himports ↦ (h.all himports).2) hcode)
  | drive next =>
    have hdrives : m.drives = true := by rw [drives, hcontrol]
    exact moves_drive m next (h.completes hdrives) h.all h.lookups
  | execute unit next =>
    have hexecutes : m.executes = true := by rw [Machine.executes, hcontrol]
    exact .of_grows (h.executes hexecutes)
      (.of_pushed (grows_execute [] (m.push (.resume next)) unit) rfl fun _ ↦ trivial)
  | call executer reference next =>
    have hexecutes : m.executes = true := by rw [Machine.executes, hcontrol]
    rw [runCode]
    split
    · exact .of_scene rfl
    · exact .of_grows (h.executes hexecutes) (.of_pushed
        (grows_callReference [] (m.push (.resume next)) executer reference) rfl fun _ ↦ trivial)
  | importFile importer reference callback next =>
    rw [runCode]
    split
    · exact .of_scene rfl
    · exact (Moves.push m (.resumeAfter next) rfl (by simp [Frame.deed?]) rfl).trans
        (moves_importFile _ importer reference callback (h.imports hcontrol) h.all)
  | openUnit url next =>
    exact .of_quiet (m.loader.quiet_openUnit p url) (m.loader.strokes_openUnit p url).spares rfl
  | createFromSource url code dependencies next =>
    exact .of_quiet (m.loader.quiet_createFromSource p url code dependencies)
      (m.loader.strokes_createFromSource p url code dependencies).spares rfl
  | createFromFunction url body dependencies next =>
    exact .of_quiet (m.loader.quiet_createFromFunction url body dependencies)
      (m.loader.strokes_createFromFunction p url body dependencies).spares rfl
  | createFromResource resource next =>
    exact .of_quiet (m.loader.quiet_unitOfResource p resource)
      (m.loader.strokes_unitOfResource p resource).spares rfl
  | operation kind context next =>
    exact .of_quiet (m.loader.quiet_operation kind context)
      (m.loader.spares_operation kind context) rfl
  | reset next => exact .of_move (.reset (h.resets hcontrol))
  | setHost host next => exact .of_quiet (.of_same rfl rfl rfl rfl rfl) (.of_same rfl rfl) rfl
  | setSubstitutions substitutions next =>
    exact .of_quiet (.of_same rfl rfl rfl rfl rfl) (.of_same rfl rfl) rfl
  | release next =>
    exact .of_bides (m.loader.bides_release p) (m.loader.shifts_release p).spares rfl

/-- A frame is taken off, and something happens in which the loader bides. -/
private theorem moves_popped {frame : Frame ω χ} {base : List (Frame ω χ)}
    (hs : m.stack = frame :: base) (h : Moves p allowed { m with stack := base } m') :
    m.Moves p allowed m' :=
  (Moves.pop (hs ▸ List.suffix_cons frame base)).trans h

theorem moves_resume {frame : Frame ω χ} {base : List (Frame ω χ)} {outcome : Outcome}
    (hcontrol : m.control = .returning outcome) (hs : m.stack = frame :: base)
    (h : m.Permits allowed) :
    m.Moves p allowed ({ m with stack := base }.resume p frame outcome) := by
  have hpushed : m.scene = (({ m with stack := base } : Machine ω χ).push frame).scene := by
    rw [scene, hs]
    rfl
  cases frame with
  | resume next => exact moves_popped p hs (.of_scene rfl)
  | resumeAfter next => exact moves_popped p hs (.of_scene rfl)
  | calling previous =>
    exact moves_popped p hs (.of_quiet (.of_same rfl rfl rfl rfl rfl) (.of_same rfl rfl) rfl)
  | ignoring => exact moves_popped p hs (.of_scene rfl)
  | delivering deliver =>
    have hended : Moves p allowed { m with stack := base }
        ({ m with stack := base }.update (·.endImports p 1)) := moves_endImports _ 1
    cases deliver with
    | none => exact moves_popped p hs hended
    | some deliver =>
      exact moves_popped p hs (hended.trans (.push _ _ rfl (by simp [Frame.deed?]) rfl))
  | compiling pass executer =>
    have hexecutes : m.executes = true := by rw [Machine.executes, hcontrol, hs]
    refine moves_popped p hs ?_
    cases outcome with
    | ok value =>
      exact .of_grows (h.executes hexecutes) (grows_continueCompilation p _ pass executer)
    | error e =>
      have hgrows : Grows [] { m with stack := base }
          ({ m with stack := base }.failCompilation pass e) :=
        .of_quiet (quiet_leaveCompilation _ _ _) rfl
      exact .of_grows (h.executes hexecutes) hgrows
  | driving next =>
    refine moves_popped p hs ?_
    cases outcome with
    | ok value =>
      have hdrives : m.drives = true := by rw [drives, hcontrol, hs]
      exact moves_drive _ next (h.completes hdrives) h.all h.lookups
    | error e => exact .of_bides (m.loader.bides_abort p e) (m.loader.shifts_abort p e).spares rfl
  | dispatching id searcher rest =>
    cases outcome with
    | ok value =>
      rw [Moves, hpushed]
      exact moves_continueDispatching _ id searcher rest
    | error e => exact moves_popped p hs (.of_scene rfl)
  | draining id callbacks rest =>
    cases outcome with
    | ok value =>
      rw [Moves, hpushed]
      refine moves_continueDraining _ id fun callback hcallback ↦ h.callbacks callback (.inr ?_)
      rw [hpushed]
      exact ⟨_, List.mem_cons_self, hcallback⟩
    | error e => exact moves_popped p hs (moves_endImports _ _)
  | aborting =>
    cases outcome with
    | ok value => exact moves_popped p hs (.of_scene rfl)
    | error e =>
      exact moves_popped p hs
        (.of_bides (m.loader.bides_abort p e) (m.loader.shifts_abort p e).spares rfl)

/-- **A step is made of moves.** -/
theorem step_moves (h : m.Permits allowed) : m.Moves p allowed (m.step p) := by
  rw [step]
  split
  case h_1 hcontrol => exact moves_runCode p hcontrol h
  case h_2 => exact .refl m
  case h_3 hcontrol hstack => exact moves_resume p hcontrol hstack h

end Machine

end ScriptLoader
