import Mathlib.Algebra.Ring.Nat
import ScriptLoader.Proofs.Wave

/-!
# The balance of a wave

A wave counts the references that are not settled yet. The count is raised by all references of a
unit at once when the unit joins, and lowered by one in four different places, so it is not evident
what it counts at a given moment. It counts two things: the lookups under way for the wave, and the
references that the frames on the stack have still to visit. Between operations there are no such
frames, and the count is the number of lookups.

## The invariant

A machine is *sound* when the count is right, unless an error is on its way to the frame that will
drop the wave. For this the stack must be *arranged*: frames that still have references to visit
stand directly on the frame that started or drives the wave, and nothing that could run code stands
on them. So code only ever runs when no frame has references to visit.

The loader is sound with respect to two states between steps, in which a function of the loader is
in the middle of its work: it is *ready* when code could run, and *engaged* when some references of
the wave are in hand.
-/

namespace ScriptLoader

variable {ω χ : Type}

/-! ## Counting -/

namespace Frame

/-- How many references a frame has still to visit. -/
def owed : Frame ω χ → Nat
  | dispatching _ _ rest => rest.length
  | _ => 0

/-- Whether a frame visits the references of a unit. -/
def isDispatching : Frame ω χ → Bool
  | dispatching .. => true
  | _ => false

theorem owed_eq_zero {frame : Frame ω χ} (h : frame.isDispatching = false) : frame.owed = 0 := by
  cases frame <;> first | rfl | cases h

theorem isDispatching_of_isNeutral {frame : Frame ω χ} (h : frame.isNeutral = true) :
    frame.isDispatching = false := by
  cases frame <;> first | rfl | cases h

end Frame

namespace Stack

/-- How many references the frames have still to visit. -/
def owed (stack : List (Frame ω χ)) : Nat := (stack.map Frame.owed).sum

@[simp] theorem owed_nil : owed ([] : List (Frame ω χ)) = 0 := rfl

@[simp] theorem owed_cons (frame : Frame ω χ) (stack : List (Frame ω χ)) :
    owed (frame :: stack) = frame.owed + owed stack := by
  rw [owed, List.map_cons, List.sum_cons, owed]

/-- On top is a frame that passes errors on to where the wave is dropped, or drops it. -/
def Catching : List (Frame ω χ) → Prop
  | .dispatching .. :: _ | .aborting :: _ | .driving _ :: _ => True
  | _ => False

/-- References are only to be visited by frames that stand on each other and on the frame that drops
the wave. -/
def Arranged : List (Frame ω χ) → Prop
  | [] => True
  | frame :: base =>
    (if frame.isDispatching then Catching base else owed base = 0) ∧ Arranged base

theorem arranged_cons {frame : Frame ω χ} {base : List (Frame ω χ)}
    (h : frame.isDispatching = false) :
    Arranged (frame :: base) ↔ owed base = 0 ∧ Arranged base := by
  rw [Arranged, if_neg (by simp [h])]

theorem arranged_dispatching {id : UnitId} {searcher : Operation} {rest : List Reference}
    {base : List (Frame ω χ)} :
    Arranged (.dispatching id searcher rest :: base) ↔ Catching base ∧ Arranged base :=
  Iff.rfl

end Stack

open Stack

namespace Event

/-- Whether an event shows that the count of a wave was wrong: a reference was settled when none was
left, or without a wave, or a unit could not join for want of a wave. -/
def isSlip : Event → Bool
  | settled none | settled (some 0) | turnedAway _ => true
  | _ => false

theorem isSlip_of_isQuiet {e : Event} (h : e.isQuiet = true) : e.isSlip = false := by
  cases e <;> first | rfl | cases h

end Event

namespace Loader

/-- How many lookups are under way for the wave. -/
def waveLookups (l : Loader ω χ) : Nat := l.lookups.countP fun lookup ↦ !lookup.purpose.isImport

/-- The wave counts its lookups and `owed` references more, and there is a wave as long as the count
is not zero. -/
def Balances (l : Loader ω χ) (owed : Nat) : Prop :=
  match l.wave with
  | none => l.waveLookups = 0 ∧ owed = 0
  | some wave => wave.outstanding = l.waveLookups + owed ∧ 0 < wave.outstanding

theorem waveLookups_enlist (l : Loader ω χ) (world : ω) (request : Request) (lookup : Lookup ω) :
    (l.enlist world request lookup).waveLookups
      = l.waveLookups + if lookup.purpose.isImport then 0 else 1 := by
  have happend : (l.enlist world request lookup).lookups = l.lookups ++ [lookup] := rfl
  rw [waveLookups, happend, List.countP_append, List.countP_singleton]
  cases lookup.purpose.isImport <;> rfl

/-- What the tables of a loader are trusted in. -/
structure Tidy (l : Loader ω χ) : Prop where
  result : ∀ {key id}, l.cache.result? key = some id → ∃ s, l.standing? id = some s
  unit : ∀ {url id}, l.cache.unit? url = some id → ∃ s, l.standing? id = some s ∧ s.url = url
  dependencies : ∀ {id s}, l.standing? id = some s → s.status = .unloaded → s.dependencies ≠ []
  bound : l.OperationsBound

/-- The journal shows no slip. -/
def Flawless (l : Loader ω χ) : Prop := ∀ e ∈ l.journal, e.isSlip = false

/-- Units and tables may change as long as units keep what they declare, none becomes unloaded, and
the tables lead to the same units. -/
theorem Tidy.of_keeps {l l' : Loader ω χ} (h : l.Tidy)
    (hresults : l'.cache.results = l.cache.results) (hfiled : l'.cache.units = l.cache.units)
    (hops : l'.cache.operations = l.cache.operations) (hkeeps : l.Keeps l')
    (hback : ∀ {id s'}, l'.standing? id = some s' → s'.status = .unloaded →
      ∃ s, l.standing? id = some s ∧ s.status = .unloaded ∧ s.dependencies = s'.dependencies) :
    l'.Tidy where
  result hresult := by
    rw [ResolutionCache.result?, hresults] at hresult
    obtain ⟨s, hs⟩ := h.result hresult
    obtain ⟨s', hs', -⟩ := hkeeps hs
    exact ⟨s', hs'⟩
  unit hunit := by
    rw [ResolutionCache.unit?, hfiled] at hunit
    obtain ⟨s, hs, hurl⟩ := h.unit hunit
    obtain ⟨s', hs', hurl', -⟩ := hkeeps hs
    exact ⟨s', hs', hurl'.trans hurl⟩
  dependencies hs hstatus := by
    obtain ⟨s, hs, hstatus', hdeps⟩ := hback hs hstatus
    exact hdeps ▸ h.dependencies hs hstatus'
  bound := by
    rw [OperationsBound, hops]
    exact h.bound

theorem Tidy.congr {l l' : Loader ω χ} (h : l.Tidy) (hunits : l'.units = l.units)
    (hresults : l'.cache.results = l.cache.results) (hfiled : l'.cache.units = l.cache.units)
    (hops : l'.cache.operations = l.cache.operations) : l'.Tidy := by
  have hstanding := standing?_congr hunits
  exact h.of_keeps hresults hfiled hops (fun _ _ hs ↦ ⟨_, (hstanding _).trans hs, rfl, rfl, rfl⟩)
    fun hs hstatus ↦ ⟨_, (hstanding _).symm.trans hs, hstatus, rfl⟩

theorem Tidy.quiet {l l' : Loader ω χ} (h : l.Tidy) (hq : l.Quiet l') : l'.Tidy where
  result hresult := by
    obtain ⟨s, hs⟩ := h.result ((hq.result? _).symm.trans hresult)
    exact ⟨s, hq.known hs⟩
  unit hunit := by
    rcases hq.newlyFiled hunit with hold | ⟨-, hs⟩
    · obtain ⟨s, hs, hurl⟩ := h.unit hold
      exact ⟨s, hq.known hs, hurl⟩
    · exact hs
  dependencies hs hstatus := by
    rcases hq.fresh hs with hs | ⟨-, hnew⟩
    · exact h.dependencies hs hstatus
    · exact hnew.dependencies_ne_nil hstatus
  bound := hq.bound h.bound

theorem Tidy.enroll {l : Loader ω χ} (h : l.Tidy) (wave : Wave) (id : UnitId)
    (dependencies : List Reference) : (l.enroll wave id dependencies).Tidy :=
  h.of_keeps rfl rfl rfl (l.keeps_enroll wave id dependencies) fun {other s'} hs hstatus ↦ by
    rw [standing?_enroll, Option.map_eq_some_iff] at hs
    obtain ⟨s, hs, rfl⟩ := hs
    split at hstatus
    · cases hstatus
    · exact ⟨s, hs, hstatus, by split <;> rfl⟩

theorem Tidy.close {l : Loader ω χ} (h : l.Tidy) (wave : Wave) : (l.close wave).Tidy :=
  h.of_keeps (by simp) (by simp) (by simp) (l.keeps_close wave) fun {other s'} hs hstatus ↦ by
    rw [standing?_close, Option.map_eq_some_iff] at hs
    obtain ⟨s, hs, rfl⟩ := hs
    split at hstatus
    · cases hstatus
    · exact ⟨s, hs, hstatus, by split <;> rfl⟩

theorem Tidy.modifyCallbacks {l : Loader ω χ} (h : l.Tidy) (id : UnitId)
    (change : List (Callback ω) → List (Callback ω)) :
    (l.modifyUnit id fun unit ↦ { unit with callbacks := change unit.callbacks }).Tidy :=
  h.of_keeps rfl rfl rfl (l.keeps_modifyCallbacks id change) fun {other s'} hs hstatus ↦ by
    rw [standing?_modifyCallbacks, Option.map_eq_some_iff] at hs
    obtain ⟨s, hs, rfl⟩ := hs
    exact ⟨s, hs, by split at hstatus <;> exact hstatus, by split <;> rfl⟩

theorem Tidy.insertResult {l : Loader ω χ} (h : l.Tidy) (key : String) {id : UnitId}
    {s : Standing ω} (hs : l.standing? id = some s) :
    ({ l with cache := l.cache.insertResult key id } : Loader ω χ).Tidy := by
  refine ⟨fun hr ↦ ?_, h.unit, h.dependencies, h.bound⟩
  rw [ResolutionCache.result?_insertResult] at hr
  split at hr
  · cases hr; exact ⟨s, hs⟩
  · exact h.result hr

theorem Flawless.quiet {l l' : Loader ω χ} (h : l.Flawless) (hq : l.Quiet l') : l'.Flawless := by
  obtain ⟨events, heq, hquiet⟩ := hq.journal
  intro e he
  rw [heq] at he
  rcases List.mem_append.mp he with he | he
  · exact Event.isSlip_of_isQuiet (hquiet e he)
  · exact h e he

theorem Flawless.cons {l : Loader ω χ} {journal : List Event} {e : Event} (h : l.Flawless)
    (heq : journal = e :: l.journal) (he : e.isSlip = false) : ∀ e ∈ journal, e.isSlip = false := by
  subst heq
  exact List.forall_mem_cons.mpr ⟨he, h⟩

theorem Tidy.noteFound {l : Loader ω χ} (h : l.Tidy) (world : ω) (key : String)
    (answer : Except LoaderError (Option Resource)) :
    ({ l with world }.noteFound key answer).Tidy := by
  obtain ⟨events, heq, -⟩ := { l with world }.noteFound_eq key answer
  rw [heq]
  exact h.congr rfl rfl rfl rfl

theorem Flawless.noteFound {l : Loader ω χ} (h : l.Flawless) (world : ω) (key : String)
    (answer : Except LoaderError (Option Resource)) :
    ({ l with world }.noteFound key answer).Flawless := by
  obtain ⟨events, heq, hevents⟩ := { l with world }.noteFound_eq key answer
  rw [heq]
  refine List.forall_mem_append.mpr ⟨fun e he ↦ ?_, h⟩
  obtain ⟨resource, -, rfl⟩ := hevents e he
  rfl

theorem Balances.of_none {l : Loader ω χ} (hwave : l.wave = none) (hlookups : l.waveLookups = 0) :
    l.Balances 0 := by
  rw [Balances, hwave]
  exact ⟨hlookups, rfl⟩

theorem balances_some {l : Loader ω χ} {owed : Nat} {wave : Wave} (hwave : l.wave = some wave) :
    l.Balances owed ↔ wave.outstanding = l.waveLookups + owed ∧ 0 < wave.outstanding := by
  rw [Balances, hwave]

theorem Balances.wave_eq_none {l : Loader ω χ} (h : l.Balances 0) (hlookups : l.lookups = []) :
    l.wave = none := by
  cases hwave : l.wave with
  | none => rfl
  | some wave =>
    obtain ⟨hcount, hpos⟩ := (balances_some hwave).mp h
    rw [hcount, waveLookups, hlookups] at hpos
    cases hpos

theorem Balances.congr {l l' : Loader ω χ} {owed : Nat} (h : l.Balances owed)
    (hwave : l'.wave = l.wave) (hlookups : l'.waveLookups = l.waveLookups) : l'.Balances owed := by
  rw [Balances, hwave, hlookups]
  exact h

end Loader

/-! ## The invariant -/

namespace Machine

open Loader

/-- A loader and a stack with which code could run. -/
structure Ready (l : Loader ω χ) (stack : List (Frame ω χ)) : Prop where
  tidy : l.Tidy
  flawless : l.Flawless
  arranged : Arranged stack
  idle : owed stack = 0
  balanced : l.Balances 0

/-- A loader and a stack with an active wave of which `inHand` references are being worked on. -/
structure Engaged (inHand : Nat) (l : Loader ω χ) (stack : List (Frame ω χ)) (wave : Wave) :
    Prop where
  tidy : l.Tidy
  flawless : l.Flawless
  arranged : Arranged stack
  catching : Catching stack
  active : l.wave = some wave
  counted : wave.outstanding = l.waveLookups + owed stack + inHand

/-- An error is on its way to the frame that will drop the wave. -/
def Falls (m : Machine ω χ) : Prop :=
  (∃ e, m.control = .returning (.error e)) ∧ m.loader.wave.isSome = true ∧ Catching m.stack

/-- The count of the wave is right, or will not matter. -/
structure Sound (m : Machine ω χ) : Prop where
  tidy : m.loader.Tidy
  flawless : m.loader.Flawless
  arranged : Arranged m.stack
  idle : ∀ {code}, m.control = .running code → owed m.stack = 0
  balanced : m.Falls ∨ m.loader.Balances (owed m.stack)

namespace Ready

variable {l l' : Loader ω χ} {stack : List (Frame ω χ)}

theorem sound {m : Machine ω χ} (h : Ready m.loader m.stack) : m.Sound :=
  ⟨h.tidy, h.flawless, h.arranged, fun _ ↦ h.idle, .inr (h.idle ▸ h.balanced)⟩

theorem push (h : Ready l stack) {frame : Frame ω χ} (hframe : frame.isDispatching = false) :
    Ready l (frame :: stack) where
  __ := h
  arranged := (arranged_cons hframe).mpr ⟨h.idle, h.arranged⟩
  idle := by rw [owed_cons, Frame.owed_eq_zero hframe, h.idle]

theorem pushAll (h : Ready l stack) {frames : List (Frame ω χ)}
    (hframes : ∀ f ∈ frames, f.isDispatching = false) : Ready l (frames ++ stack) := by
  induction frames with
  | nil => exact h
  | cons frame rest ih =>
    refine (ih fun f hf ↦ hframes f (List.mem_cons_of_mem _ hf)).push ?_
    exact hframes frame List.mem_cons_self

theorem change (h : Ready l stack) (htidy : l'.Tidy) (hflawless : l'.Flawless)
    (hwave : l'.wave = l.wave) (hlookups : l'.waveLookups = l.waveLookups) : Ready l' stack :=
  ⟨htidy, hflawless, h.arranged, h.idle, h.balanced.congr hwave hlookups⟩

theorem noteFound (h : Ready l stack) (world : ω) (key : String)
    (answer : Except LoaderError (Option Resource)) :
    Ready ({ l with world }.noteFound key answer) stack := by
  have htidy := h.tidy.noteFound world key answer
  have hflawless := h.flawless.noteFound world key answer
  obtain ⟨events, heq, -⟩ := { l with world }.noteFound_eq key answer
  rw [heq] at htidy hflawless ⊢
  exact h.change htidy hflawless rfl rfl

theorem quiet (h : Ready l stack) (hq : l.Quiet l') : Ready l' stack :=
  h.change (h.tidy.quiet hq) (h.flawless.quiet hq) hq.wave (congrArg (List.countP _) hq.lookups)

theorem record (h : Ready l stack) {e : Event} (he : e.isSlip = false) : Ready (l.record e) stack :=
  h.change (h.tidy.congr rfl rfl rfl rfl) (h.flawless.cons rfl he) rfl rfl

theorem grows {m m' : Machine ω χ} {popped : List (Frame ω χ)} (h : Ready m.loader m.stack)
    (hg : m.Grows popped m') : Ready m'.loader m'.stack := by
  obtain ⟨hquiet, pushed, hstack, hneutral, -⟩ := hg
  rw [hstack]
  exact (h.quiet hquiet).pushAll fun f hf ↦ Frame.isDispatching_of_isNeutral (hneutral f hf)

theorem drop (htidy : l.Tidy) (hflawless : l.Flawless) (harranged : Arranged stack)
    (hidle : owed stack = 0) (hwave : l.wave = none) (hlookups : l.lookups = []) : Ready l stack :=
  ⟨htidy, hflawless, harranged, hidle, .of_none hwave (by rw [waveLookups, hlookups]; rfl)⟩

end Ready

namespace Sound

variable {m : Machine ω χ} {frame : Frame ω χ} {base : List (Frame ω χ)}

theorem balances_of_not_falls (h : m.Sound) (hf : ¬m.Falls) : m.loader.Balances (owed m.stack) :=
  h.balanced.resolve_left hf

/-- Code only runs when the loader is ready. -/
theorem ready (h : m.Sound) {code : Code ω} (hc : m.control = .running code) :
    Ready m.loader m.stack := by
  have hidle := h.idle hc
  refine ⟨h.tidy, h.flawless, h.arranged, hidle, hidle ▸ h.balances_of_not_falls ?_⟩
  rintro ⟨⟨e, he⟩, -⟩
  rw [hc] at he
  cases he

/-- Below a frame that dispatches nothing the loader is ready, unless an error falls through. -/
theorem ready_below (h : m.Sound) (hs : m.stack = frame :: base)
    (hframe : frame.isDispatching = false) (hf : ¬m.Falls) : Ready m.loader base := by
  have harranged := h.arranged
  have hbalanced := h.balances_of_not_falls hf
  rw [hs, arranged_cons hframe] at harranged
  rw [hs, owed_cons, Frame.owed_eq_zero hframe, harranged.1] at hbalanced
  exact ⟨h.tidy, h.flawless, harranged.2, harranged.1, hbalanced⟩

end Sound

theorem not_falls_of_ok {m : Machine ω χ} {value : Value} (h : m.control = .returning (.ok value)) :
    ¬m.Falls := by
  rintro ⟨⟨e, he⟩, -⟩
  rw [h] at he
  cases he

theorem not_falls_of_top {m : Machine ω χ} {frame : Frame ω χ} {base : List (Frame ω χ)}
    (hs : m.stack = frame :: base) (hframe : frame.isNeutral = true ∨ ∃ id callbacks rest,
      frame = .draining id callbacks rest) : ¬m.Falls := by
  rintro ⟨-, -, hcatching⟩
  rw [hs] at hcatching
  rcases hframe with hneutral | ⟨id, callbacks, rest, rfl⟩
  · cases frame <;> first | exact hcatching | cases hneutral
  · exact hcatching

/-! ## What keeps it -/

theorem Ready.sound_done {m : Machine ω χ} (h : Ready m.loader m.stack) : m.done.Sound :=
  sound (m := m.done) h

theorem Ready.sound_start {m : Machine ω χ} (h : Ready m.loader m.stack) (code : Code ω) :
    (m.start code).Sound := sound (m := m.start code) h

theorem Ready.sound_throw {m : Machine ω χ} (h : Ready m.loader m.stack) (error : LoaderError) :
    (m.throw error).Sound := sound (m := m.throw error) h

namespace Engaged

variable {n : Nat} {l l' : Loader ω χ} {stack : List (Frame ω χ)} {wave : Wave}

theorem change (h : Engaged n l stack wave) (htidy : l'.Tidy) (hflawless : l'.Flawless)
    (hwave : l'.wave = l.wave) (hlookups : l'.waveLookups = l.waveLookups) :
    Engaged n l' stack wave :=
  ⟨htidy, hflawless, h.arranged, h.catching, hwave.trans h.active, by rw [h.counted, hlookups]⟩

theorem noteFound (h : Engaged n l stack wave) (world : ω) (key : String)
    (answer : Except LoaderError (Option Resource)) :
    Engaged n ({ l with world }.noteFound key answer) stack wave := by
  have htidy := h.tidy.noteFound world key answer
  have hflawless := h.flawless.noteFound world key answer
  obtain ⟨events, heq, -⟩ := { l with world }.noteFound_eq key answer
  rw [heq] at htidy hflawless ⊢
  exact h.change htidy hflawless rfl rfl

theorem quiet (h : Engaged n l stack wave) (hq : l.Quiet l') : Engaged n l' stack wave :=
  h.change (h.tidy.quiet hq) (h.flawless.quiet hq) hq.wave (congrArg (List.countP _) hq.lookups)

/-- One of the references in hand is settled: the count was not zero. -/
theorem settle (h : Engaged (n + 1) l stack wave) :
    Engaged n (l.settle wave) stack { wave with outstanding := wave.outstanding - 1 } where
  tidy := h.tidy.congr rfl rfl rfl rfl
  flawless := by
    refine h.flawless.cons rfl ?_
    have := h.counted
    rcases hcount : wave.outstanding with _ | k
    · omega
    · rfl
  arranged := h.arranged
  catching := h.catching
  active := rfl
  counted := by
    have : (l.settle wave).waveLookups = l.waveLookups := rfl
    have := h.counted
    dsimp only
    omega

variable {m : Machine ω χ}

theorem sound_done (h : Engaged 0 m.loader m.stack wave) (hpos : 0 < wave.outstanding) :
    m.done.Sound where
  tidy := h.tidy
  flawless := h.flawless
  arranged := h.arranged
  idle hc := by cases hc
  balanced := .inr ((balances_some h.active).mpr ⟨h.counted, hpos⟩)

/-- An error falls to where the wave is dropped, whatever is in hand. -/
theorem sound_throw (h : Engaged n m.loader m.stack wave) (error : LoaderError) :
    (m.throw error).Sound where
  tidy := h.tidy
  flawless := h.flawless
  arranged := h.arranged
  idle hc := by cases hc
  balanced := by
    refine .inl ⟨⟨error, rfl⟩, ?_, h.catching⟩
    have : m.loader.wave = some wave := h.active
    rw [throw, give, this]
    rfl

/-- Nothing is left to settle: then no lookup is under way for the wave, and no frame has references
to visit. -/
theorem close (h : Engaged 0 l stack wave) (hzero : wave.outstanding = 0) :
    Ready (l.close wave) stack := by
  have hcounted := h.counted
  refine ⟨h.tidy.close wave, h.flawless.cons (l.journal_close wave) rfl, h.arranged, by omega, ?_⟩
  refine .of_none (l.wave_close wave) ?_
  rw [waveLookups, lookups_close]
  change l.waveLookups = 0
  omega

theorem sound_closeWave (h : Engaged 0 m.loader m.stack wave) (hzero : wave.outstanding = 0) :
    m.closeWave.Sound := by
  rw [closeWave_eq h.active]
  refine ((h.close hzero).pushAll fun f hf ↦ ?_).sound
  rcases hp : wave.participants with _ | ⟨first, rest⟩
  all_goals rw [hp] at hf
  · cases hf
  · rw [List.mem_singleton.mp hf]; rfl

theorem sound_join (h : Engaged 0 m.loader m.stack wave) {id : UnitId} {s : Standing ω}
    (hs : m.loader.standing? id = some s) (hne : s.dependencies ≠ []) : (m.join id).Sound := by
  rw [join_eq h.active hs]
  have hquiet := (m.loader.enroll wave id s.dependencies).quiet_operation .searcher s.directory
  have hflawless : (m.loader.enroll wave id s.dependencies).Flawless := h.flawless.cons rfl rfl
  have hlookups : (m.loader.enroll wave id s.dependencies).waveLookups = m.loader.waveLookups := rfl
  refine ⟨(h.tidy.enroll _ _ _).quiet hquiet, hflawless.quiet hquiet,
    arranged_dispatching.mpr ⟨h.catching, h.arranged⟩, fun hc ↦ (by cases hc), .inr ?_⟩
  refine Balances.congr ?_ hquiet.wave (congrArg (List.countP _) hquiet.lookups)
  rw [balances_some rfl, owed_cons, hlookups, Frame.owed]
  dsimp only
  have := h.counted
  have := List.length_pos_iff.mpr hne
  constructor <;> omega

theorem sound_searchFinished (h : Engaged 1 m.loader m.stack wave) {id : UnitId} {s : Standing ω}
    (hs : m.loader.standing? id = some s) : (m.searchFinished id).Sound := by
  rw [searchFinished_eq h.active hs]
  have hsettled := h.settle
  dsimp only
  split
  case isTrue hunloaded =>
    exact sound_join (m := { m with loader := m.loader.settle wave }) hsettled hs
      (h.tidy.dependencies hs hunloaded)
  case isFalse =>
    split
    case isTrue hzero =>
      exact sound_closeWave (m := { m with loader := m.loader.settle wave }) hsettled hzero
    case isFalse hne =>
      exact sound_done (m := { m with loader := m.loader.settle wave }) hsettled
        (Nat.pos_of_ne_zero hne)

end Engaged

end Machine

end ScriptLoader
