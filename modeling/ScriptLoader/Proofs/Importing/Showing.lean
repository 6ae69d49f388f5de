import ScriptLoader.Proofs.Loading

/-!
# What a run shows of imports

An import is over when its file has been executed and its callback is called with the outcome. Both
can be seen from outside: the body of the file returns to the frame that stands for the import, and
this frame hands the outcome to the callback. What a run shows are these two events of each import,
in the order in which they happen.
-/

namespace ScriptLoader

variable {ω χ : Type}

/-- Something that can be seen of an import. -/
inductive ImportEvent (ω : Type) where
  /-- The body of a file was called for an import, and has ended. -/
  | returned (url : Url) (outcome : Outcome)
  /-- The callback of an import is called with an outcome. -/
  | called (deliver : Option (Outcome → Code ω)) (outcome : Outcome)

namespace Machine

/-- What the next step shows of an import. -/
def importEvent? (m : Machine ω χ) : Option (ImportEvent ω) :=
  match m.control, m.stack with
  | .returning outcome, .calling _ :: .delivering _ :: _ =>
    (m.loader.executing.bind m.loader.unit?).map fun unit ↦ .returned unit.info.url outcome
  | .returning outcome, .delivering deliver :: _ => some (.called deliver outcome)
  | _, _ => none

/-- Steps from one machine to another, and what they show of imports. -/
inductive Shows (p : Platform ω χ) : Machine ω χ → List (ImportEvent ω) → Machine ω χ → Prop
  | refl (m) : Shows p m [] m
  | step {m events m'} (rest : Shows p (m.step p) events m') :
      Shows p m (m.importEvent?.toList ++ events) m'

variable {p : Platform ω χ} {m m' m'' : Machine ω χ} {events events' : List (ImportEvent ω)}

theorem Shows.trans (h : Shows p m events m') (h' : Shows p m' events' m'') :
    Shows p m (events ++ events') m'' := by
  induction h with
  | refl => exact h'
  | step _ ih => exact List.append_assoc .. ▸ .step (ih h')

theorem shows_of_step (h : m.step p = m') (hnone : m.importEvent? = none) : Shows p m [] m' := by
  have hstep : Shows p m (m.importEvent?.toList ++ []) m' := .step (h ▸ .refl _)
  rw [hnone] at hstep
  exact hstep

theorem shows_of_running {l : Loader ω χ} {code : Code ω} {stack : List (Frame ω χ)}
    (h : step p ⟨l, .running code, stack⟩ = m') : Shows p ⟨l, .running code, stack⟩ [] m' :=
  shows_of_step h rfl

theorem Shows.reachable (h : Shows p m events m') (hm : m.Reachable p) : m'.Reachable p := by
  induction h with
  | refl => exact hm
  | step _ ih => exact ih hm.step

/-- A machine belongs to the run that begins with another. -/
def Visits (p : Platform ω χ) (start m : Machine ω χ) : Prop := ∃ events, Shows p start events m

namespace Visits

variable {start : Machine ω χ}

theorem refl (p : Platform ω χ) (start : Machine ω χ) : Visits p start start := ⟨[], .refl _⟩

theorem shows (h : Visits p start m) (hshows : Shows p m events m') : Visits p start m' := by
  obtain ⟨before, hbefore⟩ := h
  exact ⟨_, hbefore.trans hshows⟩

theorem step (h : Visits p start m) : Visits p start (m.step p) := h.shows (.step (.refl _))

theorem reachable (h : Visits p start m) (hstart : start.Reachable p) : m.Reachable p := by
  obtain ⟨events, hshows⟩ := h
  exact hshows.reachable hstart

end Visits

end Machine

end ScriptLoader
