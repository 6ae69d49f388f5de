import ScriptLoader.Proofs.Turn

/-!
# Runs with their history

A machine does not remember how it came about. What has been asked for and called along the way is
read off the *history* of a run: all its machines, the latest first. A history begins with a fresh
loader and grows by one step at a time, or by more code when all code has ended. So the machines
that have a history are those that can be reached.
-/

namespace ScriptLoader

variable {ω χ : Type} (p : Platform ω χ)

namespace Machine

/-- The machines of a run, the latest first. -/
inductive History : List (Machine ω χ) → Prop
  | start {l : Loader ω χ} (fresh : l.IsFresh) (code : Code ω) :
      History [{ loader := l, control := .running code }]
  | step {m : Machine ω χ} {earlier : List (Machine ω χ)} (history : History (m :: earlier)) :
      History (m.step p :: m :: earlier)
  | again {m : Machine ω χ} {earlier : List (Machine ω χ)} (history : History (m :: earlier))
      (halted : m.isHalted = true) (code : Code ω) :
      History ({ m with control := .running code } :: m :: earlier)

/-- A history with some more steps. -/
def prolong : (count : Nat) → List (Machine ω χ) → List (Machine ω χ)
  | 0, machines => machines
  | _ + 1, [] => []
  | count + 1, m :: earlier => prolong count (m.step p :: m :: earlier)

namespace History

variable {p} {m : Machine ω χ} {earlier machines : List (Machine ω χ)}

theorem reachable (h : History p (m :: earlier)) : m.Reachable p := by
  generalize heq : m :: earlier = machines at h
  induction h generalizing m earlier with
  | start fresh code => cases heq; exact .start fresh code
  | step _ ih => cases heq; exact (ih rfl).step
  | again _ halted code ih => cases heq; exact (ih rfl).again halted code

theorem prolong (h : History p machines) (count : Nat) : History p (prolong p count machines) := by
  induction count generalizing machines with
  | zero => exact h
  | succ count ih =>
    cases machines with
    | nil => cases h
    | cons m earlier => exact ih h.step

end History

theorem Reachable.exists_history {p : Platform ω χ} {m : Machine ω χ} (h : m.Reachable p) :
    ∃ earlier, History p (m :: earlier) := by
  induction h with
  | start fresh code => exact ⟨_, .start fresh code⟩
  | step _ ih =>
    obtain ⟨earlier, h⟩ := ih
    exact ⟨_, h.step⟩
  | again _ halted code ih =>
    obtain ⟨earlier, h⟩ := ih
    exact ⟨_, h.again halted code⟩

end Machine

end ScriptLoader
