import ScriptLoader.Proofs.Importing.Executing

/-!
# Checking a run

Whether nothing stands in the way of a run can be computed for a run that comes to its end, as long
as its bodies and callbacks end at once: each machine that the run visits is looked at.
-/

namespace ScriptLoader.Machine

variable {ω χ : Type} {p : Platform ω χ} {leads : String → Url} {keys : List String}
  {start m m' : Machine ω χ} {events : List (ImportEvent ω)}

/-- Whether the code that runs is none of a body or a callback, or ends at once. -/
def isPlain (m : Machine ω χ) : Bool :=
  match m.control, m.stack with
  | .running (.finish (.ok _)), .calling _ :: _ => true
  | .running _, .calling _ :: _ => false
  | .running (.finish _), .ignoring :: _ => true
  | .running _, .ignoring :: _ => false
  | _, _ => true

/-- Whether driving has come to an error. -/
def failsDriving (m : Machine ω χ) : Bool :=
  match m.control, m.stack with
  | .returning (.error _), .driving _ :: _ => true
  | _, _ => false

/-- Whether a run comes to its end in fewer steps than `fuel`, and passes a check all the way. -/
def always (p : Platform ω χ) (check : Machine ω χ → Bool) : (fuel : Nat) → Machine ω χ → Bool
  | 0, _ => false
  | fuel + 1, m => check m && (m.isHalted || always p check fuel (m.step p))

theorem check_of_always {check : Machine ω χ → Bool} {fuel : Nat}
    (h : always p check fuel m = true) (hshows : Shows p m events m') : check m' = true := by
  induction hshows generalizing fuel with
  | refl m =>
    cases fuel with
    | zero => cases h
    | succ fuel => exact (Bool.and_eq_true_iff.mp h).1
  | @step m events m' _ ih =>
    cases fuel with
    | zero => cases h
    | succ fuel =>
      rcases Bool.or_eq_true_iff.mp (Bool.and_eq_true_iff.mp h).2 with hhalted | hrest
      · exact ih ((step_of_isHalted hhalted).symm ▸ h)
      · exact ih hrest

/-- Passive bodies and callbacks do not stand in the way of a run. -/
theorem Unhindered.of_passive (hreachable : start.Reachable p)
    (hgranted : ∀ {m}, Visits p start m → m.isGranted p leads keys = true)
    (hbody : ∀ {l code previous base},
      Visits p start ⟨l, .running code, .calling previous :: base⟩ →
        code.IsPassive fun outcome ↦ ∃ value, outcome = .ok value)
    (hcallback : ∀ {l code base}, Visits p start ⟨l, .running code, .ignoring :: base⟩ →
      code.IsPassive fun _ ↦ True) :
    Unhindered p leads keys start where
  reachable := hreachable
  granted := hgranted
  body hv := by
    obtain ⟨_, l', hshows, ⟨value, rfl⟩, hexecuted⟩ := (hbody hv).exists_shows p _ _
    exact ⟨value, l', hshows, hexecuted⟩
  callback hv := by
    obtain ⟨outcome, l', hshows, -, hexecuted⟩ := (hcallback hv).exists_shows p _ _
    exact ⟨outcome, l', hshows, hexecuted⟩

/-- **A run that passes the check is unhindered.** -/
theorem Unhindered.of_always {fuel : Nat} (hreachable : start.Reachable p)
    (h : always p (fun m ↦ m.isGranted p leads keys && m.isPlain) fuel start = true) :
    Unhindered p leads keys start := by
  have hchecked {m : Machine ω χ} (hv : Visits p start m) :
      m.isGranted p leads keys = true ∧ m.isPlain = true := by
    obtain ⟨events, hshows⟩ := hv
    exact Bool.and_eq_true_iff.mp (check_of_always h hshows)
  refine .of_passive hreachable (fun hv ↦ (hchecked hv).1) (fun {l code previous base} hv ↦ ?_)
    fun {l code base} hv ↦ ?_
  · have hplain := (hchecked hv).2
    cases code with
    | finish outcome =>
      cases outcome with
      | ok value => exact .finish ⟨value, rfl⟩
      | error => cases hplain
    | _ => cases hplain
  · have hplain := (hchecked hv).2
    cases code with
    | finish => exact .finish trivial
    | _ => cases hplain

/-- Some steps of a run, and what they show. -/
def follow (p : Platform ω χ) : (count : Nat) → Machine ω χ → List (ImportEvent ω) × Machine ω χ
  | 0, m => ([], m)
  | count + 1, m =>
    let (events, m') := follow p count (m.step p)
    (m.importEvent?.toList ++ events, m')

theorem shows_follow (p : Platform ω χ) (count : Nat) (m : Machine ω χ) :
    Shows p m (follow p count m).1 (follow p count m).2 := by
  induction count generalizing m with
  | zero => exact .refl m
  | succ count ih => exact .step (ih (m.step p))

end ScriptLoader.Machine
