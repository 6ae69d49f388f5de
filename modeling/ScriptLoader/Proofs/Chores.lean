import ScriptLoader.Proofs.Once

/-!
# A walk as a list of chores

The closure of a unit is listed by a walk: first the walk goes to what the references of the unit
led to, then the unit is listed. What is left of a walk at some moment is a list of chores, which
are to visit a unit or to list one. Which units have been seen can be read off, since these are
listed or are still to be.

So the recursion of the walk can be unfolded into chores that are done one after the other, and
anything that does the same chores lists the same units.
-/

namespace ScriptLoader

variable {ω χ : Type}

inductive Chore where
  /-- To go to a unit, unless it has been seen. -/
  | visit (unit : UnitId)
  /-- To list a unit, after what its references led to. -/
  | list (unit : UnitId)

namespace Loader

/-- The chores for references that are known in a directory: what they led to is visited. -/
def visits (l : Loader ω χ) (directory : String) (references : List Reference) : List Chore :=
  (references.filterMap fun r ↦ l.cache.result? (r.key directory)).map .visit

/-- Chores that are done one after the other list units; those that have been listed before come
first. -/
inductive Lists (l : Loader ω χ) : List Chore → List UnitId → List UnitId → Prop
  | done (listed) : Lists l [] listed listed
  /-- A unit has been seen. -/
  | pass {id rest listed order} (seen : id ∈ listed ∨ .list id ∈ rest)
      (later : Lists l rest listed order) : Lists l (.visit id :: rest) listed order
  | enter {id unit rest listed order} (known : l.unit? id = some unit)
      (unlisted : id ∉ listed) (unseen : .list id ∉ rest)
      (later : Lists l
        (l.visits unit.info.directory.text unit.info.dependencies ++ .list id :: rest)
        listed order) :
      Lists l (.visit id :: rest) listed order
  | list {id rest listed order} (later : Lists l rest (listed ++ [id]) order) :
      Lists l (.list id :: rest) listed order

variable {l : Loader ω χ} {id : UnitId} {chores rest : List Chore} {listed order : List UnitId}

theorem visits_nil (l : Loader ω χ) (directory : String) : l.visits directory [] = [] := rfl

theorem visits_cons {r : Reference} {directory : String}
    (h : l.cache.result? (r.key directory) = some id) (references : List Reference) :
    l.visits directory (r :: references) = .visit id :: l.visits directory references := by
  have hfirst : l.visits directory (r :: references)
      = ((l.cache.result? (r.key directory)).toList ++ references.filterMap fun r ↦
          l.cache.result? (r.key directory)).map .visit := by
    rw [visits, List.filterMap_cons]
    cases l.cache.result? (r.key directory) <;> rfl
  rw [hfirst, h]
  rfl

theorem list_mem_visits_append (directory : String) (references : List Reference) :
    .list id ∈ l.visits directory references ++ rest ↔ .list id ∈ rest := by
  simp [visits]

theorem Lists.sublist (h : l.Lists chores listed order) : listed ⊆ order := by
  induction h with
  | done => exact List.Subset.refl _
  | pass _ _ ih => exact ih
  | enter _ _ _ _ ih => exact ih
  | list _ ih => exact List.Subset.trans (List.subset_append_left _ _) ih

theorem Lists.mem_of_list (h : l.Lists chores listed order) (hid : .list id ∈ chores) :
    id ∈ order := by
  induction h with
  | done => cases hid
  | pass _ _ ih => exact ih ((List.mem_cons.mp hid).resolve_left (by simp))
  | enter _ _ _ _ ih =>
    have hrest := (List.mem_cons.mp hid).resolve_left (by simp)
    exact ih (List.mem_append_right _ (List.mem_cons_of_mem _ hrest))
  | list later ih =>
    rcases List.mem_cons.mp hid with heq | hrest
    · cases heq
      exact later.sublist (List.mem_append_right _ (List.mem_singleton_self _))
    · exact ih hrest

/-! ## What a walk does -/

/-- How many units there are whose URLs have not been seen. -/
def unseen (l : Loader ω χ) (seen : List Url) : Nat :=
  (l.units.filter fun unit ↦ unit.info.url ∉ seen).length

theorem unseen_nil (l : Loader ω χ) : l.unseen [] = l.units.length := by
  simp [unseen]

theorem unseen_mono {seen seen' : List Url} (h : seen ⊆ seen') :
    l.unseen seen' ≤ l.unseen seen := by
  rw [unseen, unseen, ← List.countP_eq_length_filter, ← List.countP_eq_length_filter]
  refine List.countP_mono_left fun unit _ hunit ↦ ?_
  simp only [decide_eq_true_eq] at hunit ⊢
  exact fun hmem ↦ hunit (h hmem)

/-- A URL that is seen for the first time leaves fewer units. -/
theorem unseen_cons {unit : LoadedUnit ω χ} (hunit : l.unit? id = some unit) {seen : List Url}
    (hnew : unit.info.url ∉ seen) : l.unseen (unit.info.url :: seen) < l.unseen seen := by
  have hsplit : (l.units.filter fun other ↦ other.info.url ∉ unit.info.url :: seen)
      = (l.units.filter fun other ↦ other.info.url ∉ seen).filter
        fun other ↦ other.info.url ≠ unit.info.url := by
    rw [List.filter_filter]
    congr 1
    funext other
    simp
  rw [unseen, unseen, hsplit, List.length_filter_lt_length_iff_exists]
  refine ⟨unit, List.mem_filter.mpr ⟨List.mem_of_getElem? hunit, ?_⟩, by simp⟩
  exact decide_eq_true hnew

/-- The units of URLs that have been seen are listed, or are still to be. -/
def Tallies (l : Loader ω χ) (rest : List Chore) (w : View.Walk) : Prop :=
  ∀ ⦃url id⦄, l.cache.unit? url = some id → (url ∈ w.seen ↔ id ∈ w.listed ∨ .list id ∈ rest)

/-- A walk has gone on to where some chores have been done. -/
structure Follows (l : Loader ω χ) (chores rest : List Chore) (w w' : View.Walk) : Prop where
  tallies : l.Tallies rest w'
  seen : w.seen ⊆ w'.seen
  lists : ∀ {order}, l.Lists rest w'.listed order → l.Lists (chores ++ rest) w.listed order

theorem Follows.refl {w : View.Walk} (h : l.Tallies rest w) : l.Follows [] rest w w :=
  ⟨h, List.Subset.refl _, id⟩

theorem Follows.trans {w w' w'' : View.Walk} {more : List Chore}
    (h : l.Follows chores (more ++ rest) w w') (h' : l.Follows more rest w' w'') :
    l.Follows (chores ++ more) rest w w'' :=
  ⟨h'.tallies, List.Subset.trans h.seen h'.seen, fun hlists ↦ by
    rw [List.append_assoc]
    exact h.lists (h'.lists hlists)⟩

theorem tallies_visit_iff {w : View.Walk} (ids : List UnitId) :
    l.Tallies (ids.map .visit ++ rest) w ↔ l.Tallies rest w := by
  simp [Tallies]

theorem follows_foldl (step : View.Walk → UnitId → View.Walk) {bound : Nat} {ids : List UnitId}
    (h : ∀ id ∈ ids, ∀ {rest w}, l.unseen w.seen ≤ bound → l.Tallies rest w →
      l.Follows [.visit id] rest w (step w id))
    {w : View.Walk} (hbound : l.unseen w.seen ≤ bound) (hw : l.Tallies rest w) :
    l.Follows (ids.map .visit) rest w (ids.foldl step w) := by
  induction ids generalizing w with
  | nil => exact .refl hw
  | cons id ids ih =>
    obtain ⟨hid, hids⟩ := List.forall_mem_cons.mp h
    have hfirst := hid hbound ((tallies_visit_iff ids).mpr hw)
    exact hfirst.trans (ih hids (Nat.le_trans (unseen_mono hfirst.seen) hbound)
      ((tallies_visit_iff ids).mp hfirst.tallies))

/-- A unit is entered: it is seen from then on, and listed after what its references led to. -/
theorem Tallies.enter (htidy : l.Tidy) {s : Standing ω} (hs : l.standing? id = some s)
    (hfiled : l.cache.unit? s.url = some id) {w : View.Walk} (hw : l.Tallies rest w) :
    l.Tallies (.list id :: rest) { w with seen := s.url :: w.seen } := by
  intro url other hother
  by_cases hid : other = id
  · subst hid
    obtain ⟨s', hs', rfl⟩ := htidy.unit hother
    rw [hs, Option.some.injEq] at hs'
    simp [hs']
  · have hurl : url ≠ s.url := by
      rintro rfl
      exact hid (Option.some.inj (hother.symm.trans hfiled))
    simp [hid, hurl, hw hother]

theorem Tallies.list {w : View.Walk} (h : l.Tallies (.list id :: rest) w) :
    l.Tallies rest { w with listed := w.listed ++ [id] } := by
  intro url other hother
  simp [h hother, or_assoc]

/-- **To walk to a unit is to visit it**, provided that the walk may go deep enough. -/
theorem follows_walk (hregistered : l.Registered) (htidy : l.Tidy) (depth : Nat)
    (hfiled : l.Filed id) {w : View.Walk} (hdepth : l.unseen w.seen ≤ depth)
    (hw : l.Tallies rest w) : l.Follows [.visit id] rest w (l.view.walk depth id w) := by
  induction depth generalizing id rest w with
  | zero =>
    obtain ⟨url, hurl⟩ := hfiled
    -- nothing is left to be seen
    have hseen : url ∈ w.seen := by
      obtain ⟨s, hs, rfl⟩ := htidy.unit hurl
      obtain ⟨unit, hunit, rfl⟩ := standing?_eq_some.mp hs
      by_contra hnew
      exact Nat.not_lt_zero _ (Nat.lt_of_lt_of_le (unseen_cons hunit hnew) hdepth)
    exact ⟨hw, List.Subset.refl _, .pass ((hw hurl).mp hseen)⟩
  | succ depth ih =>
    obtain ⟨url, hurl⟩ := hfiled
    obtain ⟨s, hs, rfl⟩ := htidy.unit hurl
    obtain ⟨unit, hunit, rfl⟩ := standing?_eq_some.mp hs
    have hview : l.view.unit? id = some unit.view := congrArg (Option.map _) hunit
    rw [View.walk, hview]
    dsimp only [LoadedUnit.view]
    by_cases hseen : unit.info.url ∈ w.seen
    · rw [if_pos (List.contains_iff_mem.mpr hseen)]
      exact ⟨hw, List.Subset.refl _, .pass ((hw hurl).mp hseen)⟩
    · rw [if_neg (mt List.contains_iff_mem.mp hseen)]
      obtain ⟨hunlisted, hunseen⟩ := not_or.mp (mt (hw hurl).mpr hseen)
      have hbound : l.unseen (unit.info.url :: w.seen) ≤ depth :=
        Nat.lt_succ_iff.mp (Nat.lt_of_lt_of_le (unseen_cons hunit hseen) hdepth)
      have htargets : l.Follows (l.visits unit.info.directory.text unit.info.dependencies)
          (.list id :: rest) { w with seen := unit.info.url :: w.seen } _ :=
        follows_foldl (fun w target ↦ l.view.walk depth target w)
          (fun target htarget _ _ hdepth hw ↦ by
            obtain ⟨r, -, hresult⟩ := List.mem_filterMap.mp htarget
            exact ih (hregistered hresult) hdepth hw)
          hbound (hw.enter htidy hs hurl)
      have hseen' := List.Subset.trans (List.subset_cons_self _ _) htargets.seen
      refine ⟨htargets.tallies.list, hseen', ?_⟩
      intro order hlists
      exact .enter hunit hunlisted hunseen (htargets.lists (.list hlists))

/-- **The closure of a unit is what is listed when it is visited.** -/
theorem lists_closure (hregistered : l.Registered) (htidy : l.Tidy) (hfiled : l.Filed id) :
    l.Lists [.visit id] [] (l.view.closure id) := by
  have hdepth : l.unseen [] ≤ l.view.unitCount := Nat.le_of_eq (unseen_nil l)
  have hnone : l.Tallies [] {} := by simp [Tallies]
  exact (follows_walk hregistered htidy _ hfiled hdepth hnone).lists (.done _)

end Loader

end ScriptLoader
