import Mathlib.Data.Finset.Card
import ScriptLoader.Proofs.Resetting.Likeness

/-!
# Closures are alike

A walk through dependencies tells units apart by their URLs. So two walks list the same units if the
URLs of units are told apart in the same way, which is the case unless a file has the URL of a unit
without one.

The depth of a walk is the number of units that there are, and this is greater for the old loader.
It makes no difference: a walk never gets deeper than the number of URLs that it has not seen.
-/

namespace ScriptLoader

variable {ω χ : Type}

/-! ## How deep a walk gets -/

namespace View

variable (view : View ω)

/-- The units whose URLs have not been seen. -/
def unseen (seen : List Url) : Finset UnitId :=
  (Finset.range view.unitCount).filter fun id ↦
    (view.unit? id).any fun unit ↦ !seen.contains unit.info.url

variable {view} {seen : List Url} {id : UnitId} {unit : UnitView}

theorem mem_unseen_iff : id ∈ view.unseen seen ↔
    id < view.unitCount ∧ ∃ unit, view.unit? id = some unit ∧ unit.info.url ∉ seen := by
  simp [unseen, Option.any_eq_true]

theorem unseen_subset {seen' : List Url} (h : seen ⊆ seen') :
    view.unseen seen' ⊆ view.unseen seen := by
  intro id hid
  obtain ⟨hlt, unit, hunit, hnew⟩ := mem_unseen_iff.mp hid
  exact mem_unseen_iff.mpr ⟨hlt, unit, hunit, fun hmem ↦ hnew (h hmem)⟩

/-- A URL that is seen for the first time is not new any more. -/
theorem card_unseen_lt (hid : id < view.unitCount) (hunit : view.unit? id = some unit)
    (hnew : unit.info.url ∉ seen) :
    (view.unseen (unit.info.url :: seen)).card < (view.unseen seen).card := by
  refine Finset.card_lt_card ⟨unseen_subset (List.subset_cons_self _ _), fun hsubset ↦ ?_⟩
  obtain ⟨-, unit', hunit', hnew'⟩ :=
    mem_unseen_iff.mp (hsubset (mem_unseen_iff.mpr ⟨hid, unit, hunit, hnew⟩))
  rw [hunit] at hunit'
  cases hunit'
  exact hnew' List.mem_cons_self

/-- Where a walk goes on from a unit. -/
def targets (view : View ω) (info : UnitInfo) : List UnitId :=
  info.dependencies.filterMap fun d ↦ view.cachedResult? (info.key d)

def walkAll (view : View ω) (depth : Nat) (targets : List UnitId) (w : Walk) : Walk :=
  targets.foldl (fun w target ↦ view.walk depth target w) w

def Walk.enter (w : Walk) (url : Url) : Walk := { w with seen := url :: w.seen }

def Walk.leave (w : Walk) (id : UnitId) : Walk := { w with listed := w.listed ++ [id] }

variable {w : Walk}

theorem walk_succ (hunit : view.unit? id = some unit) (hnew : unit.info.url ∉ w.seen)
    (depth : Nat) : view.walk (depth + 1) id w
      = (view.walkAll depth (view.targets unit.info) (w.enter unit.info.url)).leave id := by
  rw [walk, hunit]
  exact if_neg (by simpa using hnew)

theorem walk_of_mem (hunit : view.unit? id = some unit) (hseen : unit.info.url ∈ w.seen)
    (depth : Nat) : view.walk depth id w = w := by
  cases depth with
  | zero => rfl
  | succ depth =>
    rw [walk, hunit]
    exact if_pos (by simpa using hseen)

theorem walk_of_none (hnone : view.unit? id = none) (w : Walk) (depth : Nat) :
    view.walk depth id w = w := by
  cases depth with
  | zero => rfl
  | succ depth => rw [walk, hnone]

theorem seen_subset_walk (view : View ω) (depth : Nat) (id : UnitId) (w : Walk) :
    w.seen ⊆ (view.walk depth id w).seen := by
  induction depth generalizing id w with
  | zero => exact List.Subset.refl _
  | succ depth ih =>
    have hall (targets : List UnitId) (w : Walk) :
        w.seen ⊆ (view.walkAll depth targets w).seen := by
      induction targets generalizing w with
      | nil => exact List.Subset.refl _
      | cons target targets ihtargets => exact List.Subset.trans (ih target w) (ihtargets _)
    cases hunit : view.unit? id with
    | none =>
      rw [walk_of_none hunit]
      exact List.Subset.refl _
    | some unit =>
      by_cases hseen : unit.info.url ∈ w.seen
      · rw [walk_of_mem hunit hseen]
        exact List.Subset.refl _
      · rw [walk_succ hunit hseen]
        exact List.Subset.trans (List.subset_cons_self _ _) (hall _ (w.enter unit.info.url))

/-- **The depth of a walk makes no difference**, as long as it covers what has not been seen. -/
theorem walk_eq_walk (made : ∀ id, (view.unit? id).isSome ↔ id < view.unitCount) (depth : Nat)
    {depth' : Nat} (id : UnitId) (h : (view.unseen w.seen).card ≤ depth)
    (h' : (view.unseen w.seen).card ≤ depth') :
    view.walk depth id w = view.walk depth' id w := by
  -- each unit that is entered has a URL that was new, so what has not been seen gets less
  induction depth generalizing depth' id w with
  | zero =>
    cases hunit : view.unit? id with
    | none => rw [walk_of_none hunit, walk_of_none hunit]
    | some unit =>
      have hseen : unit.info.url ∈ w.seen := by
        by_contra hnew
        have hless := card_unseen_lt ((made id).mp (by rw [hunit]; rfl)) hunit hnew
        exact absurd (hless.trans_le h) (Nat.not_lt_zero _)
      rw [walk_of_mem hunit hseen, walk_of_mem hunit hseen]
  | succ depth ih =>
    cases hunit : view.unit? id with
    | none => rw [walk_of_none hunit, walk_of_none hunit]
    | some unit =>
      by_cases hseen : unit.info.url ∈ w.seen
      · rw [walk_of_mem hunit hseen, walk_of_mem hunit hseen]
      · have hless := card_unseen_lt ((made id).mp (by rw [hunit]; rfl)) hunit hseen
        cases depth' with
        | zero => exact absurd (hless.trans_le h') (Nat.not_lt_zero _)
        | succ depth' =>
          have hall (targets : List UnitId) {w : Walk} (h : (view.unseen w.seen).card ≤ depth)
              (h' : (view.unseen w.seen).card ≤ depth') :
              view.walkAll depth targets w = view.walkAll depth' targets w := by
            induction targets generalizing w with
            | nil => rfl
            | cons target targets ihtargets =>
              have hcard : (view.unseen (view.walk depth target w).seen).card ≤ _ :=
                Finset.card_le_card (unseen_subset (seen_subset_walk view depth target w))
              rw [walkAll, walkAll, List.foldl_cons, List.foldl_cons, ← ih target h h']
              exact ihtargets (hcard.trans h) (hcard.trans h')
          rw [walk_succ hunit hseen, walk_succ hunit hseen, hall (w := w.enter unit.info.url) _
            (Nat.le_of_lt_succ (hless.trans_le h)) (Nat.le_of_lt_succ (hless.trans_le h'))]

theorem card_unseen_le (view : View ω) (seen : List Url) :
    (view.unseen seen).card ≤ view.unitCount :=
  (Finset.card_filter_le _ _).trans_eq (Finset.card_range _)

end View

/-! ## Walks side by side -/

namespace Likeness

variable {R : Likeness ω χ}

variable (R) in
/-- No file has the URL of a unit that was made without one. -/
def KeepsApart : Prop := ∀ url, R.given url → ∀ number, url ≠ R.anonymous number

theorem anonymous_inj {number number' : Nat} (h : R.anonymous number = R.anonymous number') :
    number = number' :=
  Url.anonymousName_inj ((Url.isPlain_anonymousName number).named_inj
    (Url.isPlain_anonymousName number') h)

/-- Names that are made up end in a parenthesis. -/
theorem keepsApart_of_getLast? (h : ∀ url, R.given url → url.path.getLast? ≠ some ')') :
    R.KeepsApart := by
  rintro url given number rfl
  exact h _ given (Url.getLast?_named_anonymousName _ number)

theorem Urls.eq_iff (apart : R.KeepsApart) {url url' other other' : Url} (h : R.Urls url url')
    (hother : R.Urls other other') : url = other ↔ url' = other' := by
  cases h with
  | given hgiven =>
    cases hother with
    | given => exact Iff.rfl
    | numbered number =>
      exact ⟨fun heq ↦ absurd heq (apart _ hgiven _), fun heq ↦ absurd heq (apart _ hgiven _)⟩
  | numbered number =>
    cases hother with
    | given hgiven =>
      exact ⟨fun heq ↦ absurd heq.symm (apart _ hgiven _),
        fun heq ↦ absurd heq.symm (apart _ hgiven _)⟩
    | numbered number' =>
      constructor
      · intro heq
        rw [Nat.add_right_cancel (anonymous_inj heq)]
      · intro heq
        rw [anonymous_inj heq]

theorem Urls.mem_iff (apart : R.KeepsApart) {url url' : Url} (h : R.Urls url url')
    {seen seen' : List Url} (hseen : List.Forall₂ R.Urls seen seen') :
    url ∈ seen ↔ url' ∈ seen' := by
  induction hseen with
  | nil => simp
  | cons hother _ ih => rw [List.mem_cons, List.mem_cons, h.eq_iff apart hother, ih]

variable (R) in
/-- Walks are alike if they have been to the same units. -/
structure Walks (w w' : View.Walk) : Prop where
  seen : List.Forall₂ R.Urls w.seen w'.seen
  listed : w.listed = w'.listed.map R.shift

namespace Views

variable {view view' : View ω}

theorem targets (h : R.Views view view') {info info' : UnitInfo} (hinfos : R.Infos info info') :
    view.targets info = (view'.targets info').map R.shift := by
  rw [View.targets, View.targets, List.map_filterMap, hinfos.dependencies]
  refine List.filterMap_congr fun reference _ ↦ ?_
  rw [UnitInfo.key, UnitInfo.key, hinfos.directory, h.cachedResult]

theorem walk (h : R.Views view view') (apart : R.KeepsApart) (depth : Nat) (id : UnitId)
    {w w' : View.Walk} (hwalks : R.Walks w w') :
    R.Walks (view.walk depth (R.shift id) w) (view'.walk depth id w') := by
  induction depth generalizing id w w' with
  | zero => exact hwalks
  | succ depth ih =>
    -- walks to several units are alike, since walks to one are
    have hall (targets : List UnitId) {w w' : View.Walk} (hwalks : R.Walks w w') :
        R.Walks (view.walkAll depth (targets.map R.shift) w)
          (view'.walkAll depth targets w') := by
      induction targets generalizing w w' with
      | nil => exact hwalks
      | cons target targets ihtargets => exact ihtargets (ih target hwalks)
    have hrel := h.unit id
    cases hunit : view.unit? (R.shift id) with
    | none =>
      have hunit' : view'.unit? id = none := by
        rw [hunit] at hrel
        generalize view'.unit? id = found at hrel ⊢
        cases hrel
        rfl
      rw [View.walk_of_none hunit, View.walk_of_none hunit']
      exact hwalks
    | some unit =>
      obtain ⟨unit', hunit', hunits⟩ : ∃ unit', view'.unit? id = some unit' ∧
          R.UnitViews unit unit' := by
        rw [hunit] at hrel
        generalize view'.unit? id = found at hrel ⊢
        cases hrel
        exact ⟨_, rfl, ‹_›⟩
      have hinfos := hunits.info
      by_cases hseen : unit.info.url ∈ w.seen
      · have hseen' := (hinfos.url.mem_iff apart hwalks.seen).mp hseen
        rw [View.walk_of_mem hunit hseen, View.walk_of_mem hunit' hseen']
        exact hwalks
      · have hseen' := fun hmem ↦ hseen ((hinfos.url.mem_iff apart hwalks.seen).mpr hmem)
        rw [View.walk_succ hunit hseen, View.walk_succ hunit' hseen', h.targets hinfos]
        have hentered : R.Walks (w.enter unit.info.url) (w'.enter unit'.info.url) :=
          ⟨.cons hinfos.url hwalks.seen, hwalks.listed⟩
        obtain ⟨hseen, hlisted⟩ := hall (view'.targets unit'.info) hentered
        refine ⟨hseen, ?_⟩
        show _ ++ [R.shift id] = List.map R.shift (_ ++ [id])
        rw [hlisted, List.map_append]
        rfl

/-- **Closures are alike**: they consist of the same units in the same order, if no file has the URL
of a unit without one. -/
theorem closure (h : R.Views view view') (apart : R.KeepsApart) (id : UnitId) :
    view.closure (R.shift id) = (view'.closure id).map R.shift := by
  have hempty : R.Walks {} {} := ⟨.nil, rfl⟩
  have hwalks := h.walk apart view.unitCount id hempty
  rw [View.closure, View.closure, hwalks.listed]
  -- the new loader is walked through to the depth of the old one
  have hcount : view'.unitCount ≤ view.unitCount := h.unitCount ▸ Nat.le_add_right _ _
  rw [View.walk_eq_walk h.made view.unitCount id ((View.card_unseen_le _ _).trans hcount)
    (View.card_unseen_le _ _)]

end Views

end Likeness

end ScriptLoader
