import ScriptLoader.Proofs.Compiling.Bundling

/-!
# What a closure lists, and in which order

A walk marks the URL of a unit when it enters the unit, and lists the unit when it leaves it again.
In between the unit is *open*: the walk is somewhere below it. References may form cycles, so a walk
can meet an open unit. It passes on then, and that is the only way in which a unit is listed before
something that its references led to. But whatever is open leads to where the walk is, so such a
reference closes a cycle.

The walk of a view is given a depth. `Loader.Walks` is the same walk without one, which may take as
long as it needs; that a walk comes to its end is that there is a derivation.
-/

namespace ScriptLoader

variable {ω χ : Type}

open Relation

namespace Loader

/-- The units that the references of a unit led to, in the order in which it declares them. -/
def targets (l : Loader ω χ) (info : UnitInfo) : List UnitId :=
  info.dependencies.filterMap fun r ↦ l.cache.result? (info.key r)

/-- A walk to some units, one after the other, comes to its end. -/
inductive Walks (l : Loader ω χ) : List UnitId → View.Walk → View.Walk → Prop
  | done (w) : Walks l [] w w
  | unknown {id rest w w'} (unknown : l.unit? id = none) (later : Walks l rest w w') :
      Walks l (id :: rest) w w'
  | pass {id unit rest w w'} (known : l.unit? id = some unit) (seen : unit.info.url ∈ w.seen)
      (later : Walks l rest w w') : Walks l (id :: rest) w w'
  | enter {id unit rest w w₁ w'} (known : l.unit? id = some unit)
      (unseen : unit.info.url ∉ w.seen)
      (below : Walks l (l.targets unit.info) { w with seen := unit.info.url :: w.seen } w₁)
      (later : Walks l rest { w₁ with listed := w₁.listed ++ [id] } w') : Walks l (id :: rest) w w'

/-- There is a unit, and references lead to it from another. -/
def Reaches (l : Loader ω χ) (root id : UnitId) : Prop :=
  (l.unit? id).isSome = true ∧ ReflTransGen l.Leads root id

/-- Units that are reached and have the same URL are the same. -/
def Distinct (l : Loader ω χ) (root : UnitId) : Prop :=
  ∀ ⦃id id' unit unit'⦄, ReflTransGen l.Leads root id → ReflTransGen l.Leads root id' →
    l.unit? id = some unit → l.unit? id' = some unit' → unit.info.url = unit'.info.url → id = id'

variable {l : Loader ω χ} {id other root : UnitId} {ids ids' : List UnitId} {w w₁ w' : View.Walk}

theorem leads_of_mem_targets {unit : LoadedUnit ω χ} (hunit : l.unit? id = some unit)
    (h : other ∈ l.targets unit.info) : l.Leads id other := by
  obtain ⟨r, hr, hresult⟩ := List.mem_filterMap.mp h
  exact ⟨unit, hunit, r, hr, hresult⟩

theorem mem_targets_of_leads {unit : LoadedUnit ω χ} (hunit : l.unit? id = some unit)
    (h : l.Leads id other) : other ∈ l.targets unit.info := by
  obtain ⟨unit', hunit', r, hr, hresult⟩ := h
  rw [hunit, Option.some.injEq] at hunit'
  subst hunit'
  exact List.mem_filterMap.mpr ⟨r, hr, hresult⟩

/-! ## Walks come to their end -/

namespace Walks

theorem seen_subset (h : l.Walks ids w w') : w.seen ⊆ w'.seen := by
  induction h with
  | done => exact List.Subset.refl _
  | unknown _ _ ih => exact ih
  | pass _ _ _ ih => exact ih
  | enter _ _ _ _ ihbelow ihlater =>
    exact List.Subset.trans (List.subset_cons_self _ _) (List.Subset.trans ihbelow ihlater)

theorem listed_prefix (h : l.Walks ids w w') : w.listed <+: w'.listed := by
  induction h with
  | done => exact List.prefix_refl _
  | unknown _ _ ih => exact ih
  | pass _ _ _ ih => exact ih
  | enter _ _ _ _ ihbelow ihlater =>
    exact ihbelow.trans ((List.prefix_append _ _).trans ihlater)

theorem append (h : l.Walks ids w w₁) (h' : l.Walks ids' w₁ w') : l.Walks (ids ++ ids') w w' := by
  induction h with
  | done => exact h'
  | unknown hunknown _ ih => exact .unknown hunknown (ih h')
  | pass hknown hseen _ ih => exact .pass hknown hseen (ih h')
  | enter hknown hunseen hbelow _ _ ihlater => exact .enter hknown hunseen hbelow (ihlater h')

end Walks

theorem walks_foldl {visit : View.Walk → UnitId → View.Walk} {bound : Nat}
    (h : ∀ id w, l.unseen w.seen ≤ bound → l.Walks [id] w (visit w id))
    (hw : l.unseen w.seen ≤ bound) : l.Walks ids w (ids.foldl visit w) := by
  induction ids generalizing w with
  | nil => exact .done w
  | cons id ids ih =>
    have hfirst := h id w hw
    exact hfirst.append (ih ((unseen_mono hfirst.seen_subset).trans hw))

/-- **A walk comes to its end** within any depth that the units which have not been seen allow. -/
theorem walks_walk (depth : Nat) (hdepth : l.unseen w.seen ≤ depth) :
    l.Walks [id] w (l.view.walk depth id w) := by
  induction depth generalizing id w with
  | zero =>
    cases hunit : l.unit? id with
    | none => exact .unknown hunit (.done w)
    | some unit =>
      refine .pass hunit ?_ (.done w)
      by_contra hnew
      exact Nat.not_lt_zero _ (Nat.lt_of_lt_of_le (unseen_cons hunit hnew) hdepth)
  | succ depth ih =>
    rw [View.walk]
    cases hunit : l.unit? id with
    | none =>
      have hview : l.view.unit? id = none := congrArg (Option.map _) hunit
      rw [hview]
      exact .unknown hunit (.done w)
    | some unit =>
      have hview : l.view.unit? id = some unit.view := congrArg (Option.map _) hunit
      rw [hview]
      dsimp only [LoadedUnit.view]
      by_cases hseen : unit.info.url ∈ w.seen
      · rw [if_pos (List.contains_iff_mem.mpr hseen)]
        exact .pass hunit hseen (.done w)
      · rw [if_neg (mt List.contains_iff_mem.mp hseen)]
        have hbound : l.unseen (unit.info.url :: w.seen) ≤ depth :=
          Nat.lt_succ_iff.mp (Nat.lt_of_lt_of_le (unseen_cons hunit hseen) hdepth)
        exact .enter hunit hseen (walks_foldl (fun _ _ hw ↦ ih hw) hbound) (.done _)

/-! ## What walks mark and list -/

/-- A walk from a root has got as far as this, with some units open. -/
structure Marks (l : Loader ω χ) (root : UnitId) (unlisted : List UnitId) (w : View.Walk) :
    Prop where
  /-- What has been seen is listed or open. -/
  seen : ∀ {id unit}, ReflTransGen l.Leads root id → l.unit? id = some unit →
    (unit.info.url ∈ w.seen ↔ id ∈ w.listed ∨ id ∈ unlisted)
  nodup : (w.listed ++ unlisted).Nodup
  /-- What a listed unit led to has been met, and it is listed before the unit or leads back. -/
  led : ∀ {id other}, id ∈ w.listed → l.Leads id other → (l.unit? other).isSome = true →
    (other ∈ w.listed ∨ other ∈ unlisted) ∧
      ([other, id].Sublist w.listed ∨ ReflTransGen l.Leads other id)

variable {unlisted : List UnitId}

theorem marks_nil (l : Loader ω χ) (root : UnitId) : l.Marks root [] {} where
  seen _ _ := by simp
  nodup := List.nodup_nil
  led h := by cases h

namespace Marks

theorem enter (h : l.Marks root unlisted w) (hdistinct : l.Distinct root)
    (hroot : ReflTransGen l.Leads root id) {unit : LoadedUnit ω χ} (hunit : l.unit? id = some unit)
    (hunseen : unit.info.url ∉ w.seen) :
    l.Marks root (id :: unlisted) { w with seen := unit.info.url :: w.seen } where
  seen {other unit'} hother hunit' := by
    by_cases hid : other = id
    · subst hid
      rw [hunit, Option.some.injEq] at hunit'
      simp [hunit']
    · have hurl : unit'.info.url ≠ unit.info.url :=
        fun heq ↦ hid (hdistinct hother hroot hunit' hunit heq)
      simp [hid, hurl, h.seen hother hunit']
  nodup := by
    have hnew : id ∉ w.listed ++ unlisted :=
      fun hmem ↦ hunseen ((h.seen hroot hunit).mpr (List.mem_append.mp hmem))
    exact (List.perm_middle.nodup_iff).mpr (List.nodup_cons.mpr ⟨hnew, h.nodup⟩)
  led hid hleads hother := by
    obtain ⟨hmet, horder⟩ := h.led hid hleads hother
    exact ⟨hmet.imp_right (List.mem_cons_of_mem _), horder⟩

/-- A unit is left, when all that it led to has been met. Units that are open lead to it. -/
theorem leave (h : l.Marks root (id :: unlisted) w)
    (hmet : ∀ other, l.Leads id other → (l.unit? other).isSome = true →
      other ∈ w.listed ∨ other ∈ id :: unlisted)
    (hopen : ∀ other ∈ unlisted, ReflTransGen l.Leads other id) :
    l.Marks root unlisted { w with listed := w.listed ++ [id] } where
  seen hother hunit := by
    rw [h.seen hother hunit, List.mem_append, List.mem_singleton, List.mem_cons, or_assoc]
  nodup := by
    rw [List.append_assoc]
    exact h.nodup
  led {other target} hmem hleads hknown := by
    have hshift {x : UnitId} (hx : x ∈ w.listed ∨ x ∈ id :: unlisted) :
        x ∈ w.listed ++ [id] ∨ x ∈ unlisted := by
      rwa [List.mem_append, List.mem_singleton, or_assoc, ← List.mem_cons]
    rcases List.mem_append.mp hmem with hbefore | hlast
    · obtain ⟨hmet', horder⟩ := h.led hbefore hleads hknown
      exact ⟨hshift hmet', horder.imp_left (·.trans (List.sublist_append_left _ _))⟩
    · obtain rfl := List.mem_singleton.mp hlast
      have htarget := hmet target hleads hknown
      refine ⟨hshift htarget, ?_⟩
      -- what is open leads back; anything else has been listed by now
      rcases htarget with hlisted | hopened
      · exact .inl ((List.singleton_sublist.mpr hlisted).append (List.Sublist.refl [other]))
      · rcases List.mem_cons.mp hopened with rfl | hopened
        · exact .inr .refl
        · exact .inr (hopen target hopened)

end Marks

/-- **A walk goes on marking**, and it lists what it is sent to unless that is open. -/
theorem Walks.marks (h : l.Walks ids w w') (hdistinct : l.Distinct root)
    (hroot : ∀ id ∈ ids, ReflTransGen l.Leads root id)
    (hopen : ∀ other ∈ unlisted, ∀ id ∈ ids, ReflTransGen l.Leads other id)
    (hmarks : l.Marks root unlisted w) :
    l.Marks root unlisted w' ∧
      ∀ id ∈ ids, (l.unit? id).isSome = true → id ∈ w'.listed ∨ id ∈ unlisted := by
  induction h generalizing unlisted with
  | done w => exact ⟨hmarks, by simp⟩
  | @unknown id rest w w' hunknown _ ih =>
    obtain ⟨hmarks', hmet⟩ := ih (fun id hid ↦ hroot id (List.mem_cons_of_mem _ hid))
      (fun other hother id hid ↦ hopen other hother id (List.mem_cons_of_mem _ hid)) hmarks
    refine ⟨hmarks', List.forall_mem_cons.mpr ⟨fun hknown ↦ ?_, hmet⟩⟩
    rw [hunknown] at hknown
    cases hknown
  | @pass id unit rest w w' hknown hseen hlater ih =>
    obtain ⟨hmarks', hmet⟩ := ih (fun id hid ↦ hroot id (List.mem_cons_of_mem _ hid))
      (fun other hother id hid ↦ hopen other hother id (List.mem_cons_of_mem _ hid)) hmarks
    have hid := (hmarks.seen (hroot id List.mem_cons_self) hknown).mp hseen
    exact ⟨hmarks', List.forall_mem_cons.mpr
      ⟨fun _ ↦ hid.imp_left (hlater.listed_prefix.subset ·), hmet⟩⟩
  | @enter id unit rest w w₁ w' hknown hunseen _ hlater ihbelow ihlater =>
    have hid := hroot id List.mem_cons_self
    have hto (other : UnitId) (hother : other ∈ unlisted) : ReflTransGen l.Leads other id :=
      hopen other hother id List.mem_cons_self
    obtain ⟨hbelow, hmet⟩ := ihbelow
      (fun target htarget ↦ hid.tail (leads_of_mem_targets hknown htarget))
      (fun other hother target htarget ↦ by
        have hleads := leads_of_mem_targets hknown htarget
        rcases List.mem_cons.mp hother with rfl | hother
        · exact .single hleads
        · exact (hto other hother).tail hleads)
      (hmarks.enter hdistinct hid hknown hunseen)
    have hleft := hbelow.leave
      (fun other hleads ↦ hmet other (mem_targets_of_leads hknown hleads)) hto
    obtain ⟨hmarks', hmet'⟩ := ihlater (fun id hid ↦ hroot id (List.mem_cons_of_mem _ hid))
      (fun other hother id hid ↦ hopen other hother id (List.mem_cons_of_mem _ hid)) hleft
    refine ⟨hmarks', List.forall_mem_cons.mpr ⟨fun _ ↦ .inl ?_, hmet'⟩⟩
    exact hlater.listed_prefix.subset (List.mem_append_right _ (List.mem_singleton_self id))

/-! ## Closures -/

/-- A walk to one unit that has not been seen lists it last. -/
theorem Walks.getLast?_listed (h : l.Walks [root] w w') {unit : LoadedUnit ω χ}
    (hunit : l.unit? root = some unit) (hunseen : unit.info.url ∉ w.seen) :
    w'.listed.getLast? = some root := by
  cases h with
  | unknown hunknown =>
    rw [hunit] at hunknown
    cases hunknown
  | pass hknown hseen =>
    rw [hunit, Option.some.injEq] at hknown
    exact absurd (hknown ▸ hseen) hunseen
  | enter _ _ _ hlater =>
    cases hlater
    exact List.getLast?_concat

theorem walks_closure (l : Loader ω χ) (root : UnitId) :
    ∃ seen, l.Walks [root] {} ⟨seen, l.view.closure root⟩ :=
  ⟨_, walks_walk l.view.unitCount (Nat.le_of_eq (unseen_nil l))⟩

/-- **The closure of a unit lists what it reaches, dependencies first.** If units that are reached
and have the same URL are the same, the walk comes to its end and lists each unit that is reached
once, and nothing else, with the unit itself at the end. What a reference of a listed unit led to
comes before the unit, or else it leads back to the unit. -/
theorem closure_enumerates (l : Loader ω χ) {root : UnitId}
    (hroot : (l.unit? root).isSome = true) (hdistinct : l.Distinct root) :
    (∃ seen, l.Walks [root] {} ⟨seen, l.view.closure root⟩) ∧
    (l.view.closure root).Nodup ∧
    (∀ id, id ∈ l.view.closure root ↔ l.Reaches root id) ∧
    (l.view.closure root).getLast? = some root ∧
    ∀ id id', id ∈ l.view.closure root → l.Leads id id' → (l.unit? id').isSome = true →
      [id', id].Sublist (l.view.closure root) ∨ ReflTransGen l.Leads id' id := by
  obtain ⟨unit, hunit⟩ := Option.isSome_iff_exists.mp hroot
  obtain ⟨seen, hwalks⟩ := l.walks_closure root
  have hrefl : ∀ id ∈ [root], ReflTransGen l.Leads root id :=
    List.forall_mem_singleton.mpr .refl
  obtain ⟨hmarks, hmet⟩ := hwalks.marks hdistinct hrefl (by simp) (l.marks_nil root)
  have hlast : root ∈ l.view.closure root :=
    (hmet root (List.mem_singleton_self root) hroot).resolve_right List.not_mem_nil
  have hled {id id' : UnitId} (hid : id ∈ l.view.closure root) (hleads : l.Leads id id')
      (hknown : (l.unit? id').isSome = true) : id' ∈ l.view.closure root :=
    (hmarks.led hid hleads hknown).1.resolve_right List.not_mem_nil
  refine ⟨⟨seen, hwalks⟩, List.append_nil (l.view.closure root) ▸ hmarks.nodup,
    fun id ↦ ⟨leads_of_mem_closure, fun hreaches ↦ ?_⟩,
    hwalks.getLast?_listed hunit List.not_mem_nil,
    fun id id' hid hleads hknown ↦ (hmarks.led hid hleads hknown).2⟩
  obtain ⟨hknown, hleads⟩ := hreaches
  -- along the references, each unit is listed because the one before is
  induction hleads with
  | refl => exact hlast
  | @tail mid id _ hlead ih =>
    have hmid : (l.unit? mid).isSome = true := by
      obtain ⟨unit', hunit', -⟩ := hlead
      rw [hunit']
      rfl
    exact hled (ih hmid) hlead hknown

/-- Three units in a circle, of which the first also has a reference that led nowhere, and a unit
with the URL of another that nothing leads to. -/
def circle : Loader Unit Unit :=
  let unit (path : String) (locators : List String) : LoadedUnit Unit Unit :=
    { info :=
        { url := .file path.toList, directory := .file "/".toList, status := .loaded
          dependencies := locators.map (⟨·, false⟩), code := none, sourceMap := none }
      body := .failed }
  { world := (), base := .file "/".toList
    units := [unit "/a" ["b", "x", "c"], unit "/b" ["c"], unit "/c" ["a"], unit "/b" []]
    cache := { results := .ofList [("a", 0), ("b", 1), ("c", 2)] } }

/-- The unit that is reached first is listed last although another one refers to it, and the unit
that is not reached is not listed. -/
theorem closure_enumerates_circle :
    circle.view.closure 0 = [2, 1, 0] ∧ (∀ id, circle.Reaches 0 id ↔ id ∈ [2, 1, 0]) ∧
      circle.Leads 2 0 ∧ ReflTransGen circle.Leads 0 2 := by
  have hroot : (circle.unit? 0).isSome = true := by decide
  have hclosed : ∀ id ∈ [0, 1, 2], ∀ unit ∈ circle.unit? id,
      ∀ other ∈ circle.targets unit.info, other ∈ [0, 1, 2] := by decide +kernel
  have hurls : ∀ id ∈ [0, 1, 2], ∀ id' ∈ [0, 1, 2],
      (circle.unit? id).map (·.info.url) = (circle.unit? id').map (·.info.url) → id = id' := by
    decide +kernel
  have hmem {id : UnitId} (h : ReflTransGen circle.Leads 0 id) : id ∈ [0, 1, 2] := by
    induction h with
    | refl => exact List.mem_cons_self
    | tail _ hlead ih =>
      have hlead' := hlead
      obtain ⟨unit, hunit, -⟩ := hlead'
      exact hclosed _ ih unit hunit _ (mem_targets_of_leads hunit hlead)
  have hdistinct : circle.Distinct 0 := by
    intro id id' unit unit' hid hid' hunit hunit' hurl
    refine hurls id (hmem hid) id' (hmem hid') ?_
    rw [hunit, hunit', Option.map_some, Option.map_some, hurl]
  obtain ⟨-, -, hlisted, -, horder⟩ := closure_enumerates circle hroot hdistinct
  have heq : circle.view.closure 0 = [2, 1, 0] := by decide +kernel
  rw [heq] at hlisted horder
  have hlast : circle.unit? 2 = some circle.units[2] := rfl
  have hlead : circle.Leads 2 0 := leads_of_mem_targets hlast (by decide +kernel)
  refine ⟨heq, fun id ↦ (hlisted id).symm, hlead, ?_⟩
  exact (horder 2 0 (by decide) hlead hroot).resolve_left (by decide)

end Loader

end ScriptLoader
