import ScriptLoader.Proofs.Compiling.Fates
import ScriptLoader.Proofs.History
import ScriptLoader.Proofs.Importing.Executing

/-!
# Second passes under way

The second passes that are under way are nested: one executes a dependency whose own second pass
gets under way. Their units are exactly the units that are compiling, each once, since a unit that
is compiling is not compiled again when it is executed. And a unit whose second pass has been run is
ready or has failed, so that no second pass is run twice.

How deep second passes are nested is bounded by how many units have awaited theirs at any time
before, and how many have been made since that are not ready.
-/

namespace ScriptLoader

variable {ω χ : Type}

namespace Loader

open Journal

variable {l l' : Loader ω χ} {id : UnitId} {body : Body ω χ} {underway : List UnitId}

theorem stage?_eq (l : Loader ω χ) (id : UnitId) : l.stage? id = (l.body? id).map Body.stage := by
  rw [stage?, body?, Option.map_map]
  rfl

theorem stage?_of_body? (h : l.body? id = some body) : l.stage? id = some body.stage := by
  rw [stage?_eq, h, Option.map_some]

theorem stage?_eq_compiling : l.stage? id = some .compiling ↔ l.body? id = some .compiling := by
  rw [stage?_eq, Option.map_eq_some_iff]
  refine ⟨?_, fun h ↦ ⟨_, h, rfl⟩⟩
  rintro ⟨body, hbody, hstage⟩
  cases body <;> first | exact hbody | cases hstage

theorem exists_ready_of_stage? (h : l.stage? id = some .ready) :
    ∃ callable, l.body? id = some (.ready callable) := by
  rw [stage?_eq, Option.map_eq_some_iff] at h
  obtain ⟨body, hbody, hstage⟩ := h
  cases body <;> first | exact ⟨_, hbody⟩ | cases hstage

/-- What is known of second passes, given the units whose second pass is under way. -/
structure Nests (l : Loader ω χ) (underway : List UnitId) : Prop where
  nodup : underway.Nodup
  compiling : ∀ {id}, l.body? id = some .compiling ↔ id ∈ underway
  once : (passes l.journal).Nodup
  /-- A second pass that has been run is over. -/
  ended : ∀ id ∈ passes l.journal, l.stage? id = some .ready ∨ l.stage? id = some .failed

namespace Nests

theorem of_fresh (h : l.IsFresh) : l.Nests [] where
  nodup := List.nodup_nil
  compiling {id} := by simp [body?, unit?, h.units]
  once := by simp [passes, h.journal]
  ended := by simp [passes, h.journal]

theorem retains (h : l.Nests underway) (hretains : l.Retains l') : l'.Nests underway where
  nodup := h.nodup
  compiling := hretains.compiling_iff.trans h.compiling
  once := hretains.spares.passes ▸ h.once
  ended id hid := by
    rw [hretains.spares.passes] at hid
    exact (h.ended id hid).imp hretains.spares.stage?_eq hretains.spares.stage?_eq

theorem call (h : l.Nests underway) (id : UnitId) : (l.record (.called id)).Nests underway :=
  { h with }

theorem enter {compiler : Compiler ω χ} {file : χ} (h : l.Nests underway)
    (hpending : l.body? id = some (.pending compiler file)) :
    (l.setBody id .compiling).Nests (id :: underway) where
  nodup := by
    refine List.nodup_cons.mpr ⟨fun hid ↦ ?_, h.nodup⟩
    rw [← h.compiling, hpending] at hid
    cases hid
  compiling {other} := by
    rw [body?_setBody, List.mem_cons, ← h.compiling]
    by_cases heq : id = other
    · subst heq
      simp [hpending]
    · simp [heq, Ne.symm heq]
  once := h.once
  ended other hother := by
    have hover := h.ended other hother
    rw [stage?_setBody]
    by_cases heq : id = other
    · subst heq
      rw [stage?_of_body? hpending] at hover
      rcases hover with hover | hover <;> cases hover
    · simpa [heq] using hover

theorem leave (h : l.Nests (id :: underway)) {ran : List UnitId} (hran : ran.Sublist [id])
    (hpasses : passes l'.journal = passes l.journal ++ ran)
    (hbodies : ∀ {other old}, l.body? other = some old → l'.body? other = some old)
    (hcompiling : ∀ other, l'.body? other = some .compiling ↔ l.body? other = some .compiling)
    (hover : body.stage = .ready ∨ body.stage = .failed) :
    (l'.setBody id body).Nests underway where
  nodup := (List.nodup_cons.mp h.nodup).2
  compiling {other} := by
    have hid : id ∉ underway := (List.nodup_cons.mp h.nodup).1
    rw [← stage?_eq_compiling, stage?_setBody]
    by_cases heq : id = other
    · subst heq
      refine iff_of_false (fun hbody ↦ ?_) hid
      obtain ⟨_, -, hbody⟩ := Option.map_eq_some_iff.mp hbody
      rw [if_pos rfl] at hbody
      rcases hover with hover | hover <;> rw [hover] at hbody <;> cases hbody
    · simp only [if_neg heq, Option.map_id']
      rw [stage?_eq_compiling, hcompiling, h.compiling, List.mem_cons]
      exact or_iff_right (Ne.symm heq)
  once := by
    -- a unit that is still compiling has not had its second pass run
    have hnot : id ∉ passes l.journal := fun hid ↦ by
      have hcompiling := stage?_eq_compiling.mpr (h.compiling.mpr List.mem_cons_self)
      rcases h.ended id hid with hover | hover <;> rw [hcompiling] at hover <;> cases hover
    have hnodup : (passes l.journal ++ [id]).Nodup :=
      List.nodup_append.mpr ⟨h.once, List.nodup_singleton id, fun other hother last hlast heq ↦
        hnot (List.mem_singleton.mp hlast ▸ heq ▸ hother)⟩
    have hjournal : passes (l'.setBody id body).journal = passes l.journal ++ ran := hpasses
    rw [hjournal]
    exact hnodup.sublist ((List.Sublist.refl _).append hran)
  ended other hother := by
    have hjournal : passes (l'.setBody id body).journal = passes l.journal ++ ran := hpasses
    rw [hjournal, List.mem_append] at hother
    rw [stage?_setBody]
    by_cases heq : id = other
    · subst heq
      rw [stage?_of_body? (hbodies (h.compiling.mpr List.mem_cons_self))]
      simpa using hover
    · have hstages {stage : Stage} (hstage : l.stage? other = some stage) :
          l'.stage? other = some stage := by
        rw [stage?_eq, Option.map_eq_some_iff] at hstage
        obtain ⟨old, hold, rfl⟩ := hstage
        exact stage?_of_body? (hbodies hold)
      have hbefore : other ∈ passes l.journal :=
        hother.resolve_right fun hlast ↦ heq (List.mem_singleton.mp (hran.subset hlast)).symm
      simpa [heq] using (h.ended other hbefore).imp hstages hstages

end Nests

end Loader

namespace Machine

open Loader Journal

variable {p : Platform ω χ} {m n m' : Machine ω χ} {id : UnitId} {base : List (Frame ω χ)}

/-! ## Steps -/

/-- Bodies move on, second passes get under way or come to an end, and some are run. -/
structure Proceeds (m m' : Machine ω χ) (ran : List UnitId) : Prop where
  nests : m'.loader.Nests m'.underway
  matures : m.loader.Matures m'.loader
  passes : passes m'.loader.journal = passes m.loader.journal ++ ran

theorem Proceeds.of_retains (h : m.loader.Nests m.underway)
    (hretains : m.loader.Retains m'.loader) (hunderway : m'.underway = m.underway) :
    m.Proceeds m' [] where
  nests := hunderway ▸ h.retains hretains
  matures := .of_spares hretains.spares
  passes := hretains.spares.passes.trans (List.append_nil _).symm

theorem units_callBody (m : Machine ω χ) (id : UnitId) (directory : Url) (callable : Callable ω) :
    (m.callBody id directory callable).loader.units = m.loader.units :=
  (units_operation _ .importer directory).trans (units_operation _ .executer directory)

theorem retains_callBody (m : Machine ω χ) (id : UnitId) (directory : Url)
    (callable : Callable ω) :
    (m.loader.record (.called id)).Retains (m.callBody id directory callable).loader :=
  .of_length (m.stays_callBody id directory callable).1.spares
    (congrArg List.length (m.units_callBody id directory callable))

theorem proceeds_callBody (h : m.loader.Nests m.underway) (id : UnitId) (directory : Url)
    (callable : Callable ω) : m.Proceeds (m.callBody id directory callable) [] where
  nests := (h.call id).retains (m.retains_callBody id directory callable)
  matures := by
    have hmatures : (m.loader.record (.called id)).Matures
        (m.callBody id directory callable).loader :=
      .of_spares (m.retains_callBody id directory callable).spares
    exact hmatures
  passes := by
    rw [(m.retains_callBody id directory callable).spares.passes, List.append_nil]
    exact (passes_append [.called id] m.loader.journal).trans (List.append_nil _)

theorem proceeds_beginCompilation {info : UnitInfo} {compiler : Compiler ω χ} {file : χ}
    (h : m.loader.Nests m.underway) (hbody : m.loader.body? id = some (.pending compiler file)) :
    m.Proceeds (m.beginCompilation id info compiler file) [] := by
  have hentered : (m.loader.setBody id .compiling).Retains
      { m.loader.setBody id .compiling with
        compiling := some id
        world := (compiler.enterImport m.loader.world file info.url.displayName).1 } :=
    retains_of_same _ rfl rfl
  have hretains : (m.loader.setBody id .compiling).Retains
      (m.beginCompilation id info compiler file).loader :=
    hentered.trans (shifts_operation _ .executer info.directory).retains
  exact
    { nests := (h.enter hbody).retains hretains
      matures := (Matures.setBody hbody (.begin compiler file)).trans (.of_spares hretains.spares)
      passes := hretains.spares.passes.trans (List.append_nil _).symm }

/-- **A unit is executed**, whatever has become of it. -/
theorem proceeds_execute (h : m.loader.Nests m.underway) (id : UnitId) :
    m.Proceeds (m.execute id) [] := by
  cases hunit : m.loader.unit? id with
  | none =>
    have heq : m.execute id = m.done := by simp only [execute, hunit]
    exact heq ▸ .of_retains h (.refl _) rfl
  | some unit =>
    cases hbody : unit.body with
    | ready callable =>
      have heq : m.execute id = m.callBody id unit.info.directory callable := by
        simp only [execute, hunit, hbody]
      exact heq ▸ proceeds_callBody h id unit.info.directory callable
    | pending compiler file =>
      have heq : m.execute id = m.beginCompilation id unit.info compiler file := by
        simp only [execute, hunit, hbody]
      exact heq ▸ proceeds_beginCompilation h (hbody ▸ body?_of_unit? hunit)
    | compiling =>
      have heq : m.execute id = m.done := by simp only [execute, hunit, hbody]
      exact heq ▸ .of_retains h (.refl _) rfl
    | failed =>
      have heq : m.execute id = m.throw (.compilation unit.info.url.text) := by
        simp only [execute, hunit, hbody]
      exact heq ▸ .of_retains h (.refl _) rfl

theorem ExecutesLast.proceeds (h : m.loader.Nests m.underway) (hlast : m.ExecutesLast m') :
    m.Proceeds m' [] := by
  cases hlast with
  | none hretains hunderway => exact .of_retains h hretains hunderway
  | @one n id hretains hunderway =>
    have hbefore := Proceeds.of_retains h hretains hunderway
    obtain ⟨hnests, hmatures, hpasses⟩ := proceeds_execute hbefore.nests id
    exact ⟨hnests, hbefore.matures.trans hmatures,
      hpasses.trans ((List.append_nil _).trans hbefore.passes)⟩

/-- The innermost second pass comes to an end, in which it has been run or not. -/
theorem proceeds_leave {pass : SecondPass ω χ} {executer : Operation} {l : Loader ω χ}
    {ran : List UnitId} {body : Body ω χ} (h : m.loader.Nests m.underway)
    (hs : m.stack = .compiling pass executer :: base) (hran : ran.Sublist [pass.unit])
    (hpasses : passes l.journal = passes m.loader.journal ++ ran)
    (hbodies : ∀ {other old}, m.loader.body? other = some old → l.body? other = some old)
    (hcompiling : ∀ other, l.body? other = some .compiling ↔ m.loader.body? other = some .compiling)
    (hnext : Body.compiling.Next body) (control : Control ω) :
    m.Proceeds (leaveCompilation ⟨l, control, base⟩ pass body) ran := by
  have hunderway : m.underway = pass.unit :: Stack.underway base := by
    rw [underway, hs]
    rfl
  rw [hunderway] at h
  have hunit := hbodies (h.compiling.mpr List.mem_cons_self)
  have hover : body.stage = .ready ∨ body.stage = .failed := by
    cases hnext <;> simp [Body.stage]
  have hkept : m.loader.Matures l := fun _ old hold ↦ ⟨old, hbodies hold, .refl old⟩
  exact
    { nests := (h.leave hran hpasses hbodies hcompiling hover).retains (retains_of_same _ rfl rfl)
      matures := hkept.trans (.setBody hunit hnext)
      passes := hpasses }

/-- **A step moves bodies on**, and runs a second pass if it is time. -/
theorem step_proceeds (p : Platform ω χ) (h : m.loader.Nests m.underway) :
    m.Proceeds (m.step p) m.secondPass?.toList := by
  have hfares := m.step_fares p
  generalize m.step p = m' at hfares ⊢
  cases hfares with
  | execute idle executes => exact idle ▸ executes.proceeds h
  | @fail error pass executer base control stack =>
    have hidle : m.secondPass? = none := by rw [secondPass?, control]
    rw [hidle]
    exact
      { proceeds_leave h stack (List.nil_sublist _) (List.append_nil _).symm id (fun _ ↦ .rfl)
          .fail m.control with }
  | @finish value pass executer base control stack rest =>
    have hruns : m.secondPass? = some pass.unit := by
      rw [secondPass?, control, stack]
      simp [rest]
    have hretains := m.loader.retains_compileUnit p pass
    have hpasses : passes (m.loader.record (.compiled pass.unit)).journal
        = passes m.loader.journal ++ [pass.unit] := passes_append [.compiled pass.unit] _
    rw [hruns, continueCompilation, rest]
    rcases hcompiled : m.loader.compileUnit p pass with ⟨l, error | callable⟩
    all_goals
      rw [hcompiled] at hretains
      dsimp only at hretains ⊢
      have hleave {body : Body ω χ} (hnext : Body.compiling.Next body) :=
        proceeds_leave h stack (List.Sublist.refl [pass.unit])
          (hretains.spares.passes.trans hpasses) hretains.spares.bodies
          (fun _ ↦ hretains.compiling_iff) hnext m.control
    · exact { hleave .fail with }
    · have hready := hleave (.succeed callable)
      obtain ⟨hnests, hmatures, hsame⟩ :=
        proceeds_callBody hready.nests pass.unit pass.directory callable
      exact ⟨hnests, hready.matures.trans hmatures,
        hsame.trans ((List.append_nil _).trans hready.passes)⟩

/-- Only a step that runs a second pass writes to the sink for diagnostics. -/
theorem step_of_idle (p : Platform ω χ) (h : m.secondPass? = none)
    (write : ω → String → ω × Except LoaderError Unit) : m.step { p with write } = m.step p := by
  rw [step, step]
  split
  case h_1 code _ => cases code <;> rfl
  case h_2 => rfl
  case h_3 outcome frame base hcontrol hs =>
    cases frame with
    | compiling pass executer =>
      cases outcome with
      | error error => rfl
      | ok value =>
        rw [secondPass?, hcontrol, hs] at h
        dsimp only at h
        cases hrest : pass.rest with
        | nil => simp [hrest] at h
        | cons reference rest =>
          rw [resume, resume, continueCompilation, continueCompilation, hrest]
    | _ => cases outcome <;> rfl

/-! ## Runs -/

variable {earlier machines : List (Machine ω χ)} {m₀ : Machine ω χ}

theorem Reachable.nests (h : m.Reachable p) : m.loader.Nests m.underway := by
  induction h with
  | start fresh code => exact .of_fresh fresh
  | step _ ih => exact (step_proceeds p ih).nests
  | again _ _ _ ih => exact ih

namespace History

/-- The journal tells which second passes have been run. -/
theorem passes_eq (h : History p (m :: earlier)) :
    passes m.loader.journal = (earlier.filterMap secondPass?).reverse := by
  generalize heq : m :: earlier = machines at h
  induction h generalizing m earlier with
  | start fresh code =>
    cases heq
    rw [passes, fresh.journal]
    rfl
  | @step m' earlier' history ih =>
    cases heq
    rw [(step_proceeds p history.reachable.nests).passes, ih rfl]
    cases hruns : m'.secondPass? <;> simp [hruns]
  | @again m' earlier' _ halted code ih =>
    cases heq
    obtain ⟨outcome, hcontrol, hs⟩ := exists_of_isHalted halted
    have hidle : m'.secondPass? = none := by simp [secondPass?, hs]
    have hbefore : passes m'.loader.journal = _ := ih rfl
    rw [List.filterMap_cons_none hidle]
    exact hbefore

/-- **No second pass is run twice**, whatever happens. -/
theorem secondPasses_nodup (h : History p machines) : (machines.filterMap secondPass?).Nodup := by
  cases machines with
  | nil => exact List.nodup_nil
  | cons m earlier =>
    have honce := h.step.reachable.nests.once
    rwa [h.step.passes_eq, List.nodup_reverse] at honce

theorem reachable_of_mem (h : History p machines) (hm₀ : m₀ ∈ machines) : m₀.Reachable p := by
  induction h with
  | start fresh code => exact List.mem_singleton.mp hm₀ ▸ .start fresh code
  | step history ih =>
    rcases List.mem_cons.mp hm₀ with rfl | hm₀
    · exact history.reachable.step
    · exact ih hm₀
  | again history halted code ih =>
    rcases List.mem_cons.mp hm₀ with rfl | hm₀
    · exact history.reachable.again halted code
    · exact ih hm₀

/-- Bodies move on in the course of a run, and units keep what they declare. -/
theorem matures (h : History p (m :: earlier)) (hm₀ : m₀ ∈ m :: earlier) :
    m₀.loader.Matures m.loader ∧ m₀.loader.Keeps m.loader := by
  generalize heq : m :: earlier = machines at h
  induction h generalizing m earlier with
  | start fresh code =>
    cases heq
    cases List.mem_singleton.mp hm₀
    exact ⟨.refl _, (Quiet.refl _).keeps⟩
  | @step m' earlier' history ih =>
    cases heq
    rcases List.mem_cons.mp hm₀ with rfl | hm₀
    · exact ⟨.refl _, (Quiet.refl _).keeps⟩
    · obtain ⟨hmatures, hkeeps⟩ := ih hm₀ rfl
      exact ⟨hmatures.trans (step_proceeds p history.reachable.nests).matures,
        hkeeps.trans (extends_step p m').2⟩
  | @again m' earlier' history halted code ih =>
    cases heq
    rcases List.mem_cons.mp hm₀ with rfl | hm₀
    · exact ⟨.refl _, (Quiet.refl _).keeps⟩
    · have hbefore : m₀.loader.Matures m'.loader ∧ m₀.loader.Keeps m'.loader := ih hm₀ rfl
      exact hbefore

/-- **How deep second passes are nested.** Since any time before, no more second passes have got
under way at once than were under way then, than units awaited theirs then, and than units have been
made since that are not ready, all of which were made to await theirs. -/
theorem underway_length_le (h : History p (m :: earlier)) (hm₀ : m₀ ∈ m :: earlier) :
    m.underway.length ≤ m₀.underway.length + m₀.loader.pendingCount m₀.loader.units.length +
      ((Finset.Ico m₀.loader.units.length m.loader.units.length).filter fun id ↦
        m.loader.stage? id ≠ some .ready).card := by
  have hnests := h.reachable.nests
  have hnests₀ := (h.reachable_of_mem hm₀).nests
  have hsubset : m.underway.toFinset ⊆ (m₀.underway.toFinset ∪
      (Finset.range m₀.loader.units.length).filter fun id ↦ m₀.loader.stage? id = some .pending) ∪
      (Finset.Ico m₀.loader.units.length m.loader.units.length).filter fun id ↦
        m.loader.stage? id ≠ some .ready := by
    -- what is compiling was so then, or awaited its second pass, or has been made since
    intro id hid
    have hcompiling := hnests.compiling.mpr (List.mem_toFinset.mp hid)
    by_cases hold : id < m₀.loader.units.length
    · obtain ⟨body, hbody⟩ := exists_body? hold
      obtain ⟨body', hbody', hadvances⟩ := (h.matures hm₀).1 hbody
      rw [hcompiling, Option.some.injEq] at hbody'
      subst hbody'
      refine Finset.mem_union_left _ (Finset.mem_union.mpr ?_)
      obtain rfl | ⟨compiler, file, rfl⟩ := hadvances.of_compiling
      · exact .inl (List.mem_toFinset.mpr (hnests₀.compiling.mp hbody))
      · exact .inr (Finset.mem_filter.mpr ⟨Finset.mem_range.mpr hold, stage?_of_body? hbody⟩)
    · refine Finset.mem_union_right _ (Finset.mem_filter.mpr ⟨?_, ?_⟩)
      · exact Finset.mem_Ico.mpr ⟨not_lt.mp hold, lt_length_of_body? hcompiling⟩
      · rw [stage?_of_body? hcompiling]
        simp [Body.stage]
  calc m.underway.length
      = m.underway.toFinset.card := (List.toFinset_card_of_nodup hnests.nodup).symm
    _ ≤ _ := Finset.card_le_card hsubset
    _ ≤ _ := Finset.card_union_le _ _
    _ ≤ _ := Nat.add_le_add_right ((Finset.card_union_le _ _).trans
      (Nat.add_le_add_right m₀.underway.toFinset_card_le _)) _

end History

end Machine

end ScriptLoader
