import ScriptLoader.Proofs.Bundle.Storing
import ScriptLoader.Proofs.Compiling.Preparing
import ScriptLoader.Proofs.Making.Rebuilding

/-!
# What can be bundled after a run

A project is bundled by running one of its files and writing all units of its closure as bundles.
The closure follows the references of every unit, but the execution only those of units that await
their second pass: a unit that can be called already, like one that was read from a bundle, is
called, and what it depends on is not executed on its behalf. So a unit whose second pass is still
to be run is left without code if only such units lead to it, and then it cannot be written.

`Machine.Reachable.bundled_iff_gathered` says which units of the closure have code when the run has
succeeded, and that the writing complains of a unit exactly because of the others.
-/

namespace ScriptLoader

variable {ω χ : Type}

open Relation

/-! ## Closures -/

namespace Loader

variable {l : Loader ω χ} {id other : UnitId}

theorem mem_listed_foldl {visit : View.Walk → UnitId → View.Walk} {targets : List UnitId} {P : Prop}
    (hvisit : ∀ target ∈ targets, ∀ w, other ∈ (visit w target).listed → other ∈ w.listed ∨ P)
    {w : View.Walk} (h : other ∈ (targets.foldl visit w).listed) : other ∈ w.listed ∨ P := by
  induction targets generalizing w with
  | nil => exact .inl h
  | cons target rest ih =>
    obtain ⟨htarget, hrest⟩ := List.forall_mem_cons.mp hvisit
    exact (ih hrest h).elim (htarget w) .inr

/-- A walk lists only what references lead to from where it goes. -/
theorem leads_of_mem_walk {depth : Nat} {w : View.Walk}
    (h : other ∈ (l.view.walk depth id w).listed) :
    other ∈ w.listed ∨ (l.unit? other).isSome = true ∧ ReflTransGen l.Leads id other := by
  induction depth generalizing id w with
  | zero => exact .inl h
  | succ depth ih =>
    rw [View.walk] at h
    cases hunit : l.unit? id with
    | none =>
      have hview : l.view.unit? id = none := congrArg (Option.map _) hunit
      rw [hview] at h
      exact .inl h
    | some unit =>
      have hview : l.view.unit? id = some unit.view := congrArg (Option.map _) hunit
      rw [hview] at h
      dsimp only [LoadedUnit.view] at h
      split at h
      case isTrue => exact .inl h
      case isFalse =>
        rcases List.mem_append.mp h with hwalked | hself
        · refine mem_listed_foldl (w := ⟨unit.info.url :: w.seen, w.listed⟩)
            (fun target htarget w hmem ↦ ?_) hwalked
          obtain ⟨r, hr, hresult⟩ := List.mem_filterMap.mp htarget
          have hleads : l.Leads id target := ⟨unit, hunit, r, hr, hresult⟩
          exact (ih hmem).imp_right (And.imp_right (.head hleads))
        · rw [List.mem_singleton.mp hself, hunit]
          exact .inr ⟨rfl, .refl⟩

theorem leads_of_mem_closure (h : other ∈ l.view.closure id) :
    (l.unit? other).isSome = true ∧ ReflTransGen l.Leads id other :=
  (leads_of_mem_walk h).resolve_left List.not_mem_nil

def HasCode (l : Loader ω χ) (id : UnitId) : Prop :=
  ∃ unit, l.unit? id = some unit ∧ unit.info.code.isSome = true

instance : Decidable (l.HasCode id) :=
  decidable_of_iff ((l.unit? id).any (·.info.code.isSome) = true)
    (by simp [HasCode, Option.any_eq_true])

/-- The units of a closure, as they are written as bundles. -/
def closureInfos (l : Loader ω χ) (entry : UnitId) : List UnitInfo :=
  (l.view.closure entry).filterMap fun id ↦ (l.unit? id).map (·.info)

theorem mem_closureInfos {entry : UnitId} {info : UnitInfo} : info ∈ l.closureInfos entry ↔
    ∃ id ∈ l.view.closure entry, ∃ unit, l.unit? id = some unit ∧ unit.info = info := by
  simp [closureInfos]

end Loader

/-! ## Code -/

namespace Stock

theorem Script.Keeps.trans {old mid new : Script} (h : Script.Keeps old mid)
    (h' : Script.Keeps mid new) : Script.Keeps old new := by
  rcases h with rfl | ⟨hunready, hready, hcode, hurl⟩
  · exact h'
  · rcases h' with rfl | ⟨hunready', -⟩
    · exact .inr ⟨hunready, hready, hcode, hurl⟩
    · rw [hready] at hunready'
      cases hunready'

end Stock

namespace Machine

open Loader

variable {p : Platform ω χ} {base : List (Frame ω χ)} {m m' : Machine ω χ} {l₀ l₁ l₂ : Loader ω χ}
  {id entry : UnitId} {stall : LoaderError} {value : Value}

theorem Runs.keeps_script (h : Runs p base m m') (hm : m.Reachable p) {script : Script}
    (hscript : m.loader.stock.scripts[id]? = some script) :
    ∃ script', m'.loader.stock.scripts[id]? = some script' ∧ Stock.Script.Keeps script script' := by
  induction h generalizing script with
  | refl => exact ⟨script, hscript, .inl rfl⟩
  | step _ _ ih =>
    obtain ⟨mid, hmid, hkeeps⟩ := hm.next_stock.keeps hscript
    obtain ⟨script', hscript', hkeeps'⟩ := ih hm.step hmid
    exact ⟨script', hscript', hkeeps.trans hkeeps'⟩

theorem hasCode_iff {l : Loader ω χ} {script : Script}
    (hscript : l.stock.scripts[id]? = some script) : l.HasCode id ↔ script.code.isSome = true := by
  rw [scripts_stock, Option.map_eq_some_iff] at hscript
  obtain ⟨unit, hunit, rfl⟩ := hscript
  exact ⟨fun ⟨unit', hunit', hcode⟩ ↦ by
    rw [hunit, Option.some.injEq] at hunit'
    exact hunit' ▸ hcode, fun hcode ↦ ⟨unit, hunit, hcode⟩⟩

theorem stage?_ready_iff {l : Loader ω χ} {script : Script}
    (hscript : l.stock.scripts[id]? = some script) :
    l.stage? id = some .ready ↔ script.isReady = true := by
  rw [scripts_stock, Option.map_eq_some_iff] at hscript
  obtain ⟨unit, hunit, rfl⟩ := hscript
  simp [stage?, hunit, LoadedUnit.script]

/-- After an execution that has succeeded, a unit that was there has code exactly if it had code
before, or is gathered. -/
theorem Reachable.hasCode_iff_of_ends
    (h : Reachable p ⟨l₁, .running (.execute entry .finish), []⟩)
    (hgathering : l₁.Gathering entry none [] l₂)
    (hends : Ends p [] l₁ (.execute entry .finish) (.ok value) l₂)
    (hknown : (l₁.unit? id).isSome = true) :
    l₂.HasCode id ↔ l₁.HasCode id ∨ l₁.Gathers entry id := by
  obtain ⟨unit, hunit⟩ := Option.isSome_iff_exists.mp hknown
  have hscript := script_of_unit? hunit
  have hstage : l₁.stage? id = some unit.body.stage := congrArg (Option.map _) hunit
  obtain ⟨script, hscript', hkeeps⟩ := hends.keeps_script h hscript
  have hsound := h.scripts_sound _ (List.mem_of_getElem? hscript)
  have hsound' := (hends.reachable h).scripts_sound _ (List.mem_of_getElem? hscript')
  rw [hasCode_iff hscript, hasCode_iff hscript']
  by_cases hpending : l₁.stage? id = some .pending
  · have hunready : unit.script.isReady = false := by
      rw [Bool.eq_false_iff, Ne, ← stage?_ready_iff hscript, hpending]
      simp
    have hnone : unit.script.code = none := hsound.code_eq_none hunready
    rw [hnone, ← hgathering.ready_iff hpending, stage?_ready_iff hscript']
    simp only [Option.isSome_none, Bool.false_eq_true, false_or]
    refine ⟨hsound'.ready, fun hready ↦ ?_⟩
    rcases hkeeps with rfl | ⟨-, -, hcode, -⟩
    · rw [hunready] at hready
      cases hready
    · exact hcode
  · have hne : unit.body.stage ≠ .pending := fun heq ↦ hpending (heq ▸ hstage)
    have hsame := hgathering.others hstage hne
    have hscripts : script = unit.script := by
      refine hkeeps.resolve_right fun ⟨hunready, hready, _⟩ ↦ ?_
      rw [← stage?_ready_iff hscript', hsame, ← hstage, stage?_ready_iff hscript, hunready]
        at hready
      cases hready
    rw [hscripts]
    exact ⟨.inl, fun hor ↦ hor.resolve_right fun hgathers ↦ hpending hgathers.2⟩

/-- **What of a closure can be bundled after a run.** A unit is run with success by a loader for
which no import is under way, and bodies keep to themselves. Then a unit of its closure has code
exactly if it had code before anything was executed, or if it awaited its second pass then and is
reached from the unit that was run along units that all awaited theirs. Bundles are written of all
units of the closure only if each of them is one of these, and the writing ends with the complaint
of a unit only if one of them is not. -/
theorem Reachable.bundled_iff_gathered
    (h : Reachable p ⟨l₀, .running (runUnit entry stall), []⟩)
    (hentry : (l₀.unit? entry).isSome = true)
    (himports : Scene.ImportsNothing ⟨l₀, ([] : List (Frame ω χ))⟩)
    (hbodies : ∀ m, Runs p [] ⟨l₀, .running (runUnit entry stall), []⟩ m →
      m.stack ≠ [] → m.keepsToItself = true)
    (hends : Ends p [] l₀ (runUnit entry stall) (.ok value) l₂) :
    ∃ l₁, Runs p [] ⟨l₀, .running (runUnit entry stall), []⟩
        ⟨l₁, .running (.execute entry .finish), []⟩ ∧
      (∀ id ∈ l₂.view.closure entry,
        (l₂.HasCode id ↔ l₁.HasCode id ∨ l₁.Gathers entry id)) ∧
      ∀ roots output fs,
        let written := (Bundle.storeAll FileSystem.storage roots output
          (l₂.closureInfos entry)).run fs
        (∀ paths, written.1 = .ok paths →
          ∀ id ∈ l₂.view.closure entry, l₁.HasCode id ∨ l₁.Gathers entry id) ∧
        ∀ error, written.1 = .error (.unit error) →
          ∃ id ∈ l₂.view.closure entry, ∃ unit, l₂.unit? id = some unit ∧
            error = .notCompiled unit.info.url.text ∧
            ¬(l₁.HasCode id ∨ l₁.Gathers entry id) := by
  obtain ⟨l₁, hruns, himports', hexecutes⟩ := exists_executing himports hbodies hends
  have hreached := hruns.reachable h
  obtain ⟨unit, hunit⟩ := Option.isSome_iff_exists.mp hentry
  obtain ⟨s, hs, -⟩ := hruns.keeps (standing?_of_unit? hunit)
  obtain ⟨unit', hunit', -⟩ := standing?_eq_some.mp hs
  have hentry' : (l₁.unit? entry).isSome = true := Option.isSome_iff_exists.mpr ⟨unit', hunit'⟩
  have hgathering : l₁.Gathering entry none [] l₂ :=
    hreached.gathering_of_ends hentry' himports' (fun m hm ↦ hbodies m (hruns.trans hm)) hexecutes
  -- the units of the closure were there before, since no reference has come to lead anywhere
  have hcode : ∀ id ∈ l₂.view.closure entry,
      (l₂.HasCode id ↔ l₁.HasCode id ∨ l₁.Gathers entry id) := by
    intro id hid
    refine hreached.hasCode_iff_of_ends hgathering hexecutes ?_
    obtain ⟨-, hled⟩ := leads_of_mem_closure hid
    rcases hled.cases_tail with rfl | ⟨before, -, unit, -, r, -, hresult⟩
    · exact hentry'
    · obtain ⟨s, hs⟩ := (hreached.sound p).tidy.result (hgathering.results hresult)
      obtain ⟨unit', hunit', -⟩ := standing?_eq_some.mp hs
      exact Option.isSome_iff_exists.mpr ⟨unit', hunit'⟩
  refine ⟨l₁, hruns, hcode, fun roots output fs ↦ ⟨fun paths hpaths id hid ↦ ?_,
    fun error herror ↦ ?_⟩⟩
  · have hwritten : (Bundle.storeAll FileSystem.storage roots output
        (l₂.closureInfos entry)).run fs = (.ok paths, _) := Prod.ext hpaths rfl
    obtain ⟨files, hstores, -⟩ := Bundle.exists_stores hwritten
    obtain ⟨unit, hunit⟩ := Option.isSome_iff_exists.mp (leads_of_mem_closure hid).1
    obtain ⟨text, hmarked⟩ :=
      hstores.exists_markedString (mem_closureInfos.mpr ⟨id, hid, unit, hunit, rfl⟩)
    refine (hcode id hid).mp ⟨unit, hunit, Option.ne_none_iff_isSome.mp fun hnone ↦ ?_⟩
    rw [(unit.info.markedString_eq_error_iff _).mpr ⟨hnone, rfl⟩] at hmarked
    cases hmarked
  · obtain ⟨info, hinfo, hmarked⟩ := Bundle.exists_of_unit_error herror
    obtain ⟨id, hid, unit, hunit, rfl⟩ := mem_closureInfos.mp hinfo
    obtain ⟨hnone, rfl⟩ := (unit.info.markedString_eq_error_iff error).mp hmarked
    refine ⟨id, hid, unit, hunit, rfl, fun hcovered ↦ ?_⟩
    obtain ⟨unit', hunit', hsome⟩ := (hcode id hid).mpr hcovered
    rw [hunit, Option.some.injEq] at hunit'
    rw [← hunit', hnone] at hsome
    cases hsome

/-- A platform for the diamond that answers with bundles for the files on its sides. -/
def sidesBundled : Platform (List Request) Unit :=
  let plain := Project.diamond.platform List.head?
  { plain with
    resolver := { plain.resolver with
      answer := fun made ticket ↦
        (made, (plain.resolver.answer made ticket).2.map (·.map fun file ↦
          if file.url = .file "/b".toList ∨ file.url = .file "/c".toList then
            { file with contents := "@STATIC;1.0;i;1;dt;1;x" }
          else file)) } }

def openedSides : Loader (List Request) Unit :=
  (({ world := [], base := .file "/".toList } : Loader (List Request) Unit).openUnit
    sidesBundled (.file "/a".toList)).1

def ranSides : Machine (List Request) Unit :=
  run sidesBundled 40 ⟨openedSides, .running (runUnit 0 .detached), []⟩

/-- The run succeeds, and all files have code but the one that closes the diamond: it awaits its
second pass, and only bundles lead to it. -/
theorem bundled_iff_gathered_sides :
    ranSides.value?.isSome = true ∧ ranSides.loader.view.closure 0 = [3, 1, 2, 0] ∧
      ∃ l₁, Runs sidesBundled [] ⟨openedSides, .running (runUnit 0 .detached), []⟩
          ⟨l₁, .running (.execute 0 .finish), []⟩ ∧
        (∀ id ∈ [1, 2, 0], l₁.HasCode id ∨ l₁.Gathers 0 id) ∧
        ¬(l₁.HasCode 3 ∨ l₁.Gathers 0 3) := by
  have hfresh : Loader.IsFresh ({ world := [], base := .file "/".toList } :
      Loader (List Request) Unit) := isFresh_mk _ _
  have hreachable : Reachable sidesBundled ⟨openedSides, .running (runUnit 0 .detached), []⟩ :=
    (Reachable.start hfresh (.openUnit (.file "/a".toList) fun _ ↦ runUnit 0 .detached)).step
  have hunused : openedSides.IsUnused := hfresh.isUnused.openUnit _
  have hbodies : throughout sidesBundled (fun m ↦ m.stack.isEmpty || m.keepsToItself) 40
      ⟨openedSides, .running (runUnit 0 .detached), []⟩ = true := by decide +kernel
  have hreturned : ranSides.value?.isSome = true := by decide +kernel
  have hclosure : ranSides.loader.view.closure 0 = [3, 1, 2, 0] := by decide +kernel
  have hcodes : ∀ id ∈ [3, 1, 2, 0], ranSides.loader.HasCode id ↔ id ≠ 3 := by decide +kernel
  obtain ⟨value, hvalue⟩ := Option.isSome_iff_exists.mp hreturned
  obtain ⟨hcontrol, hs⟩ := of_value?_eq_some hvalue
  have hends : Ends sidesBundled [] openedSides (runUnit 0 .detached) (.ok value)
      ranSides.loader := ends_of_run 40 rfl hcontrol hs
  obtain ⟨l₁, hruns, hcode, -⟩ := Reachable.bundled_iff_gathered hreachable (by decide +kernel)
    hunused.untouched.imports (fun m hm hne ↦ by simpa [hne] using hm.of_throughout hbodies) hends
  rw [hclosure] at hcode
  refine ⟨hreturned, hclosure, l₁, hruns, fun id hid ↦ ?_, fun hthird ↦ ?_⟩
  · have hmem : id ∈ [3, 1, 2, 0] := List.mem_cons_of_mem _ hid
    exact (hcode id hmem).mp ((hcodes id hmem).mpr fun heq ↦ by simp [heq] at hid)
  · exact (hcodes 3 List.mem_cons_self).mp ((hcode 3 List.mem_cons_self).mpr hthird) rfl

end Machine

end ScriptLoader
