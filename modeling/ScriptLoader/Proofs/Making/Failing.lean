import ScriptLoader.Proofs.Making.Calling

/-!
# What a failed second pass leaves behind

A second pass fails when a dependency cannot be executed or fails itself, when the sink for
diagnostics refuses what is written, when there is an error among the diagnostics, or when the
engine rejects the function. Between the beginning of the second pass and its end any other code may
have run, and other second passes may have begun and failed.

Whatever happened, nothing half done is left. Which units were executing and compiling is the same
again after every execution, since the stack unwinds to it. The unit has failed for good: it has
neither code nor a source map, and its body is never called, since no body is called that is not
ready.
-/

namespace ScriptLoader

variable {ω χ : Type}

namespace Loader

/-! ## Why a second pass fails that is run -/

/-- What a second pass comes to before it is reported: the loader, the file, and what it yields. -/
def translate (l : Loader ω χ) (pass : SecondPass ω χ) : Loader ω χ × χ × Compilation :=
  let (world, file) := pass.compiler.leaveImport l.world pass.file
  let (world, file, output) := pass.compiler.secondPass world file
  ({ l with world }.record (.compiled pass.unit), file, output)

/-- A loader that has written what is to be reported about a file, as far as the sink allows it. -/
def writeReport (p : Platform ω χ) (l : Loader ω χ) (compiler : Compiler ω χ) (file : χ) :
    Loader ω χ × Except LoaderError Unit :=
  l.writeAll p (reportPieces l.config.format (compiler.wording file) (compiler.diagnostics file))

/-- Why a second pass fails whose dependencies have been executed. -/
inductive Rejects (p : Platform ω χ) (l : Loader ω χ) (pass : SecondPass ω χ) : LoaderError → Prop
  /-- The sink for diagnostics refuses something. -/
  | sink {l' file output error} (translated : l.translate pass = (l', file, output))
      (refused : (l'.writeReport p pass.compiler file).2 = .error error) : Rejects p l pass error
  /-- There is an error among the diagnostics that have been written. -/
  | diagnostics {l' file output} (translated : l.translate pass = (l', file, output))
      (written : (l'.writeReport p pass.compiler file).2 = .ok ⟨⟩)
      (errors : hasErrors (pass.compiler.diagnostics file) = true) :
      Rejects p l pass (.compilation pass.url.text)
  /-- The engine rejects the function. -/
  | engine {l' file output error} (translated : l.translate pass = (l', file, output))
      (written : (l'.writeReport p pass.compiler file).2 = .ok ⟨⟩)
      (errors : hasErrors (pass.compiler.diagnostics file) = false)
      (rejected : ((l'.writeReport p pass.compiler file).1.synthesize p pass.url output.code
        (output.sourceMap.map MapSource.text)).2 = .error error) : Rejects p l pass error

variable {l l' : Loader ω χ} {pass : SecondPass ω χ} {file : χ} {output : Compilation}
  {error : LoaderError} (p : Platform ω χ)

/-- The outcome of a second pass: the report is written, then there must be no error in it, then the
function is built. -/
theorem snd_compileUnit (htranslated : l.translate pass = (l', file, output)) :
    (l.compileUnit p pass).2 = (l'.writeReport p pass.compiler file).2.bind fun _ ↦
      if hasErrors (pass.compiler.diagnostics file) then .error (.compilation pass.url.text)
      else ((l'.writeReport p pass.compiler file).1.synthesize p pass.url output.code
        (output.sourceMap.map MapSource.text)).2.map Prod.fst := by
  obtain ⟨rfl, hrest⟩ := Prod.mk.inj htranslated
  obtain ⟨rfl, rfl⟩ := Prod.mk.inj hrest
  simp only [compileUnit, report, writeReport]
  rcases writeAll p _ _ with ⟨l', e | _⟩
  · rfl
  · cases hasErrors _
    · simp only [Bool.false_eq_true, if_false, Except.bind]
      rcases l'.synthesize p _ _ _ with ⟨l', e | _⟩ <;> rfl
    · rfl

/-- **Why a second pass fails that is run**: there are three reasons, and no others. -/
theorem compileUnit_eq_error_iff :
    (l.compileUnit p pass).2 = .error error ↔ l.Rejects p pass error := by
  constructor
  · intro hfailed
    rcases htranslated : l.translate pass with ⟨l', file, output⟩
    rw [snd_compileUnit p htranslated] at hfailed
    cases hwritten : (l'.writeReport p pass.compiler file).2 with
    | error e =>
      rw [hwritten] at hfailed
      cases hfailed
      exact .sink htranslated hwritten
    | ok _ =>
      rw [hwritten, Except.bind] at hfailed
      split at hfailed
      case isTrue herrors =>
        cases hfailed
        exact .diagnostics htranslated hwritten herrors
      case isFalse herrors =>
        refine .engine htranslated hwritten (Bool.not_eq_true _ ▸ herrors) ?_
        generalize ((l'.writeReport p pass.compiler file).1.synthesize p pass.url output.code
          (output.sourceMap.map MapSource.text)).2 = built at hfailed ⊢
        cases built with
        | error e => cases hfailed; rfl
        | ok made => cases hfailed
  · rintro (⟨translated, refused⟩ | ⟨translated, written, errors⟩ |
      ⟨translated, written, errors, rejected⟩)
    · rw [snd_compileUnit p translated, refused]
      rfl
    · rw [snd_compileUnit p translated, written, errors]
      rfl
    · rw [snd_compileUnit p translated, written, errors, rejected]
      rfl

end Loader

namespace Machine

open Loader Journal

variable {p : Platform ω χ} {m m' : Machine ω χ} {id : UnitId} {base : List (Frame ω χ)}
  {earlier : List (Machine ω χ)}

/-! ## Executing and compiling -/

/-- Once a run has returned to a stack, all is in force that the stack unwinds to. -/
theorem Runs.unwinds (h : Runs p base m m') {above : List (Frame ω χ)}
    (hs : m.stack = above ++ base) (hreturns : m'.Returns base) :
    m'.loader.slots = Stack.unwind above m.loader.slots := by
  induction h generalizing above with
  | refl m =>
    obtain ⟨outcome, -, hbase⟩ := hreturns
    rw [hbase, List.self_eq_append_left] at hs
    rw [hs]
    rfl
  | @step m m' pending rest ih =>
    obtain ⟨above', hs', hunwinds⟩ := m.step_unwinds p hs fun outcome hcontrol hnil ↦
      pending ⟨outcome, hcontrol, by rw [hs, hnil, List.nil_append]⟩
    rw [ih hs' hreturns, hunwinds]

/-- Which units are executing and compiling is the same again after an execution. -/
theorem slots_of_execute {outcome : Outcome} {l : Loader ω χ}
    (h : Runs p m.stack (m.execute id) ⟨l, .returning outcome, m.stack⟩) :
    l.slots = m.loader.slots := by
  obtain ⟨pushed, hs, hunwinds⟩ := (m.upholds_execute id).stack
  exact (h.unwinds hs ⟨outcome, rfl, rfl⟩).trans hunwinds

/-! ## Why a second pass fails -/

/-- Why a second pass on top of a stack fails in the next step. -/
inductive Spoils (p : Platform ω χ) (m : Machine ω χ) (pass : SecondPass ω χ)
    (base : List (Frame ω χ)) : LoaderError → Prop
  /-- A dependency could not be executed, or its execution has failed. -/
  | dependency {error executer} (control : m.control = .returning (.error error))
      (stack : m.stack = .compiling pass executer :: base) : Spoils p m pass base error
  /-- All dependencies have been executed, but the second pass proper fails. -/
  | run {error value executer} (control : m.control = .returning (.ok value))
      (stack : m.stack = .compiling pass executer :: base) (rest : pass.rest = [])
      (rejects : m.loader.Rejects p pass error) : Spoils p m pass base error

section Spoiling

variable {pass : SecondPass ω χ} {error : LoaderError}

theorem Spoils.step (h : m.Spoils p pass base error) :
    ∃ l, (∀ {other body}, m.loader.body? other = some body → l.body? other = some body) ∧
      m.step p = failCompilation ⟨l, m.control, base⟩ pass error := by
  cases h with
  | dependency control stack => exact ⟨m.loader, id, by rw [Machine.step, control, stack]; rfl⟩
  | run control stack rest rejects =>
    have hbodies {other : UnitId} {body : Body ω χ} (hbody : m.loader.body? other = some body) :
        (m.loader.compileUnit p pass).1.body? other = some body :=
      (m.loader.retains_compileUnit p pass).spares.bodies hbody
    have hfailed := (compileUnit_eq_error_iff p).mpr rejects
    rw [Machine.step, control, stack]
    simp only [resume, continueCompilation, rest]
    rcases hcompiled : m.loader.compileUnit p pass with ⟨l, e | callable⟩
    all_goals rw [hcompiled] at hfailed hbodies
    · cases hfailed
      exact ⟨l, hbodies, rfl⟩
    · cases hfailed

/-- A dependency that is not loaded, or has led nowhere, spoils the second pass. -/
theorem spoils_of_unavailable {value : Value} {executer : Operation} {reference : Reference}
    {rest : List Reference} (hcontrol : m.control = .returning (.ok value))
    (hs : m.stack = .compiling pass executer :: base) (hrest : pass.rest = reference :: rest)
    (hunavailable : ∀ target, m.loader.cache.result? (reference.key executer.context.text)
      = some target → m.loader.isLoaded target = false) :
    (m.step p).Spoils p { pass with rest } base (.prematureExecution reference.locator) := by
  have heq : m.step p = ⟨m.loader, .returning (.error (.prematureExecution reference.locator)),
      .compiling { pass with rest } executer :: base⟩ := by
    rw [Machine.step, hcontrol, hs]
    simp only [resume, continueCompilation, hrest, callReference]
    split
    case h_1 target hfound =>
      split
      case isTrue hloaded =>
        exact absurd hloaded (ne_true_of_eq_false (hunavailable target hfound))
      case isFalse => rfl
    case h_2 => rfl
  rw [heq]
  exact .dependency rfl rfl

theorem compiling_execute (h : m.loader.body? id = some .compiling) (other : UnitId) :
    (m.execute other).loader.body? id = some .compiling := by
  rw [execute]
  split
  · exact h
  · split
    · rwa [body?_congr (m.units_callBody other _ _)]
    · have hunits {info : UnitInfo} {compiler : Compiler ω χ} {file : χ} :
          (m.beginCompilation other info compiler file).loader.units
            = (m.loader.setBody other .compiling).units :=
        units_operation _ .executer info.directory
      rw [body?_congr hunits, body?_setBody, h, Option.map_some, ite_self]
    · exact h
    · exact h

/-- **A unit fails in a step just if something spoils its second pass.** -/
theorem failed_step_iff (hcompiling : m.loader.body? id = some .compiling) :
    (m.step p).loader.body? id = some .failed ↔
      ∃ pass base error, pass.unit = id ∧ m.Spoils p pass base error := by
  constructor
  · intro hfailed
    have hleft {l : Loader ω χ} {pass : SecondPass ω χ} {body : Body ω χ}
        (hbodies : l.body? id = some .compiling)
        (hbody : (l.setBody pass.unit body).body? id = some .failed) :
        pass.unit = id ∧ body = .failed := by
      rw [body?_setBody, hbodies, Option.map_some, Option.some.injEq] at hbody
      split at hbody
      case isTrue heq => exact ⟨heq, hbody⟩
      case isFalse => cases hbody
    -- a unit that is compiling fails only in a step that ends a second pass
    have hfares := m.step_fares p
    generalize m.step p = m' at hfares hfailed
    cases hfares with
    | execute idle executes =>
      cases executes with
      | none retains =>
        rw [retains.spares.bodies hcompiling] at hfailed
        cases hfailed
      | one other retains =>
        rw [compiling_execute (retains.spares.bodies hcompiling) other] at hfailed
        cases hfailed
    | @fail error pass executer base control stack =>
      exact ⟨pass, base, error, (hleft hcompiling hfailed).1, .dependency control stack⟩
    | @finish value pass executer base control stack rest =>
      have hbodies := (m.loader.retains_compileUnit p pass).spares.bodies hcompiling
      have hreason {error : LoaderError} : (m.loader.compileUnit p pass).2 = .error error ↔
          m.loader.Rejects p pass error := compileUnit_eq_error_iff p
      simp only [continueCompilation, rest] at hfailed
      rcases hcompiled : m.loader.compileUnit p pass with ⟨l, error | callable⟩
      all_goals
        rw [hcompiled] at hbodies hreason
        simp only [hcompiled] at hfailed
      · exact ⟨pass, base, error, (hleft hbodies hfailed).1,
          .run control stack rest (hreason.mp rfl)⟩
      · rw [body?_congr (units_callBody _ pass.unit _ _)] at hfailed
        cases (hleft hbodies hfailed).2
  · rintro ⟨pass, base, error, rfl, hspoils⟩
    obtain ⟨l, hbodies, heq⟩ := hspoils.step
    rw [heq]
    refine (body?_setBody l pass.unit .failed pass.unit).trans ?_
    rw [hbodies hcompiling, Option.map_some, if_pos rfl]

end Spoiling

/-! ## What is left -/

/-- Only bodies that are ready are ever called. -/
theorem Reachable.ready_of_called (h : m.Reachable p) :
    ∀ id ∈ calls m.loader.journal, ∃ callable, m.loader.body? id = some (.ready callable) := by
  induction h with
  | start fresh code =>
    intro id hid
    rw [calls, fresh.journal] at hid
    cases hid
  | @step m hreachable ih =>
    intro id hid
    have hstays (hbefore : id ∈ calls m.loader.journal) :
        ∃ callable, (m.step p).loader.body? id = some (.ready callable) := by
      obtain ⟨callable, hready⟩ := ih id hbefore
      obtain ⟨body, hbody, hadvances⟩ := (step_proceeds p hreachable.nests).matures hready
      exact ⟨callable, hadvances.eq_ready ▸ hbody⟩
    by_cases hsame : calls (m.step p).loader.journal = calls m.loader.journal
    · exact hstays (hsame ▸ hid)
    · obtain ⟨called, callable, arguments, hcall⟩ := calls_step p hreachable.nests hsame
      rw [hcall.called] at hid
      rcases List.mem_append.mp hid with hbefore | hnow
      · exact hstays hbefore
      · exact ⟨callable, List.mem_singleton.mp hnow ▸ hcall.body⟩
  | again _ _ _ ih => exact ih

/-- A unit without code has no source map either. -/
theorem Reachable.unmapped (h : m.Reachable p) :
    ∀ script ∈ m.loader.stock.scripts, script.code = none → script.sourceMap = none := by
  induction h with
  | @start l fresh code =>
    have hnone : l.stock.scripts = [] := by rw [stock, fresh.units, List.map_nil]
    simp [hnone]
  | @step m hreachable ih =>
    intro script hmem hcode
    obtain ⟨id, hscript⟩ := List.mem_iff_getElem?.mp hmem
    rcases hreachable.next_stock.origin hreachable.scripts_sound hscript with
      hbefore | ⟨-, -, functions, hbuilt, -⟩
    · exact ih script (List.mem_of_getElem? hbefore) hcode
    · cases hbuilt with
      | pending | callable => rfl
      | code => cases hcode
  | again _ _ _ ih => exact ih

/-- **A unit that has failed has nothing.** -/
theorem Reachable.unit_of_failed (h : m.Reachable p) (hfailed : m.loader.body? id = some .failed) :
    .called id ∉ m.loader.journal ∧ ∃ unit, m.loader.unit? id = some unit ∧
      unit.info.code = none ∧ unit.info.sourceMap = none := by
  refine ⟨fun hcalled ↦ ?_, ?_⟩
  · obtain ⟨callable, hready⟩ := h.ready_of_called id (mem_calls.mpr hcalled)
    rw [hfailed] at hready
    cases hready
  · obtain ⟨unit, hunit, hbody⟩ := Option.map_eq_some_iff.mp hfailed
    have hscript : unit.script ∈ m.loader.stock.scripts :=
      List.mem_of_getElem? (script_of_unit? hunit)
    have hunready : unit.script.isReady = false := by simp [LoadedUnit.script, hbody, Body.stage]
    have hcode := (h.scripts_sound _ hscript).code_eq_none hunready
    exact ⟨unit, hunit, hcode, h.unmapped _ hscript hcode⟩

/-- **Execution leaves no trace of its nesting, and a failed second pass leaves no unit that is half
compiled.** In any run:

* Whatever is executed and however it ends, which units are executing and compiling is afterwards
  what it was before.
* A unit that is compiling fails in a step just if a dependency could not be executed or has failed,
  or the sink for diagnostics refuses what is written, or there is an error among the diagnostics,
  or the engine rejects the function. The error is returned, and what was compiling before is so
  again. A dependency cannot be executed if it is not loaded or its reference has led nowhere.
* Once a unit has failed it always has. It has neither code nor a source map, so it cannot be
  written as a bundle, its body has never been called, and to execute it is the same error each
  time and does nothing else. -/
theorem History.leaves_nothing (h : History p (m :: earlier)) :
    (∀ (n : Machine ω χ) id outcome l,
      Runs p n.stack (n.execute id) ⟨l, .returning outcome, n.stack⟩ →
        l.executing = n.loader.executing ∧ l.compiling = n.loader.compiling) ∧
    (∀ id, m.loader.body? id = some .compiling →
      ((m.step p).loader.body? id = some .failed ↔
        ∃ pass base error, pass.unit = id ∧ m.Spoils p pass base error)) ∧
    (∀ pass base error, m.Spoils p pass base error →
      ∃ l, m.step p = ⟨l, .returning (.error error), base⟩ ∧ l.compiling = pass.previous) ∧
    (∀ value pass executer base reference rest, m.control = .returning (.ok value) →
      m.stack = .compiling pass executer :: base → pass.rest = reference :: rest →
      (∀ target, m.loader.cache.result? (reference.key executer.context.text) = some target →
        m.loader.isLoaded target = false) →
      (m.step p).Spoils p { pass with rest } base (.prematureExecution reference.locator)) ∧
    ∀ id, ∀ m₀ ∈ m :: earlier, m₀.loader.body? id = some .failed →
      m.loader.body? id = some .failed ∧ .called id ∉ m.loader.journal ∧
      ∃ unit, m.loader.unit? id = some unit ∧
        unit.info.code = none ∧ unit.info.sourceMap = none ∧
        unit.info.markedString = .error (.notCompiled unit.info.url.text) ∧
        ∀ control stack, execute ⟨m.loader, control, stack⟩ id =
          ⟨m.loader, .returning (.error (.compilation unit.info.url.text)), stack⟩ := by
  refine ⟨fun n id outcome l hruns ↦ ?_, fun id ↦ failed_step_iff,
    fun pass base error hspoils ↦ ?_, fun _ _ _ _ _ _ ↦ spoils_of_unavailable,
    fun id m₀ hm₀ hfailed₀ ↦ ?_⟩
  · have hslots := slots_of_execute hruns
    exact ⟨congrArg Slots.executing hslots, congrArg Slots.compiling hslots⟩
  · obtain ⟨l, -, heq⟩ := hspoils.step
    exact ⟨_, heq, rfl⟩
  · obtain ⟨body, hbody, hadvances⟩ := (h.matures hm₀).1 hfailed₀
    rw [hadvances.eq_failed] at hbody
    obtain ⟨hcalled, unit, hunit, hcode, hmap⟩ := h.reachable.unit_of_failed hbody
    refine ⟨hbody, hcalled, unit, hunit, hcode, hmap, by rw [UnitInfo.markedString, hcode],
      fun control stack ↦ ?_⟩
    have hunitBody : unit.body = .failed := by
      rw [body?_of_unit? hunit] at hbody
      exact Option.some.inj hbody
    simp only [execute, hunit, hunitBody]
    rfl

def openedPair : Loader (List Request) Unit :=
  (({ world := [], base := .file "/".toList } : Loader (List Request) Unit).openUnit
    (Project.pair.platform List.head?) (.file "/a".toList)).1

/-- It is executed before it has been loaded. -/
def hastyPair : Machine (List Request) Unit :=
  execute ⟨openedPair, .running (.execute 0 .finish), [.resume .finish]⟩ 0

/-- Its second pass has got under way, with one dependency to be executed. -/
theorem exists_pass_hastyPair :
    ∃ pass executer, hastyPair.control = .returning (.ok .undefined) ∧
      hastyPair.stack = [.compiling pass executer, .resume .finish] ∧ pass.unit = 0 ∧
      pass.rest = [⟨"b", true⟩] := by
  have hseen : (openedPair.unit? 0).map (fun unit ↦ (unit.info.dependencies, unit.body.stage))
      = some ([⟨"b", true⟩], .pending) := by decide +kernel
  obtain ⟨unit, hunit, hseen⟩ := Option.map_eq_some_iff.mp hseen
  obtain ⟨hdependencies, hstage⟩ := Prod.mk.inj hseen
  obtain ⟨compiler, file, hbody⟩ : ∃ compiler file, unit.body = .pending compiler file := by
    cases hbody : unit.body with
    | pending compiler file => exact ⟨compiler, file, rfl⟩
    | _ => rw [hbody] at hstage; cases hstage
  have hbegun : hastyPair = beginCompilation
      ⟨openedPair, .running (.execute 0 .finish), [.resume .finish]⟩ 0 unit.info compiler file := by
    simp only [hastyPair, execute, hunit, hbody]
  rw [hbegun, ← hdependencies]
  exact ⟨_, _, rfl, rfl, rfl, rfl⟩

theorem leaves_nothing_hastyPair :
    ∃ l unit, (hastyPair.step (Project.pair.platform List.head?)).step
        (Project.pair.platform List.head?)
          = ⟨l, .returning (.error (.prematureExecution "b")), [.resume .finish]⟩ ∧
      l.executing = none ∧ l.compiling = none ∧
      l.body? 0 = some .failed ∧ .called 0 ∉ l.journal ∧ l.unit? 0 = some unit ∧
      unit.info.markedString = .error (.notCompiled unit.info.url.text) := by
  let p := Project.pair.platform List.head?
  have hfresh : Loader.IsFresh ({ world := [], base := .file "/".toList } :
      Loader (List Request) Unit) := isFresh_mk _ _
  have hreachable : hastyPair.Reachable p :=
    ((Reachable.start hfresh (.openUnit (.file "/a".toList) fun _ ↦ .execute 0 .finish)).step).step
  -- nothing has been found yet, so the dependency has led nowhere
  have hnowhere (key : String) : hastyPair.loader.cache.result? key = none := by
    have hexecuted := (grows_execute []
      (⟨openedPair, .running (.execute 0 .finish), [.resume .finish]⟩ :
        Machine (List Request) Unit) 0).quiet
    have hopened := Loader.quiet_openUnit p
      ({ world := [], base := .file "/".toList } : Loader (List Request) Unit) (.file "/a".toList)
    exact ((hopened.trans hexecuted).result? key).trans rfl
  obtain ⟨pass, executer, hcontrol, hs, hpass, hrest⟩ := exists_pass_hastyPair
  obtain ⟨earlier, h⟩ := hreachable.exists_history
  have hspoils := (History.leaves_nothing h).2.2.2.1 _ _ _ _ _ _ hcontrol hs hrest
    fun target htarget ↦ by rw [hnowhere] at htarget; cases htarget
  obtain ⟨l, heq, -⟩ := (History.leaves_nothing h.step).2.2.1 _ _ _ hspoils
  -- the execution returns what the second pass has failed with
  have hpending {m : Machine (List Request) Unit} {frame : Frame (List Request) Unit}
      (hs : m.stack = [frame, .resume .finish]) : ¬m.Returns [.resume .finish] := by
    rintro ⟨-, -, hbase⟩
    rw [hs] at hbase
    cases congrArg List.length hbase
  obtain ⟨executer', hs'⟩ : ∃ executer', (hastyPair.step p).stack =
      [.compiling { pass with rest := [] } executer', .resume .finish] := by
    cases hspoils with
    | dependency _ stack => exact ⟨_, stack⟩
    | run _ stack => exact ⟨_, stack⟩
  have hruns : Runs p [.resume .finish] hastyPair
      ⟨l, .returning (.error (.prematureExecution "b")), [.resume .finish]⟩ :=
    heq ▸ .step (hpending hs) (.step (hpending hs') (.refl _))
  obtain ⟨hexecuting, hcompiling⟩ := (History.leaves_nothing h).1
    ⟨openedPair, .running (.execute 0 .finish), [.resume .finish]⟩ 0 _ l hruns
  -- and the unit has failed
  have hunderway : (hastyPair.step p).loader.body? 0 = some .compiling :=
    stage?_eq_compiling.mp (by decide +kernel)
  have hfailed := ((History.leaves_nothing h.step).2.1 0 hunderway).mpr
    ⟨{ pass with rest := [] }, _, _, hpass, hspoils⟩
  obtain ⟨hbody, hcalled, unit, hunit, -, -, hmarked, -⟩ :=
    (History.leaves_nothing h.step.step).2.2.2.2 0 _ List.mem_cons_self hfailed
  rw [heq] at hbody hcalled hunit
  have hidle : openedPair.executing = none ∧ openedPair.compiling = none := by decide +kernel
  exact ⟨l, unit, heq, hexecuting.trans hidle.1, hcompiling.trans hidle.2, hbody, hcalled, hunit,
    hmarked⟩

end Machine

end ScriptLoader
