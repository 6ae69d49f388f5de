import ScriptLoader.Proofs.Compiling.Nesting

/-!
# Calls

Whoever is told that a body is called wants to know that it is run, and with what. A step tells of a
call in the journal just when it calls the body that the unit is ready with: this is the code that
the machine runs next, with arguments of which the further ones are the values in force. No step
calls two bodies.
-/

namespace ScriptLoader

variable {ω χ : Type}

namespace Machine

open Loader Journal

variable {m : Machine ω χ}

/-- In a change the body of a unit is called with the further arguments in force. -/
structure Calls (m m' : Machine ω χ) (id : UnitId) (callable : Callable ω)
    (arguments : Arguments) : Prop where
  called : calls m'.loader.journal = calls m.loader.journal ++ [id]
  body : m'.loader.body? id = some (.ready callable)
  runs : m'.control = .running (callable arguments)
  extras : arguments.extras = m'.loader.host.values

theorem calls_callBody (m : Machine ω χ) (id : UnitId) (directory : Url) {callable : Callable ω}
    (hbody : m.loader.body? id = some (.ready callable)) :
    ∃ arguments, m.Calls (m.callBody id directory callable) id callable arguments := by
  have hstays := (m.stays_callBody id directory callable).1.spares
  refine ⟨(m.loader.argumentsFor directory).2, ?_, ?_, rfl, rfl⟩
  · rw [hstays.calls]
    exact calls_append [.called id] m.loader.journal
  · rw [body?_congr (m.units_callBody id directory callable), hbody]

/-- Executing a unit calls its body, or nothing. -/
theorem calls_execute (m : Machine ω χ) (id : UnitId) :
    calls (m.execute id).loader.journal = calls m.loader.journal ∨
      ∃ callable arguments, m.Calls (m.execute id) id callable arguments := by
  cases hunit : m.loader.unit? id with
  | none =>
    have heq : m.execute id = m.done := by simp only [execute, hunit]
    exact .inl (heq ▸ rfl)
  | some unit =>
    cases hbody : unit.body with
    | ready callable =>
      have heq : m.execute id = m.callBody id unit.info.directory callable := by
        simp only [execute, hunit, hbody]
      exact .inr ⟨callable, heq ▸ m.calls_callBody id _ (hbody ▸ body?_of_unit? hunit)⟩
    | pending compiler file =>
      have heq : m.execute id = m.beginCompilation id unit.info compiler file := by
        simp only [execute, hunit, hbody]
      rw [heq]
      exact .inl (congrArg calls (journal_operation _ .executer unit.info.directory))
    | compiling =>
      have heq : m.execute id = m.done := by simp only [execute, hunit, hbody]
      exact .inl (heq ▸ rfl)
    | failed =>
      have heq : m.execute id = m.throw (.compilation unit.info.url.text) := by
        simp only [execute, hunit, hbody]
      exact .inl (heq ▸ rfl)

/-- **A step that tells of a call calls the body** of one unit. -/
theorem calls_step (p : Platform ω χ) (hnests : m.loader.Nests m.underway)
    (hcalls : calls (m.step p).loader.journal ≠ calls m.loader.journal) :
    ∃ id callable arguments, m.Calls (m.step p) id callable arguments := by
  have hfares := m.step_fares p
  generalize m.step p = m' at hfares hcalls ⊢
  cases hfares with
  | execute idle executes =>
    cases executes with
    | none retains => exact absurd retains.spares.calls hcalls
    | @one n id retains =>
      rcases n.calls_execute id with hsame | ⟨callable, arguments, hcall⟩
      · exact absurd (hsame.trans retains.spares.calls) hcalls
      · exact ⟨id, callable, arguments, retains.spares.calls ▸ hcall.called, hcall.body,
          hcall.runs, hcall.extras⟩
  | fail control stack => exact absurd rfl hcalls
  | @finish value pass executer base control stack rest =>
    have hretains := m.loader.retains_compileUnit p pass
    have hsame : calls (m.loader.record (.compiled pass.unit)).journal
        = calls m.loader.journal :=
      (calls_append [.compiled pass.unit] _).trans (List.append_nil _)
    have hbody : m.loader.body? pass.unit = some .compiling := by
      refine hnests.compiling.mpr ?_
      rw [underway, stack]
      exact List.mem_cons_self
    rw [continueCompilation, rest] at hcalls ⊢
    rcases hcompiled : m.loader.compileUnit p pass with ⟨l, error | callable⟩
    all_goals
      rw [hcompiled] at hretains
      simp only [hcompiled] at hcalls ⊢
    · exact absurd (hretains.spares.calls.trans hsame) hcalls
    · let ended := leaveCompilation ⟨l, m.control, base⟩ pass (.ready callable)
      have hready : ended.loader.body? pass.unit = some (.ready callable) := by
        have hcompiling : l.body? pass.unit = some .compiling := hretains.spares.bodies hbody
        refine (body?_setBody l pass.unit _ pass.unit).trans ?_
        rw [hcompiling, Option.map_some, if_pos rfl]
      obtain ⟨arguments, hcall⟩ := ended.calls_callBody pass.unit pass.directory hready
      have hbefore : calls ended.loader.journal = calls m.loader.journal :=
        hretains.spares.calls.trans hsame
      exact ⟨pass.unit, callable, arguments, hbefore ▸ hcall.called, hcall.body, hcall.runs,
        hcall.extras⟩

end Machine

end ScriptLoader
