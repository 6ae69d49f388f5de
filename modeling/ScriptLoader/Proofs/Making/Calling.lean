import ScriptLoader.Proofs.Compiling.Calls
import ScriptLoader.Proofs.Making.Forging

/-!
# Parameters and arguments

A function gets the names of its further parameters when it is asked for, and their arguments when
it is called. In between, code may set other parameters. So a call gives each parameter what is
bound to its name just if the names in force are those that were in force when the function was
asked for. In particular it does so as long as parameters are only ever given new values.
-/

namespace ScriptLoader

variable {ω χ : Type}

/-- Arguments fit the function of a source: there is one for each parameter that is not fixed, and
together they are the bindings in force. -/
structure Arguments.Fit (arguments : Arguments) (source : FunctionSource) (host : HostBindings) :
    Prop where
  length : arguments.extras.length = (source.parameters.drop fixedParameters.length).length
  bound : (source.parameters.drop fixedParameters.length).zip arguments.extras = host.bindings

namespace HostBindings

theorem zip_names_values (host : HostBindings) : host.names.zip host.values = host.bindings := by
  rw [names, values, List.zip_map']
  exact List.map_id' _

theorem length_values (host : HostBindings) : host.values.length = host.names.length := by
  rw [names, values, List.length_map, List.length_map]

end HostBindings

/-- **Arguments fit just if the names are the same** as when the function was asked for. -/
theorem Arguments.fit_iff {arguments : Arguments} {source : FunctionSource}
    {host before : HostBindings} (hextras : arguments.extras = host.values)
    (hparameters : source.parameters = before.parameters) :
    arguments.Fit source host ↔ host.names = before.names := by
  have hfurther : source.parameters.drop fixedParameters.length = before.names := by
    rw [hparameters, HostBindings.parameters, List.drop_left]
  constructor
  · rintro ⟨hlength, hbound⟩
    rw [hfurther, hextras] at hlength hbound
    rw [HostBindings.names, ← hbound, List.map_fst_zip hlength.ge]
  · intro hnames
    refine ⟨?_, ?_⟩ <;> rw [hfurther, hextras, ← hnames]
    · exact host.length_values
    · exact host.zip_names_values

namespace Machine

open Loader Journal

variable {p : Platform ω χ} {m : Machine ω χ} {earlier : List (Machine ω χ)}

/-! ## Names in force -/

/-- Code that sets the further parameters only gives them new values. -/
def KeepsNames (m : Machine ω χ) : Prop :=
  ∀ host next, m.control = .running (.setHost host next) → host.names = m.loader.host.names

theorem names_step (p : Platform ω χ) (h : m.KeepsNames) :
    (m.step p).loader.host.names = m.loader.host.names := by
  by_cases hsets : ∃ host next, m.control = .running (.setHost host next)
  · obtain ⟨host, next, hcontrol⟩ := hsets
    rw [step, hcontrol]
    exact h host next hcontrol
  · rw [host_step m p fun host next hcontrol ↦ hsets ⟨host, next, hcontrol⟩]

/-- Names stay in force as long as code sets no others. -/
theorem History.names_eq (h : History p (m :: earlier))
    (hkeeps : ∀ m₁ ∈ earlier, m₁.KeepsNames) {m₀ : Machine ω χ} (hm₀ : m₀ ∈ m :: earlier) :
    m.loader.host.names = m₀.loader.host.names := by
  generalize heq : m :: earlier = machines at h
  induction h generalizing m earlier with
  | start fresh code =>
    cases heq
    rw [List.mem_singleton.mp hm₀]
  | @step m' earlier' history ih =>
    cases heq
    rcases List.mem_cons.mp hm₀ with rfl | hm₀
    · rfl
    · have hbefore := ih (fun m₁ hm₁ ↦ hkeeps m₁ (List.mem_cons_of_mem _ hm₁)) hm₀ rfl
      exact (names_step p (hkeeps m' List.mem_cons_self)).trans hbefore
  | @again m' earlier' history _ _ ih =>
    cases heq
    rcases List.mem_cons.mp hm₀ with rfl | hm₀
    · rfl
    · have hbefore := ih (fun m₁ hm₁ ↦ hkeeps m₁ (List.mem_cons_of_mem _ hm₁)) hm₀ rfl
      exact hbefore

/-- **Arguments fit the parameters just if the names are still the same.** Whenever the body of a
unit is called, it is called with the values in force. If the unit has code, its body is what the
engine returned in the step in which the unit was given the code, for a function with the parameters
in force then. So the arguments fit this function just if the names in force are those that were in
force then, and they always do if code never sets other names. -/
theorem History.arguments_fit_iff (h : History p (m :: earlier))
    (hcalls : calls (m.step p).loader.journal ≠ calls m.loader.journal) :
    ∃ id callable arguments, m.Calls (m.step p) id callable arguments ∧
      ∃ unit, (m.step p).loader.unit? id = some unit ∧ ∀ code, unit.info.code = some code →
        ∃ m₀ ∈ m :: earlier, ∃ world source, m₀.GivesCode p id world source ∧
          (p.engine.synthesize world source).2 = .ok callable ∧
          source.parameters = m₀.loader.host.parameters ∧
          (arguments.Fit source (m.step p).loader.host ↔
            (m.step p).loader.host.names = m₀.loader.host.names) ∧
          ((∀ m₁ ∈ m :: earlier, m₁.KeepsNames) →
            arguments.Fit source (m.step p).loader.host) := by
  obtain ⟨id, callable, arguments, hcall⟩ := calls_step p h.reachable.nests hcalls
  obtain ⟨unit, hunit, hready⟩ := Option.map_eq_some_iff.mp hcall.body
  refine ⟨id, callable, arguments, hcall, unit, hunit, fun code hcode ↦ ?_⟩
  have hholds : (m.step p).loader.Holds id unit.script callable :=
    ⟨hcall.body, script_of_unit? hunit⟩
  obtain ⟨m₀, hm₀, world, source, hgives, hsource, hbuilt⟩ := h.step.exists_forged p hholds hcode
  have hparameters : source.parameters = m₀.loader.host.parameters := by
    rw [hsource]
    rfl
  have hfit := Arguments.fit_iff hcall.extras hparameters
  refine ⟨m₀, hm₀, world, source, hgives, hbuilt, hparameters, hfit, fun hkeeps ↦ hfit.mpr ?_⟩
  exact h.step.names_eq hkeeps (List.mem_cons_of_mem _ hm₀)

/-- Code is made into a unit, then a further parameter is set, and the unit is executed. -/
def rebinding : List (Machine (List Request) Unit) :=
  let code : Code (List Request) :=
    .createFromSource (some (.file "/a".toList)) "extras" [] fun
      | .ok id => .setHost ⟨[("require", .string "r")]⟩ (.execute id .finish)
      | .error e => .finish (.error e)
  prolong (Project.pair.platform List.head?) 2
    [{ loader := { world := [], base := .file "/".toList }, control := .running code }]

/-- An argument is passed for which the function has no parameter. -/
theorem arguments_fit_iff_rebinding :
    ∃ m earlier, rebinding = m :: earlier ∧
      History (Project.pair.platform List.head?) (m :: earlier) ∧
      calls (m.step (Project.pair.platform List.head?)).loader.journal ≠ calls m.loader.journal ∧
      ∃ callable arguments world source,
        m.Calls (m.step (Project.pair.platform List.head?)) 0 callable arguments ∧
        ((Project.pair.platform List.head?).engine.synthesize world source).2 = .ok callable ∧
        source.parameters = fixedParameters ∧ arguments.extras.length = 1 ∧
        ¬arguments.Fit source (m.step (Project.pair.platform List.head?)).loader.host := by
  have hhistory : History (Project.pair.platform List.head?) rebinding :=
    (History.start (isFresh_mk _ _) _).prolong 2
  have hcalled : (rebinding.head?.any fun m ↦ calls m.loader.journal = [] ∧
      calls (m.step (Project.pair.platform List.head?)).loader.journal = [0] ∧
      (m.step (Project.pair.platform List.head?)).loader.host.names = ["require"] ∧
      ((m.step (Project.pair.platform List.head?)).loader.unit? 0).any
        (·.info.code.isSome)) = true := by
    decide +kernel
  -- the unit had its code before the parameter was set
  have hnames : ∀ m ∈ rebinding, m.loader.host.names = [] ∨
      (m.loader.unit? 0).any (·.info.code.isSome) = true := by
    decide +kernel
  generalize rebinding = machines at hhistory hcalled hnames ⊢
  obtain _ | ⟨m, earlier⟩ := machines
  · cases hhistory
  simp only [List.head?_cons, Option.any_some, Bool.decide_and, Bool.and_eq_true,
    decide_eq_true_eq] at hcalled
  obtain ⟨hbefore, hafter, hset, hcode⟩ := hcalled
  have hcalls : calls (m.step (Project.pair.platform List.head?)).loader.journal
      ≠ calls m.loader.journal := by
    rw [hbefore, hafter]
    exact List.cons_ne_nil _ _
  obtain ⟨id, callable, arguments, hcall, unit, hunit, hbuilt⟩ :=
    History.arguments_fit_iff hhistory hcalls
  obtain rfl : id = 0 := by
    have hcalled := hcall.called
    rw [hbefore, hafter] at hcalled
    exact (List.singleton_inj.mp hcalled).symm
  rw [hunit, Option.any_some] at hcode
  obtain ⟨code, hcode⟩ := Option.isSome_iff_exists.mp hcode
  obtain ⟨m₀, hm₀, world, source, hgives, hsynthesized, hparameters, hfit, -⟩ := hbuilt code hcode
  have hfirst : m₀.loader.host.names = [] := by
    rcases hnames m₀ hm₀ with hnone | hknown
    · exact hnone
    · obtain ⟨unit, hunit, hcode⟩ := (Option.any_eq_true _ _).mp hknown
      rw [hgives.before unit hunit] at hcode
      cases hcode
  refine ⟨m, earlier, rfl, hhistory, hcalls, callable, arguments, world, source, hcall,
    hsynthesized, ?_, ?_, ?_⟩
  · rw [hparameters, HostBindings.parameters, hfirst, List.append_nil]
  · rw [hcall.extras, HostBindings.length_values, hset]
    rfl
  · rw [hfit, hset, hfirst]
    exact List.cons_ne_nil _ _

end Machine

end ScriptLoader
