import ScriptLoader.Proofs.Making.Stock

/-!
# What is in force

Three things are in force while code runs: what functions get beyond the fixed parameters, which
unit is executing, and which is compiling. The first is set by code, and by nothing else. The other
two change when a body is called or a second pass gets under way, and change back at the end.

Nothing remembers this but the stack. The frame of a call holds which unit was executing before, and
the frame of a second pass which was compiling. So the stack can be *unwound* at any time, which
tells what will be in force once some frames have been taken off. No step changes what the stack
below it unwinds to.
-/

namespace ScriptLoader

variable {ω χ : Type}

/-- Which units are executing and compiling. -/
structure Slots where
  executing : Option UnitId
  compiling : Option UnitId
  deriving DecidableEq

namespace Loader

variable (l : Loader ω χ) (p : Platform ω χ)

def slots (l : Loader ω χ) : Slots := ⟨l.executing, l.compiling⟩

/-- The further parameters, and which units are executing and compiling. -/
def inForce (l : Loader ω χ) : HostBindings × Slots := (l.host, l.slots)

theorem host_nameUnit (url : Option Url) : (l.nameUnit url).1.host = l.host := by
  cases url <;> rfl

theorem inForce_of_strokes {p : Platform ω χ} {asked : Option (Compiler ω χ)}
    {l l' : Loader ω χ} (h : l.Strokes p asked l') : l'.inForce = l.inForce :=
  h.congr fun hstroke ↦ by cases hstroke <;> rfl

theorem inForce_of_shifts {l l' : Loader ω χ} (h : l.Shifts l') : l'.inForce = l.inForce := by
  obtain ⟨hhost, hexecuting, hcompiling⟩ := h.inForce
  rw [Loader.inForce, slots, hhost, hexecuting, hcompiling, Loader.inForce, slots]

end Loader

/-! ## Unwinding -/

/-- What is executing and compiling once a frame has been taken off. -/
def Frame.unwind : Frame ω χ → Slots → Slots
  | calling previous, slots => { slots with executing := previous }
  | compiling pass _, slots => { slots with compiling := pass.previous }
  | _, slots => slots

/-- What is executing and compiling once frames have been taken off, the topmost first. -/
def Stack.unwind (frames : List (Frame ω χ)) (slots : Slots) : Slots :=
  frames.foldl (fun slots frame ↦ frame.unwind slots) slots

/-- Plain frames hold nothing that is in force. -/
theorem Stack.unwind_of_plain {frames : List (Frame ω χ)} {slots : Slots}
    (h : ∀ frame ∈ frames, frame.isPlain = true) : Stack.unwind frames slots = slots := by
  induction frames with
  | nil => rfl
  | cons frame rest ih =>
    obtain ⟨hframe, hrest⟩ := List.forall_mem_cons.mp h
    have hsame : frame.unwind slots = slots := by
      cases frame <;> first | rfl | cases hframe
    rw [Stack.unwind, List.foldl_cons, hsame]
    exact ih hrest

namespace Machine

open Loader

/-- Some frames are put on the stack, and once they are taken off all that was in force is again. -/
structure Upholds (m m' : Machine ω χ) : Prop where
  host : m'.loader.host = m.loader.host
  stack : ∃ pushed, m'.stack = pushed ++ m.stack ∧
    Stack.unwind pushed m'.loader.slots = m.loader.slots

namespace Upholds

variable {m n m' : Machine ω χ}

theorem of_inForce (h : m'.loader.inForce = m.loader.inForce) (hs : m'.stack = m.stack) :
    m.Upholds m' :=
  ⟨congrArg Prod.fst h, [], hs, congrArg Prod.snd h⟩

theorem of_push (frame : Frame ω χ) (hhost : m'.loader.host = m.loader.host)
    (hs : m'.stack = frame :: m.stack) (hslots : frame.unwind m'.loader.slots = m.loader.slots) :
    m.Upholds m' :=
  ⟨hhost, [frame], hs, hslots⟩

theorem trans (h : m.Upholds n) (h' : n.Upholds m') : m.Upholds m' := by
  obtain ⟨pushed, hs, hslots⟩ := h.stack
  obtain ⟨pushed', hs', hslots'⟩ := h'.stack
  refine ⟨h'.host.trans h.host, pushed' ++ pushed, by rw [hs', hs, List.append_assoc], ?_⟩
  rw [Stack.unwind, List.foldl_append]
  exact (congrArg (Stack.unwind pushed) hslots').trans hslots

end Upholds

variable (m : Machine ω χ) (p : Platform ω χ)

/-! ## The functions of the loader -/

/-- The frame of a call holds which unit was executing. -/
theorem upholds_callBody (id : UnitId) (directory : Url) (callable : Callable ω) :
    m.Upholds (m.callBody id directory callable) := by
  have hasked : m.Upholds { m with loader := (m.loader.argumentsFor directory).1 } :=
    .of_inForce (inForce_of_shifts (m.loader.shifts_argumentsFor directory)) rfl
  exact hasked.trans (.of_push (.calling (m.loader.argumentsFor directory).1.executing) rfl rfl rfl)

/-- The frame of a second pass holds which unit was compiling. -/
theorem upholds_beginCompilation (id : UnitId) (info : UnitInfo) (compiler : Compiler ω χ)
    (file : χ) : m.Upholds (m.beginCompilation id info compiler file) := by
  have hentered := inForce_of_shifts (shifts_operation
    { m.loader.setBody id .compiling with
      compiling := some id
      world := (compiler.enterImport m.loader.world file info.url.displayName).1 }
    .executer info.directory)
  refine .of_push _ (congrArg Prod.fst hentered) rfl ?_
  exact congrArg (fun slots : Slots ↦ { slots with compiling := m.loader.compiling })
    (congrArg Prod.snd hentered)

theorem upholds_execute (id : UnitId) : m.Upholds (m.execute id) := by
  rw [execute]
  split
  · exact .of_inForce rfl rfl
  · split
    · exact m.upholds_callBody id _ _
    · exact m.upholds_beginCompilation id _ _ _
    · exact .of_inForce rfl rfl
    · exact .of_inForce rfl rfl

theorem Upholds.of_shifts {m m' : Machine ω χ} (h : m.Shifts m') : m.Upholds m' := by
  obtain ⟨hloader, pushed, hs, hplain⟩ := h
  have hkept := inForce_of_shifts hloader
  refine ⟨congrArg Prod.fst hkept, pushed, hs, ?_⟩
  rw [Stack.unwind_of_plain hplain]
  exact congrArg Prod.snd hkept

theorem Upholds.of_leads {m m' : Machine ω χ} (h : m.Leads m') : m.Upholds m' :=
  h.induct trans of_shifts upholds_execute

theorem upholds_completeLookup (lookup : Lookup ω) : m.Upholds (m.completeLookup p lookup) := by
  obtain ⟨world, answer, hleads⟩ := m.leads_completeLookup p lookup
  have hnoted := inForce_of_shifts (m.loader.shifts_noteFound world lookup.key answer)
  have hmade := (inForce_of_strokes
    (strokes_unitOfAnswer p _ lookup.locator lookup.origin answer)).trans hnoted
  obtain ⟨l, e, heq, hleads⟩ | ⟨l, id, heq, hleads⟩ := hleads
  all_goals
    rw [heq] at hmade
    refine .trans ?_ (.of_leads hleads)
    exact .of_inForce hmade rfl

theorem upholds_drive (next : Awaited Unit → Code ω) : m.Upholds (m.drive p next) := by
  obtain hshifts | ⟨n, lookup, hshifts, heq⟩ := m.leads_drive p next
  · exact .of_shifts hshifts
  · rw [heq]
    exact .trans (.of_shifts hshifts) (upholds_completeLookup n p lookup)

/-- What is popped is made up for: once a frame has been taken off, what it unwinds to is upheld. -/
theorem upholds_continueCompilation (pass : SecondPass ω χ) (executer : Operation) :
    (m.update fun l ↦ { l with compiling := pass.previous }).Upholds
      (m.continueCompilation p pass executer) := by
  rw [continueCompilation]
  cases pass.rest with
  | cons reference rest =>
    have hpushed : (m.update fun l ↦ { l with compiling := pass.previous }).Upholds
        (m.push (.compiling { pass with rest } executer)) :=
      .of_push _ rfl rfl rfl
    exact hpushed.trans (.of_leads (leads_callReference _ executer reference))
  | nil =>
    have hcompiled := inForce_of_strokes (m.loader.strokes_compileUnit p pass)
    dsimp only
    rcases h : m.loader.compileUnit p pass with ⟨l, error | callable⟩
    all_goals
      rw [h] at hcompiled
      have hleft {body : Body ω χ} :
          (m.update fun l ↦ { l with compiling := pass.previous }).Upholds
            (leaveCompilation { m with loader := l } pass body) :=
        .of_inForce (congrArg (fun inForce : HostBindings × Slots ↦
          (inForce.1, { inForce.2 with compiling := pass.previous })) hcompiled) rfl
    · exact hleft.trans (.of_inForce rfl rfl)
    · exact hleft.trans (upholds_callBody _ pass.unit pass.directory callable)

/-! ## Steps -/

/-- A frame gets what it has waited for, with what it held in force again. -/
theorem upholds_resume (frame : Frame ω χ) (outcome : Outcome) :
    (m.update fun l ↦
      { l with
        executing := (frame.unwind l.slots).executing
        compiling := (frame.unwind l.slots).compiling }).Upholds (m.resume p frame outcome) := by
  have hplain (hplain : frame.isPlain = true) : m.Upholds (m.resume p frame outcome) := by
    obtain hleads | ⟨next, -, heq⟩ := m.leads_resume p hplain outcome
    · exact .of_leads hleads
    · rw [heq]
      exact m.upholds_drive p next
  cases frame with
  | compiling pass executer =>
    cases outcome with
    | ok value => exact m.upholds_continueCompilation p pass executer
    | error error => exact .of_inForce rfl rfl
  | calling previous => exact .of_inForce rfl rfl
  | _ => exact hplain rfl

/-- Code leaves in force what is, except that it may set the further parameters. -/
theorem upholds_runCode {code : Code ω} (h : ∀ host next, code ≠ .setHost host next) :
    m.Upholds (m.runCode p code) := by
  cases code with
  | setHost host next => exact absurd rfl (h host next)
  | drive next => exact m.upholds_drive p next
  | openUnit url next =>
    exact .of_inForce (inForce_of_strokes (m.loader.strokes_openUnit p url)) rfl
  | createFromSource url code dependencies next =>
    exact .of_inForce
      (inForce_of_strokes (m.loader.strokes_createFromSource p url code dependencies)) rfl
  | createFromFunction url body dependencies next =>
    exact .of_inForce
      (inForce_of_strokes (m.loader.strokes_createFromFunction p url body dependencies)) rfl
  | createFromResource resource next =>
    exact .of_inForce (inForce_of_strokes (m.loader.strokes_unitOfResource p resource)) rfl
  | reset => exact .of_inForce rfl rfl
  | _ => exact .of_leads (m.leads_runCode p rfl)

/-- **Code sets the further parameters**, and nothing else changes them. -/
theorem host_step (h : ∀ host next, m.control ≠ .running (.setHost host next)) :
    (m.step p).loader.host = m.loader.host := by
  rw [step]
  split
  case h_1 code hcontrol =>
    exact (m.upholds_runCode p fun host next heq ↦ h host next (heq ▸ hcontrol)).host
  case h_2 => rfl
  case h_3 outcome frame base hcontrol hs => exact (upholds_resume _ p frame outcome).host

/-- **A step changes nothing that the stack below unwinds to.** -/
theorem step_unwinds {above base : List (Frame ω χ)} (hs : m.stack = above ++ base)
    (hpending : ∀ outcome, m.control = .returning outcome → above ≠ []) :
    ∃ above', (m.step p).stack = above' ++ base ∧
      Stack.unwind above' (m.step p).loader.slots = Stack.unwind above m.loader.slots := by
  -- frames are pushed on what is left of those above
  have hpushed (left : List (Frame ω χ)) {slots : Slots} {m' : Machine ω χ}
      (h : ∃ pushed, m'.stack = pushed ++ (left ++ base) ∧
        Stack.unwind pushed m'.loader.slots = slots) :
      ∃ above', m'.stack = above' ++ base ∧
        Stack.unwind above' m'.loader.slots = Stack.unwind left slots := by
    obtain ⟨pushed, hs', hslots⟩ := h
    refine ⟨pushed ++ left, by rw [hs', List.append_assoc], ?_⟩
    rw [Stack.unwind, List.foldl_append]
    exact congrArg (Stack.unwind left) hslots
  rw [step]
  split
  case h_1 code hcontrol =>
    refine hpushed above ?_
    rw [← hs]
    by_cases hsets : ∃ host next, code = .setHost host next
    · obtain ⟨host, next, rfl⟩ := hsets
      exact ⟨[], rfl, rfl⟩
    · exact (m.upholds_runCode p fun host next heq ↦ hsets ⟨host, next, heq⟩).stack
  case h_2 outcome hcontrol hnil =>
    rw [hnil] at hs
    exact absurd (List.append_eq_nil_iff.mp hs.symm).1 (hpending outcome hcontrol)
  case h_3 outcome frame stack hcontrol htop =>
    obtain _ | ⟨first, left⟩ := above
    · exact absurd rfl (hpending outcome hcontrol)
    · rw [htop] at hs
      obtain ⟨rfl, rfl⟩ := List.cons.inj hs
      exact hpushed left (upholds_resume { m with stack := left ++ base } p frame outcome).stack

end Machine

end ScriptLoader
