import ScriptLoader.Proofs.Compiling.Fates

/-!
# Files between the passes

A file comes from a first pass, and then it waits for its second one: at first in the body of its
unit, later on the stack, while its dependencies are executed. Meanwhile an import context is
entered. So whatever a compiler is given for a second pass has come from its first pass of the file
at the URL of the unit.

`Machine.Drafted` says so of all files that wait. Most of what a loader does leaves bodies and URLs
alone; the rest is that units are made, and that one of them is executed.
-/

namespace ScriptLoader

variable {ω χ : Type}

/-- Files of a URL that wait for a second pass. -/
inductive Draft (p : Platform ω χ) : Compiler ω χ → Url → χ → Prop
  /-- The file comes from the first pass. -/
  | read {compiler : Compiler ω χ} {view : View ω} {source : String} {url : Url}
      {dependencies : List Reference} {file : χ} (compiles : p.compiler = some compiler)
      (reads : (compiler.firstPass view source url).2 = .ok (dependencies, file)) :
      Draft p compiler url file
  | enter {compiler : Compiler ω χ} {url : Url} {file : χ} (draft : Draft p compiler url file)
      (world : ω) (name : String) : Draft p compiler url (compiler.enterImport world file name).2

/-- Whatever waits for a second pass in the body of a unit at a URL is a file for it. -/
def Body.Drafted (p : Platform ω χ) (url : Url) : Body ω χ → Prop
  | pending compiler file => Draft p compiler url file
  | _ => True

/-- A second pass that waits for dependencies has a file for it. -/
def Frame.Drafted (p : Platform ω χ) : Frame ω χ → Prop
  | compiling pass _ => Draft p pass.compiler pass.url pass.file
  | _ => True

/-- In all units, whatever waits for a second pass is a file for it. -/
def Loader.Drafted (p : Platform ω χ) (l : Loader ω χ) : Prop :=
  ∀ unit ∈ l.units, unit.body.Drafted p unit.info.url

/-- Whatever waits for a second pass is a file for it. -/
structure Machine.Drafted (p : Platform ω χ) (m : Machine ω χ) : Prop where
  loader : m.loader.Drafted p
  stack : ∀ frame ∈ m.stack, frame.Drafted p

variable {p : Platform ω χ}

namespace Loader

variable {l l' : Loader ω χ}

namespace Drafted

theorem of_units (h : l.Drafted p) (hunits : l'.units = l.units) : l'.Drafted p := by
  rw [Drafted, hunits]
  exact h

theorem modifyUnit (h : l.Drafted p) (id : UnitId) {change : LoadedUnit ω χ → LoadedUnit ω χ}
    (hchange : ∀ unit : LoadedUnit ω χ, unit.body.Drafted p unit.info.url →
      (change unit).body.Drafted p (change unit).info.url) :
    (l.modifyUnit id change).Drafted p := by
  intro unit hunit
  obtain ⟨index, hget⟩ := List.mem_iff_getElem?.mp hunit
  rw [Loader.modifyUnit, List.getElem?_modify] at hget
  obtain ⟨old, hold, rfl⟩ := Option.map_eq_some_iff.mp hget
  have hdrafted := h old (List.mem_of_getElem? hold)
  split
  · exact hchange old hdrafted
  · exact hdrafted

theorem shifts (hshifts : l.Shifts l') (h : l.Drafted p) : l'.Drafted p := by
  refine hshifts.induct (R := fun l l' ↦ l.Drafted p → l'.Drafted p) (fun _ h ↦ h)
    (fun h h' ↦ h' ∘ h) (fun {l l'} hshift h ↦ ?_) h
  cases hshift with
  | status | callbacks => exact h.modifyUnit _ fun _ hunit ↦ hunit
  | operation kind context => exact h.of_units (units_operation l kind context)
  | aside | record | mark => exact h

/-- A new unit that awaits its second pass has a file that comes from the first. -/
theorem addUnit (h : l.Drafted p) {unit : LoadedUnit ω χ}
    (hunit : unit.body.Begins p unit.info.url) : (l.addUnit unit).1.Drafted p := by
  refine List.forall_mem_append.mpr ⟨h, List.forall_mem_singleton.mpr ?_⟩
  generalize unit.body = body at hunit
  cases hunit with
  | ready => trivial
  | pending hcompiles hreads => exact .read hcompiles hreads

theorem strokes {asked : Option (Compiler ω χ)} (hstrokes : l.Strokes p asked l')
    (h : l.Drafted p) : l'.Drafted p := by
  refine hstrokes.induct (R := fun l l' ↦ l.Drafted p → l'.Drafted p) (fun _ h ↦ h)
    (fun h h' ↦ h' ∘ h) (fun {l l'} hstroke h ↦ ?_) h
  cases hstroke with
  | add _ hbegins => exact h.addUnit hbegins
  | code => exact h.modifyUnit _ fun _ hunit ↦ hunit
  | world | record | name | file => exact h

theorem setBody (h : l.Drafted p) (id : UnitId) (body : Body ω χ)
    (hbody : ∀ url, body.Drafted p url) : (l.setBody id body).Drafted p :=
  h.modifyUnit id fun unit _ ↦ hbody unit.info.url

theorem compileUnit (h : l.Drafted p) (pass : SecondPass ω χ) :
    (l.compileUnit p pass).1.Drafted p :=
  strokes (l.strokes_compileUnit p pass) h

end Drafted

end Loader

namespace Machine

variable {m m' : Machine ω χ}

namespace Drafted

theorem of_loader (h : m.Drafted p) {l : Loader ω χ} (hl : l.Drafted p) :
    ({ m with loader := l } : Machine ω χ).Drafted p :=
  ⟨hl, h.stack⟩

theorem push (h : m.Drafted p) (frame : Frame ω χ) (hframe : frame.Drafted p) :
    (m.push frame).Drafted p :=
  ⟨h.loader, List.forall_mem_cons.mpr ⟨hframe, h.stack⟩⟩

theorem callBody (h : m.Drafted p) (id : UnitId) (directory : Url) (callable : Callable ω) :
    (m.callBody id directory callable).Drafted p := by
  have hasked := Loader.Drafted.shifts (m.loader.shifts_argumentsFor directory) h.loader
  exact ⟨hasked, List.forall_mem_cons.mpr ⟨trivial, h.stack⟩⟩

/-- The file of a unit goes from its body to the stack. -/
theorem beginCompilation (h : m.Drafted p) (id : UnitId) {info : UnitInfo}
    {compiler : Compiler ω χ} {file : χ} (hfile : Draft p compiler info.url file) :
    (m.beginCompilation id info compiler file).Drafted p := by
  have hbegun := h.loader.setBody id .compiling fun _ ↦ trivial
  refine ⟨hbegun.of_units (Loader.units_operation _ _ _), List.forall_mem_cons.mpr ⟨?_, h.stack⟩⟩
  exact .enter hfile _ _

theorem execute (h : m.Drafted p) (id : UnitId) : (m.execute id).Drafted p := by
  rw [Machine.execute]
  split
  · exact ⟨h.loader, h.stack⟩
  case h_2 unit hunit =>
    have hbody := h.loader unit (List.mem_of_getElem? hunit)
    cases hcase : unit.body with
    | ready callable => exact h.callBody id unit.info.directory callable
    | pending compiler file =>
      rw [hcase] at hbody
      exact h.beginCompilation id hbody
    | compiling | failed => exact ⟨h.loader, h.stack⟩

theorem leads (hleads : m.Leads m') (h : m.Drafted p) : m'.Drafted p := by
  refine hleads.induct (R := fun m m' ↦ m.Drafted p → m'.Drafted p) (fun h h' ↦ h' ∘ h)
    (fun {m m'} hshifts h ↦ ?_) (fun _ id h ↦ h.execute id) h
  obtain ⟨hloader, pushed, hs, hplain⟩ := hshifts
  refine ⟨Loader.Drafted.shifts hloader h.loader, ?_⟩
  rw [hs, List.forall_mem_append]
  refine ⟨fun frame hframe ↦ ?_, h.stack⟩
  have := hplain frame hframe
  cases frame <;> trivial

theorem completeLookup (h : m.Drafted p) (lookup : Lookup ω) :
    (m.completeLookup p lookup).Drafted p := by
  obtain ⟨world, answer, hleads⟩ := m.leads_completeLookup p lookup
  have hnoted := Loader.Drafted.shifts (m.loader.shifts_noteFound world lookup.key answer) h.loader
  have hmade := hnoted.strokes (Loader.strokes_unitOfAnswer p _ lookup.locator lookup.origin answer)
  obtain ⟨l, e, heq, hleads⟩ | ⟨l, id, heq, hleads⟩ := hleads
  all_goals
    rw [heq] at hmade
    exact leads hleads ⟨hmade, h.stack⟩

theorem drive (h : m.Drafted p) (next : Awaited Unit → Code ω) : (m.drive p next).Drafted p := by
  obtain hshifts | ⟨n, lookup, hshifts, heq⟩ := m.leads_drive p next
  · exact h.leads (.shifts hshifts)
  · rw [heq]
    exact (h.leads (.shifts hshifts)).completeLookup lookup

theorem leaveCompilation (h : m.Drafted p) (pass : SecondPass ω χ) (body : Body ω χ)
    (hbody : ∀ url, body.Drafted p url) : (m.leaveCompilation pass body).Drafted p :=
  ⟨h.loader.setBody pass.unit body hbody, h.stack⟩

theorem continueCompilation (h : m.Drafted p) {pass : SecondPass ω χ}
    (hpass : Draft p pass.compiler pass.url pass.file) (executer : Operation) :
    (m.continueCompilation p pass executer).Drafted p := by
  rw [Machine.continueCompilation]
  cases pass.rest with
  | cons reference rest =>
    exact (h.push (.compiling { pass with rest } executer) hpass).leads (leads_callReference ..)
  | nil =>
    have hcompiled := h.loader.compileUnit pass
    dsimp only
    split
    case h_1 heq =>
      rw [heq] at hcompiled
      have hleft := (h.of_loader hcompiled).leaveCompilation pass .failed fun _ ↦ trivial
      exact ⟨hleft.loader, hleft.stack⟩
    case h_2 callable heq =>
      rw [heq] at hcompiled
      have hleft := (h.of_loader hcompiled).leaveCompilation pass (.ready callable) fun _ ↦ trivial
      exact hleft.callBody _ _ _

theorem runCode (h : m.Drafted p) (code : Code ω) : (m.runCode p code).Drafted p := by
  cases code with
  | drive next => exact h.drive next
  | openUnit url next => exact ⟨h.loader.strokes (m.loader.strokes_openUnit p url), h.stack⟩
  | createFromSource url code dependencies next =>
    exact ⟨h.loader.strokes (m.loader.strokes_createFromSource p url code dependencies), h.stack⟩
  | createFromFunction url body dependencies next =>
    exact ⟨h.loader.strokes (m.loader.strokes_createFromFunction p url body dependencies), h.stack⟩
  | createFromResource resource next =>
    exact ⟨h.loader.strokes (m.loader.strokes_unitOfResource p resource), h.stack⟩
  | reset | setHost => exact ⟨h.loader, h.stack⟩
  | _ => exact h.leads (m.leads_runCode p rfl)

theorem resume (h : m.Drafted p) {frame : Frame ω χ} (hframe : frame.Drafted p)
    (outcome : Outcome) : (m.resume p frame outcome).Drafted p := by
  have hplain (hplain : frame.isPlain = true) : (m.resume p frame outcome).Drafted p := by
    obtain hleads | ⟨next, -, heq⟩ := m.leads_resume p hplain outcome
    · exact h.leads hleads
    · rw [heq]
      exact h.drive next
  cases frame with
  | compiling pass executer =>
    cases outcome with
    | ok value => exact h.continueCompilation hframe executer
    | error error =>
      have hleft := h.leaveCompilation pass .failed fun _ ↦ trivial
      exact ⟨hleft.loader, hleft.stack⟩
  | calling previous => exact ⟨h.loader, h.stack⟩
  | _ => exact hplain rfl

theorem step (h : m.Drafted p) : (m.step p).Drafted p := by
  rw [Machine.step]
  split
  · exact h.runCode _
  · exact h
  case h_3 outcome frame base _ hs =>
    have hstack := h.stack
    rw [hs, List.forall_mem_cons] at hstack
    exact resume (m := { m with stack := base }) ⟨h.loader, hstack.2⟩ hstack.1 outcome

end Drafted

/-- **Whatever waits for a second pass has come from a first one** of the file at the URL of the
unit. -/
theorem Reachable.drafted (h : m.Reachable p) : m.Drafted p := by
  induction h with
  | start fresh code =>
    refine ⟨fun unit hunit ↦ ?_, fun frame hframe ↦ absurd hframe List.not_mem_nil⟩
    rw [fresh.units] at hunit
    cases hunit
  | step _ ih => exact ih.step
  | again _ _ code ih => exact ⟨ih.loader, ih.stack⟩

end Machine

end ScriptLoader
