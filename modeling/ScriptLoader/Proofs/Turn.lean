import ScriptLoader.Proofs.Quiet

/-!
# What a step can do

A step of a machine is either quiet, in that it changes the loader quietly and touches only frames
that have nothing to do with waves, or it is one of a few turns that concern the loading of files:
a load, an import or a drive is begun, a lookup completes, a reference of the wave is visited, a
callback is called, something is dropped. `Machine.step_turn` says so once and for all; what is kept
by every turn is kept by every run.

## Frames

Frames that dispatch references, call the callbacks of a wave, complete lookups or drop everything
on an error belong to the loading of files. All others are *neutral*: code and units that wait for
what they have asked for.
-/

namespace ScriptLoader

variable {ω χ : Type}

namespace Loader

/-- Whether some references are declared by a unit, whose directory an operation is bound to. -/
def Declares (l : Loader ω χ) (id : UnitId) (operation : Operation) (references : List Reference) :
    Prop :=
  ∃ s, l.standing? id = some s ∧ (∀ r ∈ references, r ∈ s.dependencies) ∧
    operation.context.text = s.directory.text

/-- Nothing has been done with a loader yet. -/
structure IsFresh (l : Loader ω χ) : Prop where
  units : l.units = []
  cache : l.cache = {}
  wave : l.wave = none
  lookups : l.lookups = []
  executing : l.executing = none
  compiling : l.compiling = none
  released : l.released = false
  journal : l.journal = []

theorem IsFresh.standing? {l : Loader ω χ} (h : l.IsFresh) (id : UnitId) :
    l.standing? id = none := by
  rw [standing?_eq_none, unit?, h.units]
  rfl

theorem isFresh_mk (world : ω) (base : Url) : IsFresh ({ world, base } : Loader ω χ) :=
  ⟨rfl, rfl, rfl, rfl, rfl, rfl, rfl, rfl⟩

/-- What a unit declares never changes. -/
def Keeps (l l' : Loader ω χ) : Prop :=
  ∀ ⦃id s⦄, l.standing? id = some s → ∃ s', l'.standing? id = some s' ∧ s'.url = s.url ∧
    s'.directory = s.directory ∧ s'.dependencies = s.dependencies

theorem Quiet.keeps {l l' : Loader ω χ} (h : l.Quiet l') : l.Keeps l' :=
  fun _ _ hs ↦ ⟨_, h.known hs, rfl, rfl, rfl⟩

theorem Keeps.trans {l l' l'' : Loader ω χ} (h : l.Keeps l') (h' : l'.Keeps l'') : l.Keeps l'' := by
  intro id s hs
  obtain ⟨s', hs', hurl, hdir, hdeps⟩ := h hs
  obtain ⟨s'', hs'', hurl', hdir', hdeps'⟩ := h' hs'
  exact ⟨s'', hs'', hurl'.trans hurl, hdir'.trans hdir, hdeps'.trans hdeps⟩

theorem Declares.mono {l l' : Loader ω χ} {id : UnitId} {operation : Operation}
    {references references' : List Reference} (h : l.Declares id operation references)
    (hkeeps : l.Keeps l') (hsub : ∀ r ∈ references', r ∈ references) :
    l'.Declares id operation references' := by
  obtain ⟨s, hs, hrefs, hcontext⟩ := h
  obtain ⟨s', hs', -, hdir, hdeps⟩ := hkeeps hs
  exact ⟨s', hs', fun r hr ↦ hdeps ▸ hrefs r (hsub r hr), hdir ▸ hcontext⟩

end Loader

namespace Frame

/-- Whether a frame has nothing to do with waves and lookups. -/
def isNeutral : Frame ω χ → Bool
  | resume _ | resumeAfter _ | calling _ | compiling .. | delivering _ | ignoring => true
  | driving _ | dispatching .. | draining .. | aborting => false

/-- A frame that works off references has them from the unit that it names. -/
def Fits (l : Loader ω χ) : Frame ω χ → Prop
  | dispatching id searcher rest => l.Declares id searcher rest
  | compiling pass executer => l.Declares pass.unit executer pass.rest
  | _ => True

theorem Fits.mono {l l' : Loader ω χ} {frame : Frame ω χ} (h : frame.Fits l)
    (hkeeps : l.Keeps l') : frame.Fits l' := by
  cases frame with
  | dispatching id searcher rest => exact Loader.Declares.mono h hkeeps fun _ hr ↦ hr
  | compiling pass executer => exact Loader.Declares.mono h hkeeps fun _ hr ↦ hr
  | _ => trivial

end Frame

namespace Machine

/-- A quiet change of the loader under which only neutral frames are pushed, which fit if the
operations and some frames that have been popped do. -/
structure Grows (popped : List (Frame ω χ)) (m m' : Machine ω χ) : Prop where
  quiet : m.loader.Quiet m'.loader
  stack : ∃ pushed, m'.stack = pushed ++ m.stack ∧ (∀ f ∈ pushed, f.isNeutral = true) ∧
    (m.loader.OperationsBound → (∀ f ∈ popped, f.Fits m.loader) → ∀ f ∈ pushed, f.Fits m'.loader)

namespace Grows

variable {popped : List (Frame ω χ)} {m m' : Machine ω χ}

theorem of_quiet (h : m.loader.Quiet m'.loader) (hstack : m'.stack = m.stack) : m.Grows popped m' :=
  ⟨h, [], hstack, by simp, by simp⟩

theorem of_push {frame : Frame ω χ} (h : m.loader.Quiet m'.loader)
    (hstack : m'.stack = frame :: m.stack) (hneutral : frame.isNeutral = true)
    (hfits : m.loader.OperationsBound → (∀ f ∈ popped, f.Fits m.loader) → frame.Fits m'.loader) :
    m.Grows popped m' :=
  ⟨h, [frame], hstack, by simpa using hneutral, fun hb hf ↦ by simpa using hfits hb hf⟩

/-- What grows from a machine with a neutral frame on top grows from the machine without it. -/
theorem of_pushed {frame : Frame ω χ} (h : (m.push frame).Grows popped m')
    (hneutral : frame.isNeutral = true)
    (hfits : (∀ f ∈ popped, f.Fits m.loader) → frame.Fits m.loader) : m.Grows popped m' := by
  obtain ⟨hquiet, pushed, hstack, hneutrals, hfits'⟩ := h
  refine ⟨hquiet, pushed ++ [frame], by rw [hstack]; simp [push], ?_, fun hb hf g hg ↦ ?_⟩
  · rintro f hf
    rcases List.mem_append.mp hf with hf | hf
    · exact hneutrals f hf
    · rw [List.mem_singleton.mp hf]; exact hneutral
  · rcases List.mem_append.mp hg with hg | hg
    · exact hfits' hb hf g hg
    · rw [List.mem_singleton.mp hg]; exact (hfits hf).mono hquiet.keeps

/-- What grows after a quiet change of the loader grows. -/
theorem of_updated {f : Loader ω χ → Loader ω χ} (h : (m.update f).Grows popped m')
    (hquiet : m.loader.Quiet (f m.loader)) : m.Grows popped m' := by
  obtain ⟨hquiet', pushed, hstack, hneutrals, hfits⟩ := h
  exact ⟨hquiet.trans hquiet', pushed, hstack, hneutrals,
    fun hb hf ↦ hfits (hquiet.bound hb) fun f hm ↦ (hf f hm).mono hquiet.keeps⟩

end Grows

/-! ## Executing -/

variable {m : Machine ω χ}

theorem grows_callBody (popped : List (Frame ω χ)) (m : Machine ω χ) (id : UnitId) (directory : Url)
    (callable : Callable ω) : m.Grows popped (m.callBody id directory callable) := by
  have hquiet : m.loader.Quiet
      { (m.loader.argumentsFor directory).1 with executing := some id } :=
    (m.loader.quiet_argumentsFor directory).trans (.of_same rfl rfl rfl rfl rfl)
  exact .of_push (hquiet.trans (Loader.quiet_record _ (e := .called id) rfl)) rfl rfl
    fun _ _ ↦ trivial

theorem grows_beginCompilation (popped : List (Frame ω χ)) (m : Machine ω χ) {id : UnitId}
    {unit : LoadedUnit ω χ} (hunit : m.loader.unit? id = some unit) (compiler : Compiler ω χ)
    (file : χ) : m.Grows popped (m.beginCompilation id unit.info compiler file) := by
  have hbegun : m.loader.Quiet
      { m.loader.setBody id .compiling with
        compiling := some id
        world := (compiler.enterImport m.loader.world file unit.info.url.displayName).1 } :=
    (m.loader.quiet_setBody id .compiling).trans (.of_same rfl rfl rfl rfl rfl)
  have hquiet := hbegun.trans (Loader.quiet_operation _ .executer unit.info.directory)
  refine .of_push hquiet rfl rfl fun hbound _ ↦ ?_
  exact ⟨unit.standing, hquiet.known (Loader.standing?_of_unit? hunit), fun _ hr ↦ hr,
    Loader.operation_context (hbegun.bound hbound) _ _⟩

theorem grows_execute (popped : List (Frame ω χ)) (m : Machine ω χ) (id : UnitId) :
    m.Grows popped (m.execute id) := by
  rw [execute]
  split
  · exact .of_quiet (.refl _) rfl
  · split
    · exact m.grows_callBody popped _ _ _
    · exact m.grows_beginCompilation popped ‹_› _ _
    · exact .of_quiet (.refl _) rfl
    · exact .of_quiet (.refl _) rfl

theorem grows_callReference (popped : List (Frame ω χ)) (m : Machine ω χ) (executer : Operation)
    (reference : Reference) : m.Grows popped (m.callReference executer reference) := by
  rw [callReference]
  split
  · split
    · exact m.grows_execute popped _
    · exact .of_quiet (.refl _) rfl
  · exact .of_quiet (.refl _) rfl

theorem quiet_leaveCompilation (l : Loader ω χ) (pass : SecondPass ω χ) (body : Body ω χ) :
    l.Quiet { l.setBody pass.unit body with compiling := pass.previous } :=
  (l.quiet_setBody _ _).trans (.of_same rfl rfl rfl rfl rfl)

variable (p : Platform ω χ)

theorem grows_continueCompilation (m : Machine ω χ) (pass : SecondPass ω χ) (executer : Operation) :
    m.Grows [.compiling pass executer] (m.continueCompilation p pass executer) := by
  rw [continueCompilation]
  cases hrest : pass.rest with
  | cons reference rest =>
    refine .of_pushed (grows_callReference _ _ _ _) rfl fun hfits ↦ ?_
    have hpass := hfits _ (List.mem_singleton_self _)
    refine Loader.Declares.mono hpass (Loader.Quiet.refl _).keeps fun r hr ↦ ?_
    rw [hrest]
    exact List.mem_cons_of_mem _ hr
  | nil =>
    have hquiet := m.loader.quiet_compileUnit p pass
    rcases h : m.loader.compileUnit p pass with ⟨l, e | callable⟩
    all_goals rw [h] at hquiet
    · exact .of_quiet (hquiet.trans (quiet_leaveCompilation l pass .failed)) rfl
    · refine .of_updated (f := fun _ ↦ { l.setBody pass.unit (.ready callable) with
        compiling := pass.previous }) ?_ (hquiet.trans (quiet_leaveCompilation l pass _))
      exact grows_callBody _ _ _ _ _

/-! ## Turns -/

/-- What a step can come to. -/
inductive Turn (m : Machine ω χ) : Machine ω χ → Prop
  /-- Nothing is left to do. -/
  | halted {outcome} (control : m.control = .returning outcome) (stack : m.stack = []) : Turn m m
  /-- Code asks for something that does not concern the loading of files. -/
  | code {code m'} (control : m.control = .running code) (grows : m.Grows [] m') : Turn m m'
  /-- A neutral frame gets what it has waited for. -/
  | frame {outcome frame base m'} (control : m.control = .returning outcome)
      (stack : m.stack = frame :: base) (neutral : frame.isNeutral = true)
      (grows : { m with stack := base }.Grows [frame] m') : Turn m m'
  /-- Code asks for the dependencies of a unit. -/
  | load {id callback next} (control : m.control = .running (.loadDependencies id callback next)) :
      Turn m ((m.push (.resumeAfter next)).loadDependencies p id (callback.map .code))
  /-- Code imports a file. -/
  | importing {importer reference deliver next}
      (control : m.control = .running (.importFile importer reference deliver next)) :
      Turn m ((m.push (.resumeAfter next)).importFile p importer reference deliver)
  /-- Code begins to complete lookups. -/
  | drive {next} (control : m.control = .running (.drive next)) : Turn m (m.drive p next)
  /-- Code forgets what is remembered between loads. -/
  | reset {next} (control : m.control = .running (.reset next)) :
      Turn m ({ m with loader := { m.loader.record .reset with cache := {} } }.start next)
  /-- Code gives the loader up. -/
  | release {next} (control : m.control = .running (.release next)) :
      Turn m ({ m with loader := m.loader.release p }.start next)
  /-- A lookup has been completed, and the next is. -/
  | driveOn {value next base} (control : m.control = .returning (.ok value))
      (stack : m.stack = .driving next :: base) : Turn m ({ m with stack := base }.drive p next)
  /-- Completing a lookup has failed. -/
  | driveError {error next base} (control : m.control = .returning (.error error))
      (stack : m.stack = .driving next :: base) :
      Turn m (({ m with stack := base }.update (·.abort p error)).start
        (next (.settled (.error error))))
  /-- A unit that has joined the wave goes on with its references. -/
  | dispatch {value id searcher rest base} (control : m.control = .returning (.ok value))
      (stack : m.stack = .dispatching id searcher rest :: base) :
      Turn m ({ m with stack := base }.continueDispatching p id searcher rest)
  /-- A search for a unit that has joined the wave has failed. -/
  | dispatchError {error id searcher rest base} (control : m.control = .returning (.error error))
      (stack : m.stack = .dispatching id searcher rest :: base) :
      Turn m ({ m with stack := base }.throw error)
  /-- The closing of a wave goes on. -/
  | drain {value id callbacks rest base} (control : m.control = .returning (.ok value))
      (stack : m.stack = .draining id callbacks rest :: base) :
      Turn m ({ m with stack := base }.continueDraining id callbacks rest)
  /-- A callback of a closed wave has failed. -/
  | drainError {error id callbacks rest base} (control : m.control = .returning (.error error))
      (stack : m.stack = .draining id callbacks rest :: base) :
      Turn m (({ m with stack := base }.update
        (·.endImports p (callbacks.countP Callback.isImport))).throw error)
  /-- A request for dependencies has been worked off. -/
  | arrive {value base} (control : m.control = .returning (.ok value))
      (stack : m.stack = .aborting :: base) : Turn m { m with stack := base }.done
  /-- A request for dependencies has failed. -/
  | abort {error base} (control : m.control = .returning (.error error))
      (stack : m.stack = .aborting :: base) :
      Turn m (({ m with stack := base }.update (·.abort p error)).throw error)

theorem runCode_turn {code : Code ω} (h : m.control = .running code) :
    m.Turn p (m.runCode p code) := by
  -- most code changes the loader quietly and goes on at once
  have hcode {m' : Machine ω χ} (hq : m.loader.Quiet m'.loader) (hs : m'.stack = m.stack) :
      m.Turn p m' := .code h (.of_quiet hq hs)
  cases code with
  | finish outcome => exact hcode (.refl _) rfl
  | observe next => exact hcode (.refl _) rfl
  | touch change next => exact hcode (m.loader.quiet_world _) rfl
  | bindGlobal name value next => exact hcode (.of_same rfl rfl rfl rfl rfl) rfl
  | loadDependencies unit callback next => exact .load h
  | drive next => exact .drive h
  | execute unit next =>
    exact .code h (.of_pushed (grows_execute _ _ _) rfl fun _ ↦ trivial)
  | call executer reference next =>
    rw [runCode]
    split
    · exact hcode (.refl _) rfl
    · exact .code h (.of_pushed (grows_callReference _ _ _ _) rfl fun _ ↦ trivial)
  | importFile importer reference callback next =>
    rw [runCode]
    split
    · exact hcode (.refl _) rfl
    · exact .importing h
  | openUnit url next => exact hcode (m.loader.quiet_openUnit p url) rfl
  | createFromSource url code dependencies next =>
    exact hcode (m.loader.quiet_createFromSource p url code dependencies) rfl
  | createFromFunction url body dependencies next =>
    exact hcode (m.loader.quiet_createFromFunction url body dependencies) rfl
  | createFromResource resource next => exact hcode (m.loader.quiet_unitOfResource p resource) rfl
  | operation kind context next => exact hcode (m.loader.quiet_operation kind context) rfl
  | reset next => exact .reset h
  | setHost host next => exact hcode (.of_same rfl rfl rfl rfl rfl) rfl
  | setSubstitutions substitutions next => exact hcode (.of_same rfl rfl rfl rfl rfl) rfl
  | release next => exact .release h

/-- **What a step can do.** -/
theorem step_turn (m : Machine ω χ) : m.Turn p (m.step p) := by
  rw [step]
  split
  case h_1 hcontrol => exact runCode_turn p hcontrol
  case h_2 hcontrol hstack => exact .halted hcontrol hstack
  case h_3 outcome frame base hcontrol hstack =>
    have hframe {m' : Machine ω χ} (hn : frame.isNeutral = true)
        (hq : m.loader.Quiet m'.loader) (hs : m'.stack = base) : m.Turn p m' :=
      .frame hcontrol hstack hn (.of_quiet hq hs)
    cases frame with
    | resume next => exact hframe rfl (.refl _) rfl
    | resumeAfter next => exact hframe rfl (.refl _) rfl
    | calling previous => exact hframe rfl (.of_same rfl rfl rfl rfl rfl) rfl
    | ignoring => exact hframe rfl (.refl _) rfl
    | delivering deliver =>
      cases deliver with
      | none => exact hframe rfl (Loader.quiet_endImports p _ _) rfl
      | some deliver =>
        exact .frame hcontrol hstack rfl (.of_push (Loader.quiet_endImports p _ _) rfl rfl
          fun _ _ ↦ trivial)
    | compiling pass executer =>
      cases outcome with
      | ok value => exact .frame hcontrol hstack rfl (grows_continueCompilation p _ _ _)
      | error e => exact hframe rfl (quiet_leaveCompilation _ _ _) rfl
    | driving next =>
      cases outcome with
      | ok value => exact .driveOn hcontrol hstack
      | error e => exact .driveError hcontrol hstack
    | dispatching id searcher rest =>
      cases outcome with
      | ok value => exact .dispatch hcontrol hstack
      | error e => exact .dispatchError hcontrol hstack
    | draining id callbacks rest =>
      cases outcome with
      | ok value => exact .drain hcontrol hstack
      | error e => exact .drainError hcontrol hstack
    | aborting =>
      cases outcome with
      | ok value => exact .arrive hcontrol hstack
      | error e => exact .abort hcontrol hstack

/-! ## Runs -/

/-- The machines that come about from a fresh loader, whatever code is run. More code may be run
whenever all code has ended. -/
inductive Reachable : Machine ω χ → Prop
  | start {l : Loader ω χ} (fresh : l.IsFresh) (code : Code ω) :
      Reachable { loader := l, control := .running code }
  | step {m : Machine ω χ} (reachable : Reachable m) : Reachable (m.step p)
  | again {m : Machine ω χ} (reachable : Reachable m) (halted : m.isHalted = true) (code : Code ω) :
      Reachable { m with control := .running code }

theorem exists_of_isHalted {m : Machine ω χ} (h : m.isHalted = true) :
    ∃ outcome, m.control = .returning outcome ∧ m.stack = [] := by
  rw [isHalted] at h
  split at h
  case h_1 outcome hcontrol hstack => exact ⟨outcome, hcontrol, hstack⟩
  case h_2 => cases h

theorem step_of_isHalted {p : Platform ω χ} {m : Machine ω χ} (h : m.isHalted = true) :
    m.step p = m := by
  obtain ⟨outcome, hcontrol, hstack⟩ := exists_of_isHalted h
  rw [step, hcontrol, hstack]

end Machine

end ScriptLoader
