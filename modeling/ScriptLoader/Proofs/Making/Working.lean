import ScriptLoader.Proofs.Making.Stock

/-!
# Steps and the stock

Each step of a machine changes the stock in one of the ways of `Stock.Next`, or not at all. A step
makes at most one unit, and it does so before anything else happens but the hearing of an answer;
what follows leaves the stock alone. `Machine.Reachable.next_stock` says so of every machine that
can be reached.

A second pass gives its code to the unit that it belongs to under the URL of that unit. That the two
agree is an invariant of the stack, which is kept along the way.
-/

namespace ScriptLoader

variable {ω χ : Type}

/-- The units whose second pass is under way, with the URLs that the functions get. -/
def Stack.passes (stack : List (Frame ω χ)) : List (UnitId × Url) :=
  stack.filterMap fun
    | .compiling pass _ => some (pass.unit, pass.url)
    | _ => none

namespace Stock

variable {p : Platform ω χ} {host : HostBindings} {s s' : Stock} {id : UnitId} {script : Script}

/-- What may become of a unit: nothing, or it is given code and can be called. -/
def Script.Keeps (old new : Script) : Prop :=
  new = old ∨ old.isReady = false ∧ new.isReady = true ∧ new.code.isSome = true ∧ new.url = old.url

/-- Units stay, and are at most given code. -/
theorem Next.keeps (h : s.Next p host s') (hscript : s.scripts[id]? = some script) :
    ∃ script', s'.scripts[id]? = some script' ∧ Script.Keeps script script' := by
  have hsame {scripts : List Script} (hscripts : scripts[id]? = some script) :
      ∃ script', scripts[id]? = some script' ∧ Script.Keeps script script' :=
    ⟨script, hscripts, .inl rfl⟩
  have hlt := (List.getElem?_eq_some_iff.mp hscript).1
  cases h with
  | same | forget | refuse | fail => exact hsame hscript
  | revisit => exact hsame (by rwa [scripts_learn])
  | file => exact hsame (by simpa [List.getElem?_append_left hlt] using hscript)
  | make => exact hsame (by simpa [List.getElem?_append_left hlt] using hscript)
  | @compile other old given functions known unready built code url =>
    by_cases hid : other = id
    · subst hid
      rw [hscript, Option.some.injEq] at known
      subst known
      refine ⟨given, by simp [hlt], .inr ⟨unready, ?_, code, url⟩⟩
      cases built <;> first | rfl | cases code
    · exact hsame (by simpa [List.getElem?_set_ne hid] using hscript)

theorem Next.names (h : s.Next p host s') {url : Url} (hnames : s.Names id url) :
    s'.Names id url := by
  obtain ⟨script, hscript, rfl⟩ := hnames
  obtain ⟨script', hscript', rfl | ⟨-, -, -, hurl⟩⟩ := h.keeps hscript
  · exact ⟨_, hscript', rfl⟩
  · exact ⟨_, hscript', hurl⟩

end Stock

namespace Machine

open Loader

variable {m n m' : Machine ω χ}

/-- A change that leaves the stock alone. A second pass that gets under way has the URL of its
unit. -/
structure Idles (m m' : Machine ω χ) : Prop where
  stock : m'.loader.stock = m.loader.stock
  named : ∀ pass ∈ Stack.passes m'.stack, pass ∈ Stack.passes m.stack ∨
    m'.loader.stock.Names pass.1 pass.2

/-- A change in which the stock changes once. -/
structure Crafts (p : Platform ω χ) (m m' : Machine ω χ) : Prop where
  next : m.loader.stock.Next p m.loader.host m'.loader.stock
  named : ∀ pass ∈ Stack.passes m'.stack, pass ∈ Stack.passes m.stack ∨
    m'.loader.stock.Names pass.1 pass.2

theorem Idles.of_same (h : m'.loader.stock = m.loader.stock)
    (hpasses : Stack.passes m'.stack = Stack.passes m.stack) : m.Idles m' :=
  ⟨h, fun _ hpass ↦ .inl (hpasses ▸ hpass)⟩

theorem Idles.refl (m : Machine ω χ) : m.Idles m := .of_same rfl rfl

theorem Idles.trans (h : m.Idles n) (h' : n.Idles m') : m.Idles m' where
  stock := h'.stock.trans h.stock
  named pass hpass := by
    rcases h'.named pass hpass with hbefore | hnames
    · rw [h'.stock]
      exact h.named pass hbefore
    · exact .inr hnames

namespace Crafts

variable {p : Platform ω χ}

theorem of_idles (h : m.Idles m') : m.Crafts p m' := ⟨h.stock ▸ .same, h.named⟩

theorem of_next (h : m.loader.stock.Next p m.loader.host m'.loader.stock)
    (hpasses : Stack.passes m'.stack = Stack.passes m.stack) : m.Crafts p m' :=
  ⟨h, fun _ hpass ↦ .inl (hpasses ▸ hpass)⟩

theorem after (h : m.Idles n) (hhost : n.loader.host = m.loader.host) (h' : n.Crafts p m') :
    m.Crafts p m' where
  next := by
    have hnext := h'.next
    rwa [h.stock, hhost] at hnext
  named pass hpass := by
    rcases h'.named pass hpass with hbefore | hnames
    · refine (h.named pass hbefore).imp_right fun hnames ↦ ?_
      exact h'.next.names hnames
    · exact .inr hnames

theorem before (h : m.Crafts p n) (h' : n.Idles m') : m.Crafts p m' where
  next := h'.stock ▸ h.next
  named pass hpass := by
    rcases h'.named pass hpass with hbefore | hnames
    · rw [h'.stock]
      exact h.named pass hbefore
    · exact .inr hnames

end Crafts

/-! ## Executing -/

variable (m) (p : Platform ω χ)

theorem idles_callBody (id : UnitId) (directory : Url) (callable : Callable ω) :
    m.Idles (m.callBody id directory callable) := by
  have hcalled : ({ (m.loader.argumentsFor directory).1 with executing := some id }.record
      (.called id)).stock = m.loader.stock :=
    (stock_record _ rfl).trans (m.loader.shifts_argumentsFor directory).stock
  exact .of_same hcalled rfl

theorem idles_beginCompilation {id : UnitId} {unit : LoadedUnit ω χ} {compiler : Compiler ω χ}
    {file : χ} (hunit : m.loader.unit? id = some unit)
    (hbody : unit.body = .pending compiler file) :
    m.Idles (m.beginCompilation id unit.info compiler file) := by
  have hbegun : (m.loader.setBody id .compiling).stock = m.loader.stock :=
    m.loader.stock_setBody .compiling (body?_of_unit? hunit) (by simp [hbody, Body.stage])
      (by simp [Body.stage])
  have hstock : (m.beginCompilation id unit.info compiler file).loader.stock = m.loader.stock :=
    (stock_operation _ .executer unit.info.directory).trans hbegun
  refine ⟨hstock, fun pass hpass ↦ ?_⟩
  rcases List.mem_cons.mp hpass with rfl | hpass
  · refine .inr ?_
    rw [hstock]
    exact ⟨unit.script, script_of_unit? hunit, rfl⟩
  · exact .inl hpass

theorem idles_execute (id : UnitId) : m.Idles (m.execute id) := by
  rw [execute]
  split
  · exact .of_same rfl rfl
  case h_2 unit hunit =>
    split
    case h_1 => exact m.idles_callBody id _ _
    case h_2 hbody => exact m.idles_beginCompilation hunit hbody
    case h_3 | h_4 => exact .of_same rfl rfl

theorem Idles.of_shifts {m m' : Machine ω χ} (h : m.Shifts m') : m.Idles m' :=
  .of_same h.loader.stock (h.filterMap fun frame hplain ↦ by
    cases frame <;> first | rfl | cases hplain)

theorem Idles.of_leads {m m' : Machine ω χ} (h : m.Leads m') : m.Idles m' :=
  h.induct trans of_shifts idles_execute

/-! ## Files -/

/-- The answer to a lookup leads to a unit, which may then be remembered for a reference, or it
leads to none. -/
theorem next_unitOfAnswer (l : Loader ω χ) (locator : String) (origin : Option Url)
    (answer : Except LoaderError (Option Resource)) :
    ((∃ error, (l.unitOfAnswer p locator origin answer).2 = .error error) ∧
      l.stock.Next p l.host (l.unitOfAnswer p locator origin answer).1.stock) ∨
    ∃ id, (l.unitOfAnswer p locator origin answer).2 = .ok id ∧ ∀ key,
      l.stock.Next p l.host ((l.unitOfAnswer p locator origin answer).1.stock.learn id key) := by
  rcases answer with error | _ | resource
  · exact .inl ⟨⟨error, rfl⟩, .same⟩
  · exact .inl ⟨⟨_, rfl⟩, .same⟩
  · exact next_unitOfResource p l resource

theorem next_of_unitOfAnswer (l : Loader ω χ) (locator : String) (origin : Option Url)
    (answer : Except LoaderError (Option Resource)) :
    l.stock.Next p l.host (l.unitOfAnswer p locator origin answer).1.stock := by
  obtain ⟨-, hnext⟩ | ⟨id, -, hnext⟩ := next_unitOfAnswer p l locator origin answer
  · exact hnext
  · exact hnext none

/-- **A lookup is completed.** A file that was found leads to a unit, which is remembered for the
reference, or to none. -/
theorem crafts_completeLookup (lookup : Lookup ω) : m.Crafts p (m.completeLookup p lookup) := by
  obtain ⟨world, answer, hleads⟩ := m.leads_completeLookup p lookup
  have hnoted := m.loader.shifts_noteFound world lookup.key answer
  generalize { m.loader with world }.noteFound lookup.key answer = noted at hnoted hleads
  refine .after (n := { m with loader := noted }) (.of_shifts (.of_loader hnoted rfl))
    hnoted.inForce.1 ?_
  have hmade := next_unitOfAnswer p noted lookup.locator lookup.origin answer
  obtain ⟨l, e, heq, hleads⟩ | ⟨l, id, heq, hleads⟩ := hleads
  all_goals rw [heq] at hmade
  · obtain ⟨-, hnext⟩ | ⟨id, hid, -⟩ := hmade
    · exact .before (n := { m with loader := l }) (.of_next hnext rfl) (.of_leads hleads)
    · cases hid
  · obtain ⟨⟨e, he⟩, -⟩ | ⟨id', hid, hnext⟩ := hmade
    · cases he
    · cases hid
      exact .before
        (n := { m with loader := { l with cache := l.cache.insertResult lookup.key id } })
        (.of_next (hnext (some lookup.key)) rfl) (.of_leads hleads)

theorem crafts_drive (next : Awaited Unit → Code ω) : m.Crafts p (m.drive p next) := by
  obtain hshifts | ⟨n, lookup, hshifts, heq⟩ := m.leads_drive p next
  · exact .of_idles (.of_shifts hshifts)
  · rw [heq]
    exact .after (.of_shifts hshifts) hshifts.loader.inForce.1 (crafts_completeLookup n p lookup)

theorem next_openUnit (l : Loader ω χ) (url : Url) :
    l.stock.Next p l.host (l.openUnit p url).1.stock := by
  rw [openUnit]
  split
  · exact .same
  · obtain ⟨world, ticket⟩ := p.resolver.resolve l.world url l.substitutions
    rcases hnext : p.resolver.next? world [ticket] with ⟨world', _ | _⟩
    all_goals simp only [hnext]
    · exact .same
    · exact next_of_unitOfAnswer p { l with world := (p.resolver.answer world' ticket).1 } _ _ _

/-! ## Steps -/

theorem crafts_runCode (code : Code ω) : m.Crafts p (m.runCode p code) := by
  cases code with
  | drive next => exact m.crafts_drive p next
  | openUnit url next => exact .of_next (next_openUnit p m.loader url) rfl
  | createFromSource url code dependencies next =>
    exact .of_next (next_createFromSource p m.loader url code dependencies) rfl
  | createFromFunction url body dependencies next =>
    exact .of_next (next_createFromFunction p m.loader url body dependencies) rfl
  | createFromResource resource next =>
    exact .of_next (next_of_unitOfAnswer p m.loader "" none (.ok (some resource))) rfl
  | reset next =>
    have hforgotten : ({ m.loader.record .reset with cache := {} } : Loader ω χ).stock
        = { m.loader.stock with units := {}, results := {} }.note [.reset] := by
      have hrecorded := m.loader.stock_record_making (e := .reset) rfl
      exact congrArg (fun s : Stock ↦ { s with units := {}, results := {} }) hrecorded
    exact .of_next (hforgotten ▸ .forget) rfl
  | setHost => exact .of_idles (.of_same rfl rfl)
  | _ => exact .of_idles (.of_leads (m.leads_runCode p rfl))

/-- A second pass goes on. After its last dependency it is run. -/
theorem crafts_continueCompilation {pass : SecondPass ω χ} {executer : Operation}
    (hbody : m.loader.body? pass.unit = some .compiling)
    (hnamed : m.loader.stock.Names pass.unit pass.url) :
    m.Crafts p (m.continueCompilation p pass executer) := by
  rw [continueCompilation]
  cases pass.rest with
  | cons reference rest =>
    refine .of_idles (.trans ?_ (.of_leads (leads_callReference _ executer reference)))
    refine ⟨rfl, fun other hother ↦ ?_⟩
    rcases List.mem_cons.mp hother with rfl | hother
    · exact .inr hnamed
    · exact .inl hother
  | nil =>
    have hnext := next_compileUnit p m.loader hbody hnamed
    dsimp only
    rcases h : m.loader.compileUnit p pass with ⟨l, error | callable⟩
    all_goals
      rw [h] at hnext
      dsimp only at hnext ⊢
    · exact .of_next hnext rfl
    · refine .before (n := leaveCompilation { m with loader := l } pass (.ready callable))
        (.of_next hnext rfl) ?_
      exact idles_callBody _ pass.unit pass.directory callable

/-- A second pass that is under way belongs to a unit that is compiling, and has its URL. -/
def Named (m : Machine ω χ) : Prop :=
  ∀ pass ∈ Stack.passes m.stack, m.loader.stock.Names pass.1 pass.2

/-- **A step changes the stock once**, if at all. -/
theorem step_crafts (hnests : m.loader.Nests m.underway) (hnamed : m.Named) :
    m.Crafts p (m.step p) := by
  rw [step]
  split
  case h_1 code _ => exact m.crafts_runCode p code
  case h_2 => exact .of_idles (.refl m)
  case h_3 outcome frame base hcontrol hs =>
    -- a frame is taken off before all else
    have hpopped {m' : Machine ω χ} (h : Crafts p { m with stack := base } m') : m.Crafts p m' := by
      refine .after (n := { m with stack := base }) ⟨rfl, fun pass hpass ↦ .inl ?_⟩ rfl h
      rw [hs]
      exact ((List.sublist_cons_self frame base).filterMap _).subset hpass
    have hplain (hplain : frame.isPlain = true) :
        m.Crafts p (resume p { m with stack := base } frame outcome) := by
      obtain hleads | ⟨next, -, heq⟩ := leads_resume { m with stack := base } p hplain outcome
      · exact hpopped (.of_idles (.of_leads hleads))
      · rw [heq]
        exact hpopped (crafts_drive _ p next)
    cases frame with
    | compiling pass executer =>
      have hunderway : m.underway = pass.unit :: Stack.underway base := by
        rw [underway, hs]
        rfl
      have hbody : m.loader.body? pass.unit = some .compiling :=
        hnests.compiling.mpr (hunderway ▸ List.mem_cons_self)
      have hurl : m.loader.stock.Names pass.unit pass.url :=
        hnamed (pass.unit, pass.url) (hs ▸ List.mem_cons_self)
      cases outcome with
      | ok value => exact hpopped (crafts_continueCompilation _ p hbody hurl)
      | error error =>
        have hfailed := m.loader.stock_setBody .failed hbody (by simp [Body.stage])
          (by simp [Body.stage])
        exact hpopped (.of_idles (.of_same hfailed rfl))
    | calling previous => exact hpopped (.of_idles (.of_same rfl rfl))
    | _ => exact hplain rfl

variable {m p}

theorem Crafts.keeps_named (h : m.Crafts p m') (hnamed : m.Named) : m'.Named := by
  intro pass hpass
  exact (h.named pass hpass).elim (fun hbefore ↦ h.next.names (hnamed pass hbefore)) id

theorem Reachable.named (h : m.Reachable p) : m.Named := by
  induction h with
  | start fresh code => exact fun pass hpass ↦ by cases hpass
  | @step m hreachable ih => exact (step_crafts m p hreachable.nests ih).keeps_named ih
  | again _ _ _ ih => exact ih

/-- **A step changes the stock in one of the ways in which stocks change.** -/
theorem Reachable.next_stock (h : m.Reachable p) :
    m.loader.stock.Next p m.loader.host (m.step p).loader.stock :=
  (step_crafts m p h.nests h.named).next

end Machine

end ScriptLoader
