import ScriptLoader.Proofs.Standing

/-!
# Quiet changes of a loader

Most of what a loader does concerns neither the wave nor the lookups: the world changes, units and
operations are made, functions are built, bodies are called. Such a change is *quiet*. It leaves the
wave, the lookups, the results and the markers alone, keeps the standing of every unit, and adds
nothing to the journal that tells of waves.

Whatever holds of the loading of files is therefore kept by all of this at once, and the functions
that make, compile and execute units are opened only here.
-/

namespace ScriptLoader

variable {ω χ : Type}

/-- Whether an event tells nothing about the loading of files. -/
def Event.isQuiet : Event → Bool
  | read _ | obtained .. | refused _ | synthesized _ | compiled _ | called _ => true
  | _ => false

namespace Loader

/-- Every operation is kept under the directory that it is bound to. -/
def OperationsBound (l : Loader ω χ) : Prop :=
  ∀ {kind text operation}, l.cache.operations.get? (kind, text) = some operation →
    operation.context.text = text

/-- A change that does not concern the loading of files. -/
structure Quiet (l l' : Loader ω χ) : Prop where
  wave : l'.wave = l.wave
  lookups : l'.lookups = l.lookups
  results : l'.cache.results = l.cache.results
  markers : l'.cache.markers = l.cache.markers
  /-- Units keep their standing. -/
  known : ∀ {id s}, l.standing? id = some s → l'.standing? id = some s
  /-- Any other unit is new. -/
  fresh : ∀ {id s}, l'.standing? id = some s →
    l.standing? id = some s ∨ l.standing? id = none ∧ s.IsNew
  /-- URLs keep their units. -/
  filed : ∀ {url id}, l.cache.unit? url = some id → l'.cache.unit? url = some id
  /-- Any other URL has a new unit. -/
  newlyFiled : ∀ {url id}, l'.cache.unit? url = some id →
    l.cache.unit? url = some id ∨
      l.standing? id = none ∧ ∃ s, l'.standing? id = some s ∧ s.url = url
  bound : l.OperationsBound → l'.OperationsBound
  journal : ∃ events, l'.journal = events ++ l.journal ∧ ∀ e ∈ events, e.isQuiet = true

namespace Quiet

variable {l l' l'' : Loader ω χ}

theorem of_same (hwave : l'.wave = l.wave) (hlookups : l'.lookups = l.lookups)
    (hunits : l'.units = l.units) (hcache : l'.cache = l.cache)
    (hjournal : l'.journal = l.journal) :
    l.Quiet l' := by
  have hstanding := standing?_congr hunits
  exact
    { wave := hwave
      lookups := hlookups
      results := by rw [hcache]
      markers := by rw [hcache]
      known := fun h ↦ (hstanding _).trans h
      fresh := fun h ↦ .inl ((hstanding _).symm.trans h)
      filed := fun h ↦ hcache ▸ h
      newlyFiled := fun h ↦ .inl (hcache ▸ h)
      bound := fun h ↦ by rw [OperationsBound, hcache]; exact h
      journal := ⟨[], hjournal, by simp⟩ }

theorem refl (l : Loader ω χ) : l.Quiet l := of_same rfl rfl rfl rfl rfl

theorem standing?_eq_none (h : l.Quiet l') {id : UnitId} (hid : l'.standing? id = none) :
    l.standing? id = none := by
  by_contra hsome
  obtain ⟨s, hs⟩ := Option.ne_none_iff_exists'.mp hsome
  rw [h.known hs] at hid
  cases hid

theorem trans (h : l.Quiet l') (h' : l'.Quiet l'') : l.Quiet l'' where
  wave := h'.wave.trans h.wave
  lookups := h'.lookups.trans h.lookups
  results := h'.results.trans h.results
  markers := h'.markers.trans h.markers
  known hs := h'.known (h.known hs)
  fresh hs := by
    rcases h'.fresh hs with hs | ⟨hnone, hnew⟩
    · exact h.fresh hs
    · exact .inr ⟨h.standing?_eq_none hnone, hnew⟩
  filed hid := h'.filed (h.filed hid)
  newlyFiled hid := by
    rcases h'.newlyFiled hid with hid | ⟨hnone, s, hs, hurl⟩
    · rcases h.newlyFiled hid with hid | ⟨hnone, s, hs, hurl⟩
      · exact .inl hid
      · exact .inr ⟨hnone, s, h'.known hs, hurl⟩
    · exact .inr ⟨h.standing?_eq_none hnone, s, hs, hurl⟩
  bound hb := h'.bound (h.bound hb)
  journal := by
    obtain ⟨events, heq, hq⟩ := h.journal
    obtain ⟨events', heq', hq'⟩ := h'.journal
    refine ⟨events' ++ events, by rw [heq', heq, List.append_assoc], fun e he ↦ ?_⟩
    exact (List.mem_append.mp he).elim (hq' e) (hq e)

theorem result? (h : l.Quiet l') (key : String) : l'.cache.result? key = l.cache.result? key := by
  rw [ResolutionCache.result?, h.results, ResolutionCache.result?]

end Quiet

/-! ## Single changes -/

theorem quiet_world (l : Loader ω χ) (world : ω) : l.Quiet { l with world } :=
  .of_same rfl rfl rfl rfl rfl

theorem quiet_record (l : Loader ω χ) {e : Event} (h : e.isQuiet = true) :
    l.Quiet (l.record e) where
  __ := Quiet.refl l
  journal := ⟨[e], rfl, by simpa using h⟩

theorem quiet_modifyUnit (l : Loader ω χ) (id : UnitId)
    {f : LoadedUnit ω χ → LoadedUnit ω χ} (h : ∀ unit, (f unit).standing = unit.standing) :
    l.Quiet (l.modifyUnit id f) where
  __ := Quiet.refl l
  known hs := (l.standing?_modifyUnit_of_same id h _).trans hs
  fresh hs := .inl ((l.standing?_modifyUnit_of_same id h _).symm.trans hs)
  newlyFiled hid := .inl hid

theorem quiet_setBody (l : Loader ω χ) (id : UnitId) (body : Body ω χ) :
    l.Quiet (l.setBody id body) :=
  l.quiet_modifyUnit (f := fun unit ↦ { unit with body }) id fun _ ↦ rfl

theorem quiet_addUnit (l : Loader ω χ) {unit : LoadedUnit ω χ} (h : unit.standing.IsNew) :
    l.Quiet (l.addUnit unit).1 where
  __ := Quiet.refl l
  known {id s} hs := by
    rw [standing?_append rfl, if_neg, hs]
    rintro rfl
    rw [standing?_length] at hs
    cases hs
  fresh {id s} hs := by
    rw [standing?_append rfl] at hs
    split at hs
    case isTrue hid => cases hs; exact .inr ⟨hid ▸ l.standing?_length, h⟩
    case isFalse => exact .inl hs
  newlyFiled hid := .inl hid

theorem quiet_operation (l : Loader ω χ) (kind : OperationKind) (context : Url) :
    l.Quiet (l.operation kind context).1 := by
  rw [operation]
  split
  · exact .refl l
  · refine { Quiet.refl l with bound := fun hb ↦ ?_ }
    intro kind' text operation' h
    rw [Table.get?_insert] at h
    split at h
    case isTrue heq => cases h; cases heq; rfl
    case isFalse => exact hb h

theorem operation_context {l : Loader ω χ} (h : l.OperationsBound) (kind : OperationKind)
    (context : Url) : (l.operation kind context).2.context.text = context.text := by
  rw [operation]
  split
  · exact h ‹_›
  · rfl

theorem units_operation (l : Loader ω χ) (kind : OperationKind) (context : Url) :
    (l.operation kind context).1.units = l.units := by
  rw [operation]
  split <;> rfl

theorem journal_operation (l : Loader ω χ) (kind : OperationKind) (context : Url) :
    (l.operation kind context).1.journal = l.journal := by
  rw [operation]
  split <;> rfl

theorem quiet_endImports (p : Platform ω χ) (l : Loader ω χ) (count : Nat) :
    l.Quiet (l.endImports p count) :=
  l.quiet_world _

/-! ## Making units -/

variable (p : Platform ω χ)

/-- What making a unit of a URL comes to: it fails, or a new unit is added. Either way the world may
have changed, and functions may have been built. -/
inductive Makes (l : Loader ω χ) (url : Url) : Loader ω χ × Except LoaderError UnitId → Prop
  | failed (world : ω) (events : List Event) (error : LoaderError)
      (quiet : ∀ e ∈ events, e.isQuiet = true) :
      Makes l url ({ l with world, journal := events ++ l.journal }, .error error)
  | made (world : ω) (events : List Event) (unit : LoadedUnit ω χ)
      (quiet : ∀ e ∈ events, e.isQuiet = true) (new : unit.standing.IsNew)
      (named : unit.info.url = url) (directory : url.directory = .ok unit.info.directory) :
      Makes l url ({ l with world, units := l.units ++ [unit], journal := events ++ l.journal },
        .ok l.units.length)

theorem quiet_log (l : Loader ω χ) (world : ω) {events : List Event}
    (h : ∀ e ∈ events, e.isQuiet = true) :
    l.Quiet { l with world, journal := events ++ l.journal } where
  __ := l.quiet_world world
  journal := ⟨events, rfl, h⟩

theorem quiet_synthesize (l : Loader ω χ) (url : Url) (code : String) (map : Option MapSource) :
    l.Quiet (l.synthesize p url code map).1 :=
  (l.quiet_world _).trans (quiet_record _ rfl)

theorem Makes.quiet {l : Loader ω χ} {url : Url} {made : Loader ω χ × Except LoaderError UnitId}
    (h : l.Makes url made) : l.Quiet made.1 := by
  cases h with
  | failed world _ _ hquiet => exact l.quiet_log world hquiet
  | made world _ _ hquiet hnew => exact (l.quiet_log world hquiet).trans (quiet_addUnit _ hnew)

/-- Something that does not concern the loading of files may be recorded before. -/
theorem Makes.of_record {l : Loader ω χ} {e : Event} {url : Url}
    {made : Loader ω χ × Except LoaderError UnitId} (h : (l.record e).Makes url made)
    (he : e.isQuiet = true) : l.Makes url made := by
  have hjournal (events : List Event) :
      events ++ (l.record e).journal = (events ++ [e]) ++ l.journal := by
    rw [record, List.append_assoc, List.singleton_append]
  have hevents {events : List Event} (hquiet : ∀ e ∈ events, e.isQuiet = true) :
      ∀ e' ∈ events ++ [e], e'.isQuiet = true :=
    List.forall_mem_append.mpr ⟨hquiet, List.forall_mem_singleton.mpr he⟩
  cases h with
  | failed world events error quiet =>
    rw [hjournal]
    exact .failed world _ error (hevents quiet)
  | made world events unit quiet new named directory =>
    rw [hjournal]
    exact .made world _ unit (hevents quiet) new named directory

theorem makes_addUnit (l : Loader ω χ) (world : ω) (events : List Event) {url : Url}
    {dependencies : List Reference} {code map : Option String} {info : UnitInfo}
    (h : ∀ e ∈ events, e.isQuiet = true)
    (hinfo : UnitInfo.create url dependencies code map = .ok info) (body : Body ω χ) :
    l.Makes url (({ l with world, journal := events ++ l.journal }.addUnit { info, body }).1,
      .ok ({ l with world, journal := events ++ l.journal }.addUnit { info, body }).2) := by
  obtain ⟨hnew, hurl, -, hdirectory⟩ := LoadedUnit.standing_isNew hinfo body
  exact .made world events _ h hnew hurl hdirectory

theorem makes_createOfCode (l : Loader ω χ) (url : Url) (code : String)
    (dependencies : List Reference) (map : Option MapSource) :
    l.Makes url (l.createOfCode p url code dependencies map) := by
  obtain ⟨world, source, result, h⟩ : ∃ world source result, l.synthesize p url code map =
      ({ l with world, journal := [.synthesized source] ++ l.journal }, result) := ⟨_, _, _, rfl⟩
  rw [createOfCode, h]
  rcases result with e | ⟨callable, embedded⟩
  · exact .failed world _ e (by simp [Event.isQuiet])
  · rcases hinfo : UnitInfo.create url dependencies (some code) embedded with e | info
    · simp only [hinfo]
      exact .failed world _ e (by simp [Event.isQuiet])
    · simp only [hinfo]
      exact l.makes_addUnit world _ (by simp [Event.isQuiet]) hinfo _

theorem quiet_nameUnit (l : Loader ω χ) (url : Option Url) : l.Quiet (l.nameUnit url).1 := by
  cases url with
  | none => exact .of_same rfl rfl rfl rfl rfl
  | some url => exact .refl l

theorem quiet_createFromSource (l : Loader ω χ) (url : Option Url) (code : String)
    (dependencies : List Reference) :
    l.Quiet (l.createFromSource p url code dependencies).1 := by
  have hquiet := l.quiet_nameUnit url
  rw [createFromSource]
  rcases h : l.nameUnit url with ⟨l', e | named⟩
  all_goals rw [h] at hquiet
  · exact hquiet
  · exact hquiet.trans (l'.makes_createOfCode p named code dependencies none).quiet

theorem quiet_createFromFunction (l : Loader ω χ) (url : Option Url) (callable : Callable ω)
    (dependencies : List Reference) :
    l.Quiet (l.createFromFunction url callable dependencies).1 := by
  have hquiet := l.quiet_nameUnit url
  rw [createFromFunction]
  rcases h : l.nameUnit url with ⟨l', e | named⟩
  all_goals rw [h] at hquiet
  · exact hquiet
  · rcases hinfo : UnitInfo.create named dependencies none none with e | info
    · simp only [hinfo]
      exact hquiet
    · simp only [hinfo]
      exact hquiet.trans (l'.quiet_addUnit (LoadedUnit.standing_isNew hinfo _).1)

theorem makes_createOfBundle (l : Loader ω χ) (resource : Resource) :
    l.Makes resource.url (l.createOfBundle p resource) := by
  rw [createOfBundle]
  split
  · exact .failed l.world [] _ (by simp)
  · exact (makes_createOfCode p _ _ _ _ _).of_record rfl

theorem makes_createPending (compiler : Compiler ω χ) (l : Loader ω χ) (resource : Resource) :
    l.Makes resource.url (l.createPending compiler resource) := by
  rw [createPending]
  rcases compiler.firstPass l.view resource.contents resource.url with
    ⟨world, e | ⟨dependencies, file⟩⟩
  · exact .failed world [] e (by simp)
  · rcases hinfo : UnitInfo.create resource.url dependencies none none with e | info
    · simp only [hinfo]
      exact .failed world [.read resource.url] e (by simp [Event.isQuiet])
    · simp only [hinfo]
      exact l.makes_addUnit world [.read resource.url] (by simp [Event.isQuiet]) hinfo _

/-- Making a unit of a file comes to the same for all kinds of files. -/
theorem makes_createOfResource (l : Loader ω χ) (resource : Resource) :
    l.Makes resource.url (l.createOfResource p resource) := by
  rw [createOfResource]
  split
  · exact l.makes_createOfBundle p resource
  · split
    · exact makes_createPending _ l resource
    · exact l.makes_createOfCode p _ _ _ _

/-- The unit of a file is filed under the URL of the file. -/
theorem unitOfResource_spec (l : Loader ω χ) (resource : Resource) :
    l.Quiet (l.unitOfResource p resource).1 ∧
      ∀ {id}, (l.unitOfResource p resource).2 = .ok id →
        (l.unitOfResource p resource).1.cache.unit? resource.url = some id := by
  have hmakes := l.makes_createOfResource p resource
  rw [unitOfResource]
  cases hid : l.cache.unit? resource.url with
  | some id => exact ⟨l.quiet_record rfl, fun h ↦ by cases h; exact hid⟩
  | none =>
    have hquiet := hmakes.quiet
    rcases h : l.createOfResource p resource with ⟨l', result⟩
    rw [h] at hmakes hquiet
    cases hmakes with
    | failed => exact ⟨hquiet.trans (quiet_record _ rfl), fun h ↦ by cases h⟩
    | made world events unit _ _ hnamed =>
      have hobtained := hquiet.trans
        (quiet_record _ (e := .obtained resource.url l.units.length) rfl)
      have hinserted (url : Url) :=
        ResolutionCache.unit?_insertUnit l.cache resource.url url l.units.length
      refine ⟨{ hobtained with filed := ?_, newlyFiled := ?_ }, fun h ↦ ?_⟩
      · intro url other hother
        refine (hinserted url).trans ?_
        rw [if_neg, hother]
        rintro rfl
        rw [hid] at hother
        cases hother
      · intro url other hother
        replace hother := (hinserted url).symm.trans hother
        split at hother
        case isTrue heq =>
          cases hother
          exact .inr ⟨l.standing?_length, _, (standing?_append rfl _).trans (if_pos rfl),
            hnamed.trans heq.symm⟩
        case isFalse => exact .inl hother
      · cases h
        exact (hinserted resource.url).trans (if_pos rfl)

theorem quiet_unitOfResource (l : Loader ω χ) (resource : Resource) :
    l.Quiet (l.unitOfResource p resource).1 := (l.unitOfResource_spec p resource).1

theorem quiet_unitOfAnswer (l : Loader ω χ) (locator : String) (origin : Option Url)
    (answer : Except LoaderError (Option Resource)) :
    l.Quiet (l.unitOfAnswer p locator origin answer).1 := by
  rcases answer with e | _ | resource
  · exact .refl l
  · exact .refl l
  · exact l.quiet_unitOfResource p resource

/-- Only a file that was found leads to a unit. -/
theorem exists_of_unitOfAnswer {l : Loader ω χ} {locator : String} {origin : Option Url}
    {answer : Except LoaderError (Option Resource)} {id : UnitId}
    (h : (l.unitOfAnswer p locator origin answer).2 = .ok id) :
    ∃ resource, answer = .ok (some resource) ∧
      (l.unitOfAnswer p locator origin answer).1.cache.unit? resource.url = some id := by
  rcases answer with e | _ | resource
  · cases h
  · cases h
  · exact ⟨resource, rfl, (l.unitOfResource_spec p resource).2 h⟩

theorem quiet_openUnit (l : Loader ω χ) (url : Url) : l.Quiet (l.openUnit p url).1 := by
  rw [openUnit]
  split
  · exact .refl l
  · obtain ⟨world, ticket⟩ := p.resolver.resolve l.world url l.substitutions
    rcases hnext : p.resolver.next? world [ticket] with ⟨world', _ | _⟩
    · simp only [hnext]
      exact l.quiet_world _
    · simp only [hnext]
      exact (l.quiet_world _).trans (quiet_unitOfAnswer p _ _ _ _)

/-! ## Executing units -/

theorem quiet_argumentsFor (l : Loader ω χ) (directory : Url) :
    l.Quiet (l.argumentsFor directory).1 :=
  (l.quiet_operation .executer directory).trans (quiet_operation _ .importer directory)

theorem exists_writeAll (l : Loader ω χ) (pieces : List String) :
    ∃ world, (l.writeAll p pieces).1 = { l with world } := by
  induction pieces generalizing l with
  | nil => exact ⟨l.world, rfl⟩
  | cons piece rest ih =>
    rw [writeAll]
    rcases p.write l.world piece with ⟨world, _ | _⟩
    · exact ⟨world, rfl⟩
    · exact ih _

theorem exists_report (compiler : Compiler ω χ) (l : Loader ω χ) (url : Url) (file : χ) :
    ∃ world, (l.report p compiler url file).1 = { l with world } := by
  obtain ⟨world, hwritten⟩ := l.exists_writeAll p
    (reportPieces l.config.format (compiler.wording file) (compiler.diagnostics file))
  refine ⟨world, ?_⟩
  rw [report]
  rcases h : l.writeAll p
    (reportPieces l.config.format (compiler.wording file) (compiler.diagnostics file))
    with ⟨l', _ | _⟩
  all_goals rw [h] at hwritten; exact hwritten

theorem quiet_report (compiler : Compiler ω χ) (l : Loader ω χ) (url : Url) (file : χ) :
    l.Quiet (l.report p compiler url file).1 := by
  obtain ⟨world, heq⟩ := l.exists_report p compiler url file
  rw [heq]
  exact l.quiet_world world

theorem quiet_compileUnit (l : Loader ω χ) (pass : SecondPass ω χ) :
    l.Quiet (l.compileUnit p pass).1 := by
  rcases hleave : pass.compiler.leaveImport l.world pass.file with ⟨left, file⟩
  rcases hsecond : pass.compiler.secondPass left file with ⟨world, file', output⟩
  simp only [compileUnit, hleave, hsecond]
  have hbegun := (l.quiet_world world).trans (quiet_record _ (e := .compiled pass.unit) rfl)
  have hreport := hbegun.trans (quiet_report p pass.compiler _ pass.url file')
  split
  case h_1 h => rw [h] at hreport; exact hreport
  case h_2 l' _ h =>
    rw [h] at hreport
    have hsynth := hreport.trans
      (l'.quiet_synthesize p pass.url output.code (output.sourceMap.map MapSource.text))
    split
    case h_1 h => rw [h] at hsynth; exact hsynth
    case h_2 h =>
      rw [h] at hsynth
      exact hsynth.trans (quiet_modifyUnit (f := fun unit ↦
        { unit with info := { unit.info with code := _, sourceMap := _ } }) _ _ fun _ ↦ rfl)

end Loader

end ScriptLoader
