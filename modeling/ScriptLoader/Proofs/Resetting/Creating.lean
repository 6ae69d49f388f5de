import ScriptLoader.Proofs.Resetting.Loaders

/-!
# Units are made alike

A unit that is made after a reset has the number that comes next, in the old loader as in the new
one. Files are told apart by their URLs, which are the same for both; a URL that is made up differs
in its number, but not in the directory.
-/

namespace ScriptLoader.Likeness

variable {ω χ : Type} {R : Likeness ω χ} {p : Platform ω χ} {l l' : Loader ω χ} {url url' : Url}

/-! ## URLs -/

/-- A numbered name lies in the directory of the base, whatever the number. -/
theorem directory_anonymous (number number' : Nat) :
    (R.anonymous number).directory = (R.anonymous number').directory :=
  (Url.isPlain_anonymousName number).directory_named (Url.isPlain_anonymousName number')

theorem Urls.directory (h : R.Urls url url') : url.directory = url'.directory := by
  cases h with
  | given => rfl
  | numbered number => exact directory_anonymous _ _

theorem Urls.create (h : R.Urls url url') (dependencies : List Reference)
    (code sourceMap : Option String) :
    R.Results R.Infos (UnitInfo.create url dependencies code sourceMap)
      (UnitInfo.create url' dependencies code sourceMap) := by
  rw [UnitInfo.create, UnitInfo.create, h.directory]
  split
  · exact .error (.same _)
  · exact .ok ⟨h, rfl, rfl, rfl, rfl, rfl⟩

/-! ## Results of loaders -/

variable (R) in
/-- Loaders are alike that have come to results that are. -/
inductive Makes {α β : Type} (rel : α → β → Prop) :
    Loader ω χ × Except LoaderError α → Loader ω χ × Except LoaderError β → Prop
  | ok {l l' : Loader ω χ} {a : α} {b : β} (loaders : R.Loaders l l') (related : rel a b) :
      Makes rel (l, .ok a) (l', .ok b)
  | error {l l' : Loader ω χ} {error error' : LoaderError} (loaders : R.Loaders l l')
      (errors : R.Errors error error') : Makes rel (l, .error error) (l', .error error')

theorem Makes.of_results {α β : Type} {rel : α → β → Prop} {result : Except LoaderError α}
    {result' : Except LoaderError β} (h : R.Loaders l l')
    (hresults : R.Results rel result result') :
    R.Makes rel (l, result) (l', result') := by
  cases hresults with
  | ok related => exact .ok h related
  | error errors => exact .error h errors

theorem Makes.loaders {α β : Type} {rel : α → β → Prop} {made : Loader ω χ × Except LoaderError α}
    {made' : Loader ω χ × Except LoaderError β} (h : R.Makes rel made made') :
    R.Loaders made.1 made'.1 := by
  cases h <;> assumption

theorem Makes.results {α β : Type} {rel : α → β → Prop} {made : Loader ω χ × Except LoaderError α}
    {made' : Loader ω χ × Except LoaderError β} (h : R.Makes rel made made') :
    R.Results rel made.2 made'.2 := by
  cases h with
  | ok _ related => exact .ok related
  | error _ errors => exact .error errors

namespace Loaders

/-! ## Units of code -/

/-- **A function is asked for** in both, of the same code, and with URLs that are alike. -/
theorem synthesize (h : R.Loaders l l') (hp : R.Respects p) (hurls : R.Urls url url')
    (code : String) (map : Option MapSource) :
    R.Makes (fun made made' ↦ R.Callables made.1 made'.1 ∧ made.2 = made'.2)
      (l.synthesize p url code map) (l'.synthesize p url' code map) := by
  -- only the URLs differ in what the function is assembled from
  have hembedded : (if l.config.sourceMaps then map.bind MapSource.embedded? else none)
      = if l'.config.sourceMaps then map.bind MapSource.embedded? else none := by rw [h.config]
  rw [Loader.synthesize, Loader.synthesize, hembedded, hp.headerLines h.world]
  dsimp only
  generalize (if l'.config.sourceMaps then map.bind MapSource.embedded? else none) = embedded
  have hsources := Sources.assemble h.host (p.engine.headerLines l'.world) hurls code embedded
  obtain ⟨hworld, hresults⟩ := hp.synthesize h.world hsources
  refine .of_results ((h.set_world hworld).record (.synthesized hsources)) ?_
  generalize (p.engine.synthesize l.world _).2 = result at hresults ⊢
  generalize (p.engine.synthesize l'.world _).2 = result' at hresults ⊢
  cases hresults with
  | ok hcallables => exact .ok ⟨hcallables, rfl⟩
  | error herrors => exact .error herrors

theorem addReady (h : R.Loaders l l') {info info' : UnitInfo} (hinfos : R.Infos info info')
    {callable callable' : Callable ω} (hcallables : R.Callables callable callable') :
    R.Makes R.Ids ((l.addUnit { info, body := .ready callable }).1, .ok l.units.length)
      ((l'.addUnit { info := info', body := .ready callable' }).1, .ok l'.units.length) := by
  refine .ok (h.addUnit ⟨hinfos, .ready hcallables, .nil, ?_⟩) h.length
  intro hpending
  cases hpending

theorem createOfCode (h : R.Loaders l l') (hp : R.Respects p) (hurls : R.Urls url url')
    (code : String) (dependencies : List Reference) (map : Option MapSource) :
    R.Makes R.Ids (l.createOfCode p url code dependencies map)
      (l'.createOfCode p url' code dependencies map) := by
  have hmade := h.synthesize hp hurls code map
  rw [Loader.createOfCode, Loader.createOfCode]
  generalize l.synthesize p url code map = made at hmade ⊢
  generalize l'.synthesize p url' code map = made' at hmade ⊢
  cases hmade with
  | error hloaders herrors => exact .error hloaders herrors
  | @ok _ _ made made' hloaders hrelated =>
    obtain ⟨callable, embedded⟩ := made
    obtain ⟨callable', embedded'⟩ := made'
    obtain ⟨hcallables, heq⟩ := hrelated
    cases heq
    have hinfos := hurls.create dependencies (some code) embedded
    dsimp only
    generalize UnitInfo.create url dependencies (some code) embedded = info at hinfos ⊢
    generalize UnitInfo.create url' dependencies (some code) embedded = info' at hinfos ⊢
    cases hinfos with
    | ok hinfos => exact hloaders.addReady hinfos hcallables
    | error herrors => exact .error hloaders herrors

/-- **A unit is named.** What is made up has the next number in each. -/
theorem nameUnit (h : R.Loaders l l') (url : Option Url) (given : ∀ u ∈ url, R.given u) :
    R.Makes R.Urls (l.nameUnit url) (l'.nameUnit url) := by
  cases url with
  | some url => exact .ok h (.given (given url rfl))
  | none =>
    have hcounted : R.Loaders { l with anonymousCount := l.anonymousCount + 1 }
        { l' with anonymousCount := l'.anonymousCount + 1 } :=
      { h with
        anonymousCount := by
          dsimp only
          rw [h.anonymousCount, Nat.add_right_comm] }
    refine .of_results hcounted ?_
    show R.Results R.Urls ((l.base.join (Url.anonymousName l.anonymousCount)).mapError .url)
      ((l'.base.join (Url.anonymousName l'.anonymousCount)).mapError .url)
    -- the base decides whether a name can be resolved, so neither can be or both
    rw [← h.base_eq, h.base, Url.join_anonymousName, Url.join_anonymousName]
    split
    · exact .error (.same _)
    · refine .ok ?_
      rw [h.anonymousCount]
      exact .numbered _

theorem createFromSource (h : R.Loaders l l') (hp : R.Respects p) (url : Option Url)
    (given : ∀ u ∈ url, R.given u) (code : String) (dependencies : List Reference) :
    R.Makes R.Ids (l.createFromSource p url code dependencies)
      (l'.createFromSource p url code dependencies) := by
  have hnamed := h.nameUnit url given
  rw [Loader.createFromSource, Loader.createFromSource]
  generalize l.nameUnit url = named at hnamed ⊢
  generalize l'.nameUnit url = named' at hnamed ⊢
  cases hnamed with
  | error hloaders herrors => exact .error hloaders herrors
  | ok hloaders hurls => exact hloaders.createOfCode hp hurls code dependencies none

theorem createFromFunction (h : R.Loaders l l') (url : Option Url)
    (given : ∀ u ∈ url, R.given u) {callable callable' : Callable ω}
    (hcallables : R.Callables callable callable') (dependencies : List Reference) :
    R.Makes R.Ids (l.createFromFunction url callable dependencies)
      (l'.createFromFunction url callable' dependencies) := by
  have hnamed := h.nameUnit url given
  rw [Loader.createFromFunction, Loader.createFromFunction]
  generalize l.nameUnit url = named at hnamed ⊢
  generalize l'.nameUnit url = named' at hnamed ⊢
  cases hnamed with
  | error hloaders herrors => exact .error hloaders herrors
  | @ok _ _ url url' hloaders hurls =>
    have hinfos := hurls.create dependencies none none
    dsimp only
    generalize UnitInfo.create url dependencies none none = info at hinfos ⊢
    generalize UnitInfo.create url' dependencies none none = info' at hinfos ⊢
    cases hinfos with
    | ok hinfos => exact hloaders.addReady hinfos hcallables
    | error herrors => exact .error hloaders herrors

/-! ## Units of files -/

theorem createOfBundle (h : R.Loaders l l') (hp : R.Respects p) (resource : Resource)
    (given : R.given resource.url) :
    R.Makes R.Ids (l.createOfBundle p resource) (l'.createOfBundle p resource) := by
  rw [Loader.createOfBundle, Loader.createOfBundle]
  split
  · exact .error h (.same _)
  · exact (h.record (.renumber (.read _))).createOfCode hp (.given given) _ _ _

theorem createPending (h : R.Loaders l l') {compiler : Compiler ω χ}
    (hcompiler : R.RespectsCompiler compiler) (resource : Resource)
    (given : R.given resource.url) :
    R.Makes R.Ids (l.createPending compiler resource) (l'.createPending compiler resource) := by
  obtain ⟨hworld, hread⟩ := hcompiler.firstPass h.view given resource.contents
  rw [Loader.createPending, Loader.createPending]
  generalize compiler.firstPass l.view resource.contents resource.url = pass at hworld hread ⊢
  generalize compiler.firstPass l'.view resource.contents resource.url = pass' at hworld hread ⊢
  obtain ⟨world, result⟩ := pass
  obtain ⟨world', result'⟩ := pass'
  have hloaders := h.set_world hworld
  cases hread with
  | error herrors => exact .error hloaders herrors
  | @ok read read' hrelated =>
    obtain ⟨dependencies, file⟩ := read
    obtain ⟨dependencies', file'⟩ := read'
    obtain ⟨heq, hfiles⟩ := hrelated
    cases heq
    have hrecorded := hloaders.record (.renumber (.read resource.url))
    dsimp only
    rw [UnitInfo.create.eq_def]
    cases resource.url.directory with
    | error cause => exact .error hrecorded (.same _)
    | ok directory =>
      refine .ok (hrecorded.addUnit ?_) hrecorded.length
      exact ⟨⟨.given given, rfl, rfl, rfl, rfl, rfl⟩, .pending hcompiler hfiles, .nil,
        fun _ ↦ ⟨rfl, given⟩⟩

theorem createOfResource (h : R.Loaders l l') (hp : R.Respects p) (resource : Resource)
    (given : R.given resource.url) :
    R.Makes R.Ids (l.createOfResource p resource) (l'.createOfResource p resource) := by
  rw [Loader.createOfResource, Loader.createOfResource]
  split
  · exact h.createOfBundle hp resource given
  · split
    next hcompiler => exact h.createPending (hp.compiler hcompiler) resource given
    next => exact h.createOfCode hp (.given given) _ _ none

theorem insertUnit (h : R.Loaders l l') (url : Url) (id : UnitId) :
    R.Loaders { l with cache := l.cache.insertUnit url (R.shift id) }
      { l' with cache := l'.cache.insertUnit url id } :=
  { h with
    cached := fun other ↦ by
      dsimp only
      rw [ResolutionCache.unit?_insertUnit, ResolutionCache.unit?_insertUnit, h.cached]
      split <;> rfl }

theorem insertResult (h : R.Loaders l l') (key : String) (id : UnitId) :
    R.Loaders { l with cache := l.cache.insertResult key (R.shift id) }
      { l' with cache := l'.cache.insertResult key id } :=
  { h with
    results := fun other ↦ by
      dsimp only
      rw [ResolutionCache.result?_insertResult, ResolutionCache.result?_insertResult, h.results]
      split <;> rfl }

/-- **A file leads to a unit**, the same in both. -/
theorem unitOfResource (h : R.Loaders l l') (hp : R.Respects p) (resource : Resource)
    (given : R.given resource.url) :
    R.Makes R.Ids (l.unitOfResource p resource) (l'.unitOfResource p resource) := by
  have hcached := h.cached resource.url
  rw [Loader.unitOfResource, Loader.unitOfResource, hcached]
  cases l'.cache.unit? resource.url with
  | some id => exact .ok (h.record (.renumber (.obtained resource.url id))) rfl
  | none =>
    have hmade := h.createOfResource hp resource given
    rw [Option.map_none]
    dsimp only
    generalize l.createOfResource p resource = made at hmade ⊢
    generalize l'.createOfResource p resource = made' at hmade ⊢
    cases hmade with
    | error hloaders herrors =>
      exact .error (hloaders.record (.renumber (.refused resource.url))) herrors
    | @ok _ _ id id' hloaders hids =>
      cases hids
      exact .ok ((hloaders.insertUnit _ _).record (.renumber (.obtained resource.url id'))) rfl

theorem notFound (h : R.Loaders l l') (hp : R.Respects p) (locator : String)
    {origin origin' : Option Url} (horigins : Option.Rel R.Urls origin origin') :
    R.Errors (l.notFound p locator origin) (l'.notFound p locator origin') := by
  rw [Loader.notFound, Loader.notFound, hp.includePaths h.world]
  cases horigins with
  | none => exact .same _
  | some hurls => exact .resolutionFailure locator _ hurls

theorem unitOfAnswer (h : R.Loaders l l') (hp : R.Respects p) (locator : String)
    {origin origin' : Option Url} (horigins : Option.Rel R.Urls origin origin')
    {answer answer' : Except LoaderError (Option Resource)} (hanswer : answer = answer')
    (given : ∀ {resource}, answer' = .ok (some resource) → R.given resource.url) :
    R.Makes R.Ids (l.unitOfAnswer p locator origin answer)
      (l'.unitOfAnswer p locator origin' answer') := by
  subst hanswer
  match answer with
  | .error e => exact .error h (.same e)
  | .ok none => exact .error h (h.notFound hp locator horigins)
  | .ok (some resource) => exact h.unitOfResource hp resource (given rfl)

/-- **The unit of a URL** is found in both, or the lookup stalls in both. -/
theorem openUnit (h : R.Loaders l l') (hp : R.Respects p) (url : Url) :
    R.Loaders (l.openUnit p url).1 (l'.openUnit p url).1 ∧
      R.Waits R.Ids (l.openUnit p url).2 (l'.openUnit p url).2 := by
  rw [Loader.openUnit, Loader.openUnit, h.cached url]
  cases l'.cache.unit? url with
  | some id => exact ⟨h, .settled (.ok rfl)⟩
  | none =>
    have hstart := hp.start h.world (.resolve url l'.substitutions)
    have hresolve : p.resolver.resolve l.world url l.substitutions
        = p.resolver.start l.world (.resolve url l'.substitutions) := by
      rw [h.substitutions]
      rfl
    have hresolve' : p.resolver.resolve l'.world url l'.substitutions
        = p.resolver.start l'.world (.resolve url l'.substitutions) := rfl
    rw [Option.map_none, hresolve, hresolve']
    generalize p.resolver.start l.world _ = started at hstart ⊢
    generalize p.resolver.start l'.world _ = started' at hstart ⊢
    obtain ⟨world, ticket⟩ := started
    obtain ⟨world', ticket'⟩ := started'
    obtain ⟨hworld, rfl⟩ : R.world world world' ∧ ticket = ticket' := hstart
    have hnext := hp.next hworld [ticket]
    dsimp only
    generalize p.resolver.next? world [ticket] = picked at hnext ⊢
    generalize p.resolver.next? world' [ticket] = picked' at hnext ⊢
    obtain ⟨world, picked⟩ := picked
    obtain ⟨world', picked'⟩ := picked'
    obtain ⟨hworld, rfl⟩ : R.world world world' ∧ picked = picked' := hnext
    cases picked with
    | none => exact ⟨h.set_world (hp.cancel hworld _), .stalled⟩
    | some =>
      obtain ⟨hanswered, hanswer⟩ := hp.answer hworld ticket
      have hmade := (h.set_world hanswered).unitOfAnswer hp url.text .none hanswer
        (hp.found hworld)
      exact ⟨hmade.loaders, .settled hmade.results⟩

/-! ## Second passes -/

theorem writeAll (h : R.Loaders l l') (hp : R.Respects p) (pieces : List String) :
    R.Makes Eq (l.writeAll p pieces) (l'.writeAll p pieces) := by
  induction pieces generalizing l l' with
  | nil => exact .ok h rfl
  | cons piece rest ih =>
    have hwritten := hp.write h.world piece
    rw [Loader.writeAll, Loader.writeAll]
    generalize p.write l.world piece = written at hwritten ⊢
    generalize p.write l'.world piece = written' at hwritten ⊢
    obtain ⟨world, result⟩ := written
    obtain ⟨world', result'⟩ := written'
    obtain ⟨hworld, hresults⟩ := hwritten
    cases hresults with
    | ok => exact ih (h.set_world hworld)
    | error herrors => exact .error (h.set_world hworld) herrors

theorem report (h : R.Loaders l l') (hp : R.Respects p) {compiler : Compiler ω χ}
    (hcompiler : R.RespectsCompiler compiler) (url : Url) {file file' : χ}
    (hfiles : R.file file file') :
    R.Makes Eq (l.report p compiler url file) (l'.report p compiler url file') := by
  rw [Loader.report, Loader.report, hcompiler.diagnostics hfiles, hcompiler.wording hfiles,
    h.config]
  generalize reportPieces l'.config.format _ _ = pieces
  have hwritten := h.writeAll hp pieces
  generalize l.writeAll p pieces = written at hwritten ⊢
  generalize l'.writeAll p pieces = written' at hwritten ⊢
  cases hwritten with
  | error hloaders herrors => exact .error hloaders herrors
  | ok hloaders =>
    refine .of_results hloaders ?_
    split
    · exact .error (.same _)
    · exact .ok rfl

/-- **The second pass** of a unit yields the same code in both. -/
theorem compileUnit (h : R.Loaders l l') (hp : R.Respects p) {pass pass' : SecondPass ω χ}
    (hpasses : R.Passes pass pass') :
    R.Makes R.Callables (l.compileUnit p pass) (l'.compileUnit p pass') := by
  have hunit : pass.unit = R.shift pass'.unit := hpasses.unit
  have hcompiler := hpasses.respected
  obtain ⟨hleft, hfiles⟩ := hcompiler.leaveImport h.world hpasses.file
  obtain ⟨hpassed, hfiles, houtput⟩ := hcompiler.secondPass hleft hfiles
  have hrecorded := (h.set_world hpassed).record (.renumber (.compiled pass'.unit))
  have hreported := hrecorded.report hp hcompiler pass'.url hfiles
  rw [Loader.compileUnit, Loader.compileUnit, hpasses.compiler, hpasses.url, hunit]
  dsimp only [Event.renumber] at hreported ⊢
  generalize Loader.report p pass'.compiler _ pass'.url _ = reported at hreported ⊢
  generalize Loader.report p pass'.compiler _ pass'.url _ = reported' at hreported ⊢
  cases hreported with
  | error hloaders herrors => exact .error hloaders herrors
  | @ok l l' _ _ hloaders =>
    rw [houtput]
    generalize (pass'.compiler.secondPass _ _).2.2 = output
    have hmade := hloaders.synthesize hp (.given hpasses.given) output.code
      (output.sourceMap.map MapSource.text)
    dsimp only
    generalize l.synthesize p pass'.url output.code _ = made at hmade ⊢
    generalize l'.synthesize p pass'.url output.code _ = made' at hmade ⊢
    cases hmade with
    | error hloaders herrors => exact .error hloaders herrors
    | @ok _ _ made made' hloaders hrelated =>
      obtain ⟨callable, embedded⟩ := made
      obtain ⟨callable', embedded'⟩ := made'
      obtain ⟨hcallables, heq⟩ := hrelated
      cases heq
      refine .ok (hloaders.modifyUnit _ fun hunits ↦ ?_) hcallables
      exact { hunits with info := { hunits.info with code := rfl, sourceMap := rfl } }

end Loaders

end ScriptLoader.Likeness
