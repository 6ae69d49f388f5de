import ScriptLoader.Proofs.Resetting.Creating

/-!
# Machines stay alike

Whatever one request of code makes a machine do keeps machines alike. This is shown for one function
after the other, from the calls of bodies to whole steps.
-/

namespace ScriptLoader.Likeness

variable {ω χ : Type} {R : Likeness ω χ} {p : Platform ω χ} {m m' : Machine ω χ}

theorem Frames.of_dispatching (id : UnitId) {searcher searcher' : Operation}
    (hsearcher : searcher = R.later searcher') (rest : List Reference) :
    R.Frames (.dispatching (R.shift id) searcher rest) (.dispatching id searcher' rest) :=
  hsearcher ▸ .dispatching id searcher' rest

namespace Machines

/-! ## Going on -/

theorem set_loader (h : R.Machines m m') {l l' : Loader ω χ} (hloaders : R.Loaders l l') :
    R.Machines { m with loader := l } { m' with loader := l' } :=
  { h with loader := hloaders }

theorem update (h : R.Machines m m') {change change' : Loader ω χ → Loader ω χ}
    (hchange : ∀ {l l'}, R.Loaders l l' → R.Loaders (change l) (change' l')) :
    R.Machines (m.update change) (m'.update change') :=
  h.set_loader (hchange h.loader)

theorem give (h : R.Machines m m') {outcome outcome' : Outcome}
    (houtcomes : R.Outcomes outcome outcome') : R.Machines (m.give outcome) (m'.give outcome') :=
  { h with control := .returning houtcomes }

theorem done (h : R.Machines m m') : R.Machines m.done m'.done :=
  h.give (.ok (R.value_refl _))

theorem throw (h : R.Machines m m') {error error' : LoaderError}
    (herrors : R.Errors error error') : R.Machines (m.throw error) (m'.throw error') :=
  h.give (.error herrors)

theorem start (h : R.Machines m m') {code code' : Code ω} (hcodes : R.Codes code code') :
    R.Machines (m.start code) (m'.start code') :=
  { h with control := .running hcodes }

theorem push (h : R.Machines m m') {frame frame' : Frame ω χ} (hframes : R.Frames frame frame') :
    R.Machines (m.push frame) (m'.push frame') := by
  obtain ⟨frames, hstack, hall⟩ := h.stack
  exact { h with stack := ⟨frame :: frames, congrArg (frame :: ·) hstack, .cons hframes hall⟩ }

/-! ## Execution -/

theorem callBody (h : R.Machines m m') (id : UnitId) (directory : Url)
    {callable callable' : Callable ω} (hcallables : R.Callables callable callable') :
    R.Machines (m.callBody (R.shift id) directory callable)
      (m'.callBody id directory callable') := by
  obtain ⟨hloaders, hsupplies⟩ := h.loader.argumentsFor directory
  have hentered : R.Loaders
      { (m.loader.argumentsFor directory).1 with executing := some (R.shift id) }
      { (m'.loader.argumentsFor directory).1 with executing := some id } :=
    { hloaders with executing := rfl }
  have hframes := Frames.calling (R := R) (m'.loader.argumentsFor directory).1.executing
  rw [← hloaders.executing] at hframes
  exact ((h.set_loader (hentered.record (.renumber (.called id)))).push hframes).start
    (hcallables hsupplies)

theorem beginCompilation (h : R.Machines m m') (id : UnitId) {info info' : UnitInfo}
    (hinfos : R.Infos info info') (hurl : info.url = info'.url) (given : R.given info'.url)
    {compiler : Compiler ω χ} (hcompiler : R.RespectsCompiler compiler) {file file' : χ}
    (hfiles : R.file file file') :
    R.Machines (m.beginCompilation (R.shift id) info compiler file)
      (m'.beginCompilation id info' compiler file') := by
  have hbegun := h.loader.setBody id .compiling rfl
  have hset : R.Loaders
      { m.loader.setBody (R.shift id) .compiling with compiling := some (R.shift id) }
      { m'.loader.setBody id .compiling with compiling := some id } :=
    { hbegun with compiling := rfl }
  obtain ⟨hworld, hfiles⟩ := hcompiler.enterImport hset.world hfiles info'.url.displayName
  obtain ⟨hloaders, hexecuter⟩ := (hset.set_world hworld).operation .executer info'.directory
  rw [Machine.beginCompilation, Machine.beginCompilation, hurl, hinfos.directory,
    hinfos.dependencies]
  dsimp only at hexecuter ⊢
  rw [hexecuter]
  refine ((h.set_loader hloaders).push (.compiling ?_ _)).done
  exact ⟨rfl, rfl, given, rfl, rfl, hcompiler, hfiles, rfl, h.loader.compiling⟩

theorem execute (h : R.Machines m m') (id : UnitId) :
    R.Machines (m.execute (R.shift id)) (m'.execute id) := by
  rcases h.loader.unit?_cases id with ⟨hnone, hnone'⟩ | ⟨unit, unit', hunit, hunit', hunits⟩
  · rw [Machine.execute, Machine.execute, hnone, hnone']
    exact h.done
  · rw [Machine.execute, Machine.execute, hunit, hunit']
    have hbody := hunits.body
    have hpending := hunits.pending
    dsimp only
    generalize unit.body = body at hbody ⊢
    generalize unit'.body = body' at hbody hpending ⊢
    cases hbody with
    | ready hcallables =>
      dsimp only
      rw [hunits.info.directory]
      exact h.callBody id _ hcallables
    | pending hcompiler hfiles =>
      obtain ⟨hurl, given⟩ := hpending rfl
      exact h.beginCompilation id hunits.info hurl given hcompiler hfiles
    | compiling => exact h.done
    | failed => exact h.throw (.compilation hunits.info.url)

theorem callReference (h : R.Machines m m') (executer : Operation) (reference : Reference) :
    R.Machines (m.callReference (R.later executer) reference)
      (m'.callReference executer reference) := by
  have hkey : (R.later executer).context = executer.context := rfl
  rw [Machine.callReference, Machine.callReference, hkey, h.loader.results]
  cases m'.loader.cache.result? (reference.key executer.context.text) with
  | none => exact h.throw (.same _)
  | some id =>
    dsimp only [Option.map_some]
    rw [h.loader.isLoaded]
    split
    · exact h.execute id
    · exact h.throw (.same _)

/-! ## Second passes -/

variable {pass pass' : SecondPass ω χ}

theorem leaveCompilation (h : R.Machines m m') (hpasses : R.Passes pass pass')
    {body body' : Body ω χ} (hbodies : R.Bodies body body') (hpending : body'.isPending = false) :
    R.Machines (m.leaveCompilation pass body) (m'.leaveCompilation pass' body') := by
  have hunit : pass.unit = R.shift pass'.unit := hpasses.unit
  have hset := h.loader.setBody pass'.unit hbodies hpending
  rw [Machine.leaveCompilation, Machine.leaveCompilation, hunit]
  exact h.set_loader { hset with compiling := hpasses.previous }

theorem failCompilation (h : R.Machines m m') (hpasses : R.Passes pass pass')
    {error error' : LoaderError} (herrors : R.Errors error error') :
    R.Machines (m.failCompilation pass error) (m'.failCompilation pass' error') :=
  (h.leaveCompilation hpasses .failed rfl).throw herrors

theorem continueCompilation (h : R.Machines m m') (hp : R.Respects p)
    (hpasses : R.Passes pass pass') (executer : Operation) :
    R.Machines (m.continueCompilation p pass (R.later executer))
      (m'.continueCompilation p pass' executer) := by
  have hunit : pass.unit = R.shift pass'.unit := hpasses.unit
  rw [Machine.continueCompilation, Machine.continueCompilation, hpasses.rest]
  cases pass'.rest with
  | cons reference rest =>
    have hrest : R.Passes { pass with rest } { pass' with rest } := { hpasses with rest := rfl }
    exact (h.push (.compiling hrest executer)).callReference executer reference
  | nil =>
    have hcompiled := h.loader.compileUnit hp hpasses
    dsimp only
    generalize m.loader.compileUnit p pass = compiled at hcompiled ⊢
    generalize m'.loader.compileUnit p pass' = compiled' at hcompiled ⊢
    cases hcompiled with
    | error hloaders herrors => exact (h.set_loader hloaders).failCompilation hpasses herrors
    | ok hloaders hcallables =>
      dsimp only
      rw [hunit, hpasses.directory]
      exact ((h.set_loader hloaders).leaveCompilation hpasses (.ready hcallables) rfl).callBody _ _
        hcallables

/-! ## Waves -/

theorem callBack (h : R.Machines m m') (id : UnitId) {callback callback' : Callback ω}
    (hcallbacks : R.Callbacks callback callback') :
    R.Machines (m.callBack (R.shift id) callback) (m'.callBack id callback') := by
  cases hcallbacks with
  | code hcodes => exact h.start hcodes
  | importing hdeliveries => exact (h.push (.delivering hdeliveries)).execute id

/-- **A wave is closed** in both, for the same units. -/
theorem closeWave (h : R.Machines m m') : R.Machines m.closeWave m'.closeWave := by
  have hwave := h.loader.wave
  rw [Machine.closeWave, Machine.closeWave, hwave]
  cases m'.loader.wave with
  | none => exact h.done
  | some wave =>
    have hset := ((h.loader.set_wave none).setStatuses wave.participants .loaded).record
      (.renumber (.closed wave.participants))
    have hclosed := h.set_loader hset
    obtain ⟨participants, outstanding⟩ := wave
    cases participants with
    | nil => exact hclosed.done
    | cons first rest => exact (hclosed.push (.draining first .nil (first :: rest))).done

theorem continueDraining (h : R.Machines m m') (id : UnitId)
    {callbacks callbacks' : List (Callback ω)}
    (hcallbacks : List.Forall₂ R.Callbacks callbacks callbacks') (rest : List UnitId) :
    R.Machines (m.continueDraining (R.shift id) callbacks (rest.map R.shift))
      (m'.continueDraining id callbacks' rest) := by
  cases hcallbacks with
  | cons hcallback hcallbacks =>
    exact ((h.push (.draining id hcallbacks rest)).update fun hloaders ↦
      hloaders.record (.renumber (.delivered id))).callBack id hcallback
  | nil =>
    -- the callbacks of the next unit are taken, which are alike because the units are
    cases rest with
    | nil => exact h.done
    | cons next rest =>
      have hwaiting : List.Forall₂ R.Callbacks
          (((m.loader.unit? (R.shift next)).map (·.callbacks)).getD [])
          (((m'.loader.unit? next).map (·.callbacks)).getD []) := by
        rcases h.loader.unit?_cases next with ⟨hnone, hnone'⟩ | ⟨unit, unit', hunit, hunit', hunits⟩
        · rw [hnone, hnone']
          exact .nil
        · rw [hunit, hunit']
          exact hunits.callbacks
      refine ((h.update fun hloaders ↦ hloaders.modifyUnit next fun hunits ↦ ?_).push
        (.draining next hwaiting rest)).done
      exact { hunits with callbacks := .nil }

/-- **A unit joins** in both. -/
theorem join (h : R.Machines m m') (id : UnitId) :
    R.Machines (m.join (R.shift id)) (m'.join id) := by
  rw [Machine.join.eq_def, Machine.join.eq_def, h.loader.wave]
  cases m'.loader.wave with
  | none =>
    exact (h.update fun hloaders ↦ hloaders.record (.renumber (.turnedAway id))).done
  | some wave =>
    rcases h.loader.unit?_cases id with ⟨hnone, hnone'⟩ | ⟨unit, unit', hunit, hunit', hunits⟩
    · rw [hnone, hnone']
      exact h.done
    · rw [hunit, hunit']
      dsimp only [Option.map_some]
      rw [hunits.info.dependencies, hunits.info.directory]
      have hjoined : (R.laterWave wave).participants ++ [R.shift id]
          = (wave.participants ++ [id]).map R.shift := by
        rw [List.map_append]
        rfl
      rw [hjoined]
      have hset := ((h.loader.set_wave (some
        { participants := wave.participants ++ [id]
          outstanding := wave.outstanding + unit'.info.dependencies.length })).setStatus id
            .loading).record (.renumber (.joined id))
      obtain ⟨hloaders, hsearcher⟩ := hset.operation .searcher unit'.info.directory
      exact ((h.set_loader hloaders).push (.of_dispatching id hsearcher _)).done

theorem loadDependencies (h : R.Machines m m') (hp : R.Respects p) (id : UnitId)
    {callback callback' : Option (Callback ω)}
    (hcallbacks : Option.Rel R.Callbacks callback callback') :
    R.Machines (m.loadDependencies p (R.shift id) callback)
      (m'.loadDependencies p id callback') := by
  have hlist : List.Forall₂ R.Callbacks callback.toList callback'.toList := by
    cases hcallbacks with
    | none => exact .nil
    | some hcallback => exact .cons hcallback .nil
  rcases h.loader.unit?_cases id with ⟨hnone, hnone'⟩ | ⟨unit, unit', hunit, hunit', hunits⟩
  · rw [Machine.loadDependencies.eq_def, Machine.loadDependencies.eq_def, hnone, hnone']
    exact h.done
  · have hwaiting : R.Machines
        (m.update (·.modifyUnit (R.shift id) fun unit ↦
          { unit with callbacks := unit.callbacks ++ callback.toList }))
        (m'.update (·.modifyUnit id fun unit ↦
          { unit with callbacks := unit.callbacks ++ callback'.toList })) :=
      h.update fun hloaders ↦ hloaders.modifyUnit id fun hunits ↦
        { hunits with callbacks := List.rel_append hunits.callbacks hlist }
    rw [Machine.loadDependencies.eq_def, Machine.loadDependencies.eq_def, hunit, hunit']
    dsimp only
    rw [hunits.info.status]
    cases unit'.info.status with
    | loaded =>
      cases hcallbacks with
      | none => exact h.done
      | some hcallback =>
        exact (h.update fun hloaders ↦ hloaders.record (.renumber (.delivered id))).callBack id
          hcallback
    | loading => exact hwaiting.done
    | unloaded =>
      have hactive : m.loader.wave.isSome = m'.loader.wave.isSome := by
        rw [h.loader.wave, Option.isSome_map]
      have himports := countP_eq_of_rel hlist fun hcallback ↦ Callbacks.isImport hcallback
      dsimp only
      rw [hactive, himports]
      split
      · exact (h.update fun hloaders ↦ hloaders.endImports hp _).throw
          (.reentrancyViolation hunits.info.url)
      · exact ((hwaiting.update fun hloaders ↦ hloaders.set_wave (some {})).push .aborting).join id

/-! ## Searches -/

theorem searchFinished (h : R.Machines m m') (id : UnitId) :
    R.Machines (m.searchFinished (R.shift id)) (m'.searchFinished id) := by
  obtain ⟨hsettled, hremaining⟩ := h.loader.settleOne
  have hcontinued := h.set_loader hsettled
  rw [Machine.searchFinished, Machine.searchFinished]
  dsimp only
  rcases hsettled.unit?_cases id with ⟨hnone, hnone'⟩ | ⟨unit, unit', hunit, hunit', hunits⟩
  · rw [hnone, hnone']
    exact hcontinued.done
  · rw [hunit, hunit']
    dsimp only
    rw [hunits.info.status, hremaining]
    split
    · exact hcontinued.join id
    · split
      · exact hcontinued.closeWave
      · exact hcontinued.done

theorem continueSearch (h : R.Machines m m') (hp : R.Respects p) (id : UnitId)
    {purpose purpose' : Purpose ω} (hpurposes : R.Purposes purpose purpose') :
    R.Machines (m.continueSearch p (R.shift id) purpose) (m'.continueSearch p id purpose') := by
  cases hpurposes with
  | wave => exact h.searchFinished id
  | importing hdeliveries => exact h.loadDependencies hp id (.some (.importing hdeliveries))

theorem failSearch (h : R.Machines m m') (hp : R.Respects p) {purpose purpose' : Purpose ω}
    (hpurposes : R.Purposes purpose purpose') {error error' : LoaderError}
    (herrors : R.Errors error error') :
    R.Machines (m.failSearch p purpose error) (m'.failSearch p purpose' error') := by
  rw [Machine.failSearch, Machine.failSearch, hpurposes.isImport]
  exact (h.update fun hloaders ↦ hloaders.endImports hp _).throw herrors

/-- **A reference is searched** in both: it has led to the same unit, or the same is looked up. -/
theorem search (h : R.Machines m m') (hp : R.Respects p) (searcher : Operation)
    (reference : Reference) {origin origin' : Option Url}
    (horigins : Option.Rel R.Urls origin origin') {purpose purpose' : Purpose ω}
    (hpurposes : R.Purposes purpose purpose') :
    R.Machines (m.search p (R.later searcher) reference origin purpose)
      (m'.search p searcher reference origin' purpose') := by
  have hcontext : (R.later searcher).context = searcher.context := rfl
  have hrequest : (R.later searcher).request reference = searcher.request reference := rfl
  rw [Machine.search, Machine.search, hcontext, hrequest]
  dsimp only
  rw [h.loader.results]
  cases m'.loader.cache.result? (reference.key searcher.context.text) with
  | some id => exact h.continueSearch hp id hpurposes
  | none =>
    cases searcher.request reference with
    | error cause => exact h.failSearch hp hpurposes (.same _)
    | ok request =>
      obtain ⟨hworld, hticket⟩ := hp.start h.loader.world request
      dsimp only [Option.map_none]
      have hlooked : R.Loaders
          { m.loader with
            world := (p.resolver.start m.loader.world request).1
            lookups := m.loader.lookups ++ [{
              ticket := (p.resolver.start m.loader.world request).2
              key := reference.key searcher.context.text
              locator := reference.locator, origin, purpose }] }
          { m'.loader with
            world := (p.resolver.start m'.loader.world request).1
            lookups := m'.loader.lookups ++ [{
              ticket := (p.resolver.start m'.loader.world request).2
              key := reference.key searcher.context.text
              locator := reference.locator, origin := origin', purpose := purpose' }] } :=
        { h.loader with
          world := hworld
          lookups := List.rel_append h.loader.lookups
            (.cons ⟨hticket, rfl, rfl, horigins, hpurposes⟩ .nil) }
      rw [hpurposes.isImport]
      exact (h.set_loader (hlooked.record (.renumber (.lookedUp _ request _)))).done

theorem origin (h : R.Machines m m') (id : UnitId) :
    Option.Rel R.Urls ((m.loader.unit? (R.shift id)).map (·.info.url))
      ((m'.loader.unit? id).map (·.info.url)) := by
  rcases h.loader.unit?_cases id with ⟨hnone, hnone'⟩ | ⟨unit, unit', hunit, hunit', hunits⟩
  · rw [hnone, hnone']
    exact .none
  · rw [hunit, hunit']
    exact .some hunits.info.url

theorem continueDispatching (h : R.Machines m m') (hp : R.Respects p) (id : UnitId)
    (searcher : Operation) (rest : List Reference) :
    R.Machines (m.continueDispatching p (R.shift id) (R.later searcher) rest)
      (m'.continueDispatching p id searcher rest) := by
  have hcontext : (R.later searcher).context = searcher.context := rfl
  cases rest with
  | nil => exact h.done
  | cons reference rest =>
    have hpushed := h.push (.dispatching id searcher rest)
    rw [Machine.continueDispatching, Machine.continueDispatching, hcontext]
    dsimp only
    rw [hpushed.loader.isMarked]
    split
    · obtain ⟨hsettled, hremaining⟩ := hpushed.loader.settleOne
      rw [hremaining]
      split
      · exact (hpushed.set_loader hsettled).closeWave
      · exact (hpushed.set_loader hsettled).done
    · have hmarked := (hpushed.loader.mark (reference.key searcher.context.text)).record
        (.renumber (.searched (reference.key searcher.context.text)))
      have hasked := hpushed.set_loader hmarked
      exact hasked.search hp searcher reference (hasked.origin id) .wave

/-- **A file is imported** in both. -/
theorem importFile (h : R.Machines m m') (hp : R.Respects p) (importer : Operation)
    (reference : Reference) {deliver deliver' : Option (Outcome → Code ω)}
    (hdeliveries : R.Deliveries deliver deliver') :
    R.Machines (m.importFile p (R.later importer) reference deliver)
      (m'.importFile p importer reference deliver') := by
  have hcontext : (R.later importer).context = importer.context := rfl
  have htouched := h.loader.touch fun hworld ↦ hp.enableCaching hworld
  obtain ⟨hloaders, hsearcher⟩ := htouched.operation .searcher importer.context
  have hset := h.set_loader hloaders
  rw [Machine.importFile, Machine.importFile, hcontext]
  dsimp only
  rw [hsearcher]
  refine hset.search hp _ reference ?_ (.importing hdeliveries)
  rw [hloaders.compiling]
  cases (Loader.operation _ .searcher importer.context).1.compiling with
  | none => exact .none
  | some id => exact hset.origin id

theorem completeLookup (h : R.Machines m m') (hp : R.Respects p) {lookup lookup' : Lookup ω}
    (hlookups : R.Lookups lookup lookup') :
    R.Machines (m.completeLookup p lookup) (m'.completeLookup p lookup') := by
  obtain ⟨hworld, hanswer⟩ := hp.answer h.loader.world lookup'.ticket
  have hnoted := (h.loader.set_world hworld).noteFound lookup'.key hanswer
  have hmade := hnoted.unitOfAnswer hp lookup'.locator hlookups.origin hanswer
    (hp.found h.loader.world)
  rw [Machine.completeLookup, Machine.completeLookup, hlookups.ticket, hlookups.key,
    hlookups.locator]
  dsimp only
  generalize Loader.unitOfAnswer p _ lookup'.locator lookup.origin _ = made at hmade ⊢
  generalize Loader.unitOfAnswer p _ lookup'.locator lookup'.origin _ = made' at hmade ⊢
  cases hmade with
  | error hloaders herrors => exact (h.set_loader hloaders).failSearch hp hlookups.purpose herrors
  | @ok _ _ id id' hloaders hids =>
    cases hids
    exact (h.set_loader (hloaders.insertResult _ id')).continueSearch hp id' hlookups.purpose

/-- **The next lookup completes** in both, or none does. -/
theorem drive (h : R.Machines m m') (hp : R.Respects p) {next next' : Awaited Unit → Code ω}
    (continues : ∀ {result result'}, R.Waits Eq result result' →
      R.Codes (next result) (next' result')) :
    R.Machines (m.drive p next) (m'.drive p next') := by
  obtain ⟨hworld, hpicked⟩ := hp.next h.loader.world (m'.loader.lookups.map (·.ticket))
  have hset := h.loader.set_world hworld
  rw [Machine.drive, Machine.drive]
  dsimp only
  rw [isEmpty_eq_of_rel h.loader.lookups, h.loader.tickets, hpicked]
  split
  · exact h.start (continues (.settled (.ok rfl)))
  · have hfound (ticket : Option Ticket) : Option.Rel R.Lookups
        (ticket.bind fun ticket ↦ m.loader.lookups.find? (·.ticket = ticket))
        (ticket.bind fun ticket ↦ m'.loader.lookups.find? (·.ticket = ticket)) := by
      cases ticket with
      | none => exact .none
      | some ticket => exact rel_find? h.loader.lookups fun hlookups ↦ by rw [hlookups.ticket]
    have hpicked := hfound (p.resolver.next? m'.loader.world (m'.loader.lookups.map (·.ticket))).2
    generalize Option.bind _ (fun ticket ↦ m.loader.lookups.find? _) = lookup at hpicked ⊢
    generalize Option.bind _ (fun ticket ↦ m'.loader.lookups.find? _) = lookup' at hpicked ⊢
    cases hpicked with
    | none => exact (h.set_loader hset).start (continues .stalled)
    | @some lookup lookup' hlookups =>
      have herased : List.Forall₂ R.Lookups
          (m.loader.lookups.eraseP (·.ticket = lookup.ticket))
          (m'.loader.lookups.eraseP (·.ticket = lookup'.ticket)) :=
        rel_eraseP h.loader.lookups fun hothers ↦ by rw [hothers.ticket, hlookups.ticket]
      exact ((h.set_loader (hset.set_lookups herased)).push (.driving continues)).completeLookup hp
        hlookups

/-! ## Steps -/

/-- **A request of code** is run in both. -/
theorem runCode (h : R.Machines m m') (hp : R.Respects p) {code code' : Code ω}
    (hcodes : R.Codes code code') : R.Machines (m.runCode p code) (m'.runCode p code') := by
  cases hcodes with
  | finish houtcomes => exact h.give houtcomes
  | observe continues => exact h.start (continues h.loader.view)
  | touch changes continues =>
    exact (h.update fun hloaders ↦ hloaders.touch changes).start continues
  | bindGlobal name hvalues continues =>
    exact (h.set_loader (h.loader.bindGlobal name hvalues)).start continues
  | @loadDependencies id callback callback' next next' given callbacks continues =>
    refine (h.push (.resumeAfter continues)).loadDependencies hp id ?_
    cases callback with
    | none =>
      cases callback' with
      | none => exact .none
      | some => cases given
    | some code =>
      cases callback' with
      | none => cases given
      | some code' => exact .some (.code (callbacks rfl rfl))
  | drive continues => exact h.drive hp continues
  | execute id continues => exact (h.push (.resume continues)).execute id
  | call executer reference continues =>
    rw [Machine.runCode, Machine.runCode, h.loader.released]
    split
    · exact h.start (continues (.error (.same _)))
    · exact (h.push (.resume continues)).callReference executer reference
  | @importFile importer reference callback callback' next next' given callbacks continues =>
    have hdeliveries : R.Deliveries callback callback' := by
      cases callback with
      | none =>
        cases callback' with
        | none => exact .none
        | some => cases given
      | some deliver =>
        cases callback' with
        | none => cases given
        | some deliver' => exact .some (callbacks rfl rfl)
    rw [Machine.runCode, Machine.runCode, h.loader.released]
    split
    · exact h.start (continues (.error (.same _)))
    · exact (h.push (.resumeAfter continues)).importFile hp importer reference hdeliveries
  | openUnit url continues =>
    obtain ⟨hloaders, hresults⟩ := h.loader.openUnit hp url
    exact (h.set_loader hloaders).start (continues hresults)
  | createFromSource url code dependencies given continues =>
    have hmade := h.loader.createFromSource hp url given code dependencies
    exact (h.set_loader hmade.loaders).start (continues hmade.results)
  | createFromFunction url dependencies given bodies continues =>
    have hmade := h.loader.createFromFunction url given bodies dependencies
    exact (h.set_loader hmade.loaders).start (continues hmade.results)
  | createFromResource resource given continues =>
    have hmade := h.loader.unitOfResource hp resource given
    exact (h.set_loader hmade.loaders).start (continues hmade.results)
  | operation kind context continues =>
    obtain ⟨hloaders, hoperation⟩ := h.loader.operation kind context
    rw [Machine.runCode, Machine.runCode]
    dsimp only
    rw [hoperation]
    exact (h.set_loader hloaders).start (continues _)
  | reset continues => exact (h.set_loader h.loader.reset).start continues
  | setHost hhosts continues =>
    exact (h.set_loader (h.loader.set_host hhosts)).start continues
  | setSubstitutions substitutions continues =>
    exact (h.set_loader (h.loader.set_substitutions substitutions)).start continues
  | release continues => exact (h.set_loader (h.loader.release hp)).start continues

theorem Results.map_unit {α β : Type} {rel : α → β → Prop} {result : Except LoaderError α}
    {result' : Except LoaderError β} (h : R.Results rel result result') :
    R.Results Eq (result.map fun _ ↦ ()) (result'.map fun _ ↦ ()) := by
  cases h with
  | ok => exact .ok rfl
  | error herrors => exact .error herrors

/-- **An outcome is handed** to what waits for it in both. -/
theorem resume (h : R.Machines m m') (hp : R.Respects p) {frame frame' : Frame ω χ}
    (hframes : R.Frames frame frame') {outcome outcome' : Outcome}
    (houtcomes : R.Outcomes outcome outcome') :
    R.Machines (m.resume p frame outcome) (m'.resume p frame' outcome') := by
  cases hframes with
  | resume continues => exact h.start (continues houtcomes)
  | resumeAfter continues => exact h.start (continues (Results.map_unit houtcomes))
  | driving continues =>
    cases houtcomes with
    | ok => exact h.drive hp continues
    | error herrors =>
      exact (h.update fun hloaders ↦ hloaders.abort hp herrors).start
        (continues (.settled (.error herrors)))
  | calling previous => exact (h.set_loader (h.loader.set_executing previous)).give houtcomes
  | compiling hpasses executer =>
    cases houtcomes with
    | ok => exact h.continueCompilation hp hpasses executer
    | error herrors => exact h.failCompilation hpasses herrors
  | dispatching id searcher rest =>
    cases houtcomes with
    | ok => exact h.continueDispatching hp id searcher rest
    | error herrors => exact h.throw herrors
  | draining id hwaiting rest =>
    cases houtcomes with
    | ok => exact h.continueDraining id hwaiting rest
    | error herrors =>
      have himports := countP_eq_of_rel hwaiting fun hcallback ↦ Callbacks.isImport hcallback
      rw [Machine.resume, Machine.resume, himports]
      exact (h.update fun hloaders ↦ hloaders.endImports hp _).throw herrors
  | delivering hdeliveries =>
    have hended := h.update fun hloaders ↦ hloaders.endImports hp 1
    cases hdeliveries with
    | none =>
      refine hended.give ?_
      cases houtcomes with
      | ok => exact .ok (R.value_refl _)
      | error herrors => exact .error herrors
    | some hdeliver => exact (hended.push .ignoring).start (hdeliver houtcomes)
  | ignoring => exact h.done
  | aborting =>
    cases houtcomes with
    | ok => exact h.done
    | error herrors =>
      exact (h.update fun hloaders ↦ hloaders.abort hp herrors).throw herrors

/-- **One step** of both, as long as the new one has not halted. -/
theorem step (h : R.Machines m m') (hp : R.Respects p) (running : m'.isHalted = false) :
    R.Machines (m.step p) (m'.step p) := by
  obtain ⟨frames, hstack, hall⟩ := h.stack
  have hcontrol := h.control
  rw [Machine.step.eq_def, Machine.step.eq_def]
  generalize hfirst : m.control = control at hcontrol ⊢
  generalize hsecond : m'.control = control' at hcontrol ⊢
  cases hcontrol with
  | running hcodes => exact h.runCode hp hcodes
  | @returning outcome outcome' houtcomes =>
    generalize hrest : m'.stack = stack' at hall ⊢
    cases hall with
    | nil =>
      rw [Machine.isHalted, hsecond, hrest] at running
      cases running
    | @cons frame frame' rest rest' hframes hall =>
      -- the frame is one of those that have been pushed since, not one from before
      rw [hstack]
      have hpopped : R.Machines { m with stack := rest ++ R.before.stack }
          { m' with stack := rest' } := { h with stack := ⟨rest, rfl, hall⟩ }
      exact hpopped.resume hp hframes houtcomes

end Machines

end ScriptLoader.Likeness
