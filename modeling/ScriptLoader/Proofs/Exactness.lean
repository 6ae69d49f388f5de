import ScriptLoader.Proofs.Completion

/-!
# A load computes what is reached

When a load of a whole project has come to its end, the loader has just the units of the files that
the first file reaches, all of them loaded, and has looked up each key among them once. All this is
said by the project alone: neither the order in which the lookups completed, nor anything else that
was up to the platform, has left a trace. The closure of the first unit is that of the project, in
the same order.
-/

namespace ScriptLoader

variable {ω χ : Type}

namespace Loader

def url? (l : Loader ω χ) (id : UnitId) : Option Url := (l.unit? id).map (·.info.url)

/-- Two loaders know the same files and have looked them up in the same way, if perhaps in another
order. Each has a unit from which the closure is seen. -/
structure Agrees {ω' χ' : Type} (l : Loader ω χ) (root : UnitId) (l' : Loader ω' χ')
    (root' : UnitId) : Prop where
  units : (l.units.map (·.info.url)).Perm (l'.units.map (·.info.url))
  markers : l.cache.markers.Perm l'.cache.markers
  results : ∀ key, (l.cache.result? key).bind l.url? = (l'.cache.result? key).bind l'.url?
  lookups : ∀ key request forImport,
    .lookedUp key request forImport ∈ l.journal ↔ .lookedUp key request forImport ∈ l'.journal
  closure : (l.view.closure root).map l.url? = (l'.view.closure root').map l'.url?

end Loader

namespace Project

/-- A loader has loaded the files that the first file reaches, and nothing else. -/
structure Loaded (project : Project) (substitutions : Substitutions) (first : Url) (root : UnitId)
    (l : Loader ω χ) : Prop where
  rooted : l.cache.unit? first = some root
  loaded : ∀ unit ∈ l.units, unit.info.status = .loaded
  /-- There are units of the files that are reached, -/
  files : ∀ url, url ∈ l.units.map (·.info.url) ↔ project.Reaches substitutions first url
  /-- one of each file. -/
  once : (l.units.map (·.info.url)).Nodup
  filed : ∀ url id, l.cache.unit? url = some id ↔ l.url? id = some url
  /-- A key has been asked for if it occurs, -/
  marked : ∀ key, key ∈ l.cache.markers ↔
    ∃ request, project.Occurs substitutions first key request
  markedOnce : l.cache.markers.Nodup
  /-- and has been looked up for the wave, -/
  lookedUp : ∀ key request forImport, .lookedUp key request forImport ∈ l.journal ↔
    project.Occurs substitutions first key request ∧ forImport = false
  /-- only once, -/
  lookedUpOnce : (l.journal.filterMap Event.lookedUpKey?).Nodup
  /-- and it led to the unit of the file that its request leads to. -/
  results : ∀ key id, l.cache.result? key = some id ↔ ∃ request url,
    project.Occurs substitutions first key request ∧ project.target request = some url ∧
      l.cache.unit? url = some id
  closure : (l.view.closure root).map l.url? = (project.closure substitutions first).map some

namespace Loaded

variable {project : Project} {substitutions : Substitutions} {first : Url} {root : UnitId}
  {l : Loader ω χ}

theorem result?_bind_eq_some_iff (h : project.Loaded substitutions first root l) {key : String}
    {url : Url} : (l.cache.result? key).bind l.url? = some url ↔ ∃ request,
      project.Occurs substitutions first key request ∧ project.target request = some url := by
  rw [Option.bind_eq_some_iff]
  constructor
  · rintro ⟨id, hresult, hurl⟩
    obtain ⟨request, url', hoccurs, htarget, hfiled⟩ := (h.results key id).mp hresult
    rw [(h.filed url' id).mp hfiled] at hurl
    cases hurl
    exact ⟨request, hoccurs, htarget⟩
  · rintro ⟨request, hoccurs, htarget⟩
    obtain ⟨unit, hunit, hurl⟩ := List.mem_map.mp ((h.files url).mpr (hoccurs.reaches htarget))
    obtain ⟨id, hid⟩ := List.mem_iff_getElem?.mp hunit
    have hfiled : l.url? id = some url := Option.map_eq_some_iff.mpr ⟨unit, hid, hurl⟩
    exact ⟨id, (h.results key id).mpr ⟨request, url, hoccurs, htarget, (h.filed url id).mpr hfiled⟩,
      hfiled⟩

/-- What has been loaded leaves nothing open. -/
theorem agrees {ω' χ' : Type} {l' : Loader ω' χ'} {root' : UnitId}
    (h : project.Loaded substitutions first root l)
    (h' : project.Loaded substitutions first root' l') : l.Agrees root l' root' where
  units := (List.perm_ext_iff_of_nodup h.once h'.once).mpr fun url ↦
    (h.files url).trans (h'.files url).symm
  markers := (List.perm_ext_iff_of_nodup h.markedOnce h'.markedOnce).mpr fun key ↦
    (h.marked key).trans (h'.marked key).symm
  results _ := Option.ext fun _ ↦
    h.result?_bind_eq_some_iff.trans h'.result?_bind_eq_some_iff.symm
  lookups key request forImport :=
    (h.lookedUp key request forImport).trans (h'.lookedUp key request forImport).symm
  closure := h.closure.trans h'.closure.symm

end Loaded

variable {project : Project} {settings : Settings} {first : Url} {p : Platform ω χ}

/-! ## Walks -/

/-- A walk through the units of a loader has come as far as one through the files of a project. -/
structure Matches (l : Loader ω χ) (w : View.Walk) (w' : List Url × List Url) : Prop where
  seen : w.seen = w'.1
  listed : w.listed.map l.url? = w'.2.map some

theorem matches_foldl {l : Loader ω χ} {step : View.Walk → UnitId → View.Walk}
    {step' : List Url × List Url → Url → List Url × List Url}
    (h : ∀ id url w w', l.url? id = some url → Matches l w w' →
      Matches l (step w id) (step' w' url))
    {ids : List UnitId} {urls : List Url} (hurls : ids.map l.url? = urls.map some) {w : View.Walk}
    {w' : List Url × List Url} (hw : Matches l w w') :
    Matches l (ids.foldl step w) (urls.foldl step' w') := by
  induction ids generalizing urls w w' with
  | nil =>
    rw [List.map_nil, eq_comm, List.map_eq_nil_iff] at hurls
    rw [hurls]
    exact hw
  | cons id ids ih =>
    cases urls with
    | nil => cases hurls
    | cons url urls =>
      rw [List.map_cons, List.map_cons, List.cons.injEq] at hurls
      exact ih hurls.2 (h _ _ _ _ hurls.1 hw)

/-- Walks match if the references of each unit lead to the files that its file refers to. -/
theorem matches_walk {l : Loader ω χ} {substitutions : Substitutions}
    (h : ∀ {id unit}, l.unit? id = some unit →
      (unit.info.dependencies.filterMap fun r ↦ l.cache.result? (unit.info.key r)).map l.url?
        = (project.targets substitutions unit.info.url).map some)
    (depth : Nat) {id : UnitId} {url : Url} (hurl : l.url? id = some url) {w : View.Walk}
    {w' : List Url × List Url} (hw : Matches l w w') :
    Matches l (l.view.walk depth id w) (project.walk substitutions depth url w') := by
  induction depth generalizing id url w w' with
  | zero => exact hw
  | succ depth ih =>
    obtain ⟨unit, hunit, rfl⟩ := Option.map_eq_some_iff.mp hurl
    have hview : l.view.unit? id = some unit.view := congrArg (Option.map _) hunit
    rw [View.walk, hview, walk]
    dsimp only [LoadedUnit.view]
    by_cases hseen : w.seen.contains unit.info.url
    · rw [if_pos hseen, if_pos (hw.seen ▸ hseen)]
      exact hw
    · rw [if_neg hseen, if_neg (hw.seen ▸ hseen)]
      -- first the walks to the targets, then the unit itself
      have htargets : (unit.info.dependencies.filterMap fun r ↦
          l.view.cachedResult? (unit.info.key r)).map l.url?
            = (project.targets substitutions unit.info.url).map some := h hunit
      have hpushed : Matches l { w with seen := unit.info.url :: w.seen }
          (unit.info.url :: w'.1, w'.2) := ⟨by rw [hw.seen], hw.listed⟩
      have hbelow := matches_foldl (fun _ _ _ _ hurl hw ↦ ih hurl hw) htargets hpushed
      have hself : l.url? id = some unit.info.url := hurl
      refine ⟨hbelow.seen, ?_⟩
      rw [List.map_append, List.map_append, hbelow.listed, List.map_singleton, hself,
        List.map_singleton]

/-! ## What has been loaded -/

namespace Service.Explores

variable {service : project.Service settings first p} {l : Loader ω χ}

theorem url?_eq_some_iff (h : service.Explores l) (htidy : l.Tidy) {url : Url} {id : UnitId} :
    l.cache.unit? url = some id ↔ l.url? id = some url := by
  constructor
  · intro hfiled
    obtain ⟨s, hs, hurl⟩ := htidy.unit hfiled
    obtain ⟨unit, hunit, rfl⟩ := Loader.standing?_eq_some.mp hs
    exact Option.map_eq_some_iff.mpr ⟨unit, hunit, hurl⟩
  · intro hurl
    obtain ⟨unit, hunit, rfl⟩ := Option.map_eq_some_iff.mp hurl
    exact h.filed (Loader.standing?_of_unit? hunit)

theorem nodup_urls (h : service.Explores l) (htidy : l.Tidy) :
    (l.units.map (·.info.url)).Nodup := by
  have hfiled : ∀ {k : Nat}, k < l.units.length →
      l.cache.unit? ((l.units.map (·.info.url))[k]?.getD first) = some k := by
    intro k hk
    refine (h.url?_eq_some_iff htidy).mpr ?_
    simp [Loader.url?, Loader.unit?, hk]
  rw [List.nodup_iff_getElem?_ne_getElem?]
  intro i j hij hj heq
  rw [List.length_map] at hj
  have hi := hfiled (hij.trans hj)
  rw [heq, hfiled hj] at hi
  cases hi
  exact Nat.lt_irrefl _ hij

/-- What a complete unit asks for led to the unit of the file that the project says. -/
theorem exists_result (h : service.Explores l)
    (hwhole : project.IsWhole settings.substitutions first) {id : UnitId} {unit : LoadedUnit ω χ}
    (hunit : l.unit? id = some unit) (hcomplete : l.Complete id) {key : String} {request : Request}
    (hask : (key, request) ∈ project.asks settings.substitutions unit.info.url) {url : Url}
    (htarget : project.target request = some url) :
    ∃ id', l.cache.result? key = some id' ∧ l.cache.unit? url = some id' := by
  have hfile := h.file (Loader.standing?_of_unit? hunit)
  have hdirectory : unit.info.url.directory = .ok unit.info.directory := hfile.directory
  obtain ⟨r, hr, rfl, hrequest⟩ := (mem_asks_iff hdirectory).mp hask
  obtain ⟨unit', hunit', -, hled⟩ := hcomplete
  rw [hunit] at hunit'
  cases hunit'
  have hdeclared : unit.info.dependencies = project.declared unit.info.url := hfile.declared
  obtain ⟨id', hresult, -⟩ := hled r (hdeclared ▸ hr)
  obtain ⟨-, request', url', hoccurs', htarget', hfiled⟩ := h.results hresult
  rw [hwhole.agree hoccurs' ⟨_, hfile.reached, hask⟩, htarget] at htarget'
  cases htarget'
  exact ⟨id', hresult, hfiled⟩

/-- The references of a complete unit led to the units of the files that its file refers to. -/
theorem targets_eq (h : service.Explores l)
    (hwhole : project.IsWhole settings.substitutions first) (htidy : l.Tidy) {id : UnitId}
    {unit : LoadedUnit ω χ} (hunit : l.unit? id = some unit) (hcomplete : l.Complete id) :
    (unit.info.dependencies.filterMap fun r ↦ l.cache.result? (unit.info.key r)).map l.url?
      = (project.targets settings.substitutions unit.info.url).map some := by
  have hfile := h.file (Loader.standing?_of_unit? hunit)
  have hdirectory : unit.info.url.directory = .ok unit.info.directory := hfile.directory
  have hdeclared : unit.info.dependencies = project.declared unit.info.url := hfile.declared
  rw [targets, asks, hdirectory, hdeclared, List.filterMap_filterMap]
  -- each reference leads to one file on both sides
  have hled : ∀ r ∈ project.declared unit.info.url, ∃ id url,
      l.cache.result? (unit.info.key r) = some id ∧ l.url? id = some url ∧
        (((searcher settings.substitutions unit.info.directory).request r).toOption.map
          (r.key unit.info.directory.text, ·)).bind
            (fun ask ↦ project.target ask.2) = some url := by
    intro r hr
    obtain ⟨request, url, hrequest, htarget⟩ := hwhole.found hfile.reached hdirectory r hr
    have hask := (mem_asks_iff hdirectory).mpr ⟨r, hr, rfl, hrequest⟩
    obtain ⟨id', hresult, hfiled⟩ := h.exists_result hwhole hunit hcomplete hask htarget
    refine ⟨id', url, hresult, (h.url?_eq_some_iff htidy).mp hfiled, ?_⟩
    rw [hrequest]
    exact htarget
  generalize project.declared unit.info.url = references at hled
  induction references with
  | nil => rfl
  | cons r rest ih =>
    obtain ⟨⟨id, url, hresult, hurl, htarget⟩, hrest⟩ := List.forall_mem_cons.mp hled
    simp only [List.filterMap_cons, hresult, htarget, List.map_cons, hurl, ih hrest]

variable (h : service.Explores l) (hwhole : project.IsWhole settings.substitutions first)
  (htidy : l.Tidy) (hcomplete : ∀ {id unit}, l.unit? id = some unit → l.Complete id)
  {root : UnitId} (hroot : l.cache.unit? first = some root)

include h hwhole htidy hcomplete hroot

theorem exists_unit {url : Url} (hreached : project.Reaches settings.substitutions first url) :
    ∃ id unit, l.unit? id = some unit ∧ unit.info.url = url := by
  have hunit : ∀ {url id}, l.cache.unit? url = some id →
      ∃ id unit, l.unit? id = some unit ∧ unit.info.url = url := by
    intro url id hfiled
    exact ⟨id, Option.map_eq_some_iff.mp ((h.url?_eq_some_iff htidy).mp hfiled)⟩
  induction hreached with
  | refl => exact hunit hroot
  | tail _ hlast ih =>
    obtain ⟨id, unit, hid, rfl⟩ := ih
    obtain ⟨⟨key, request⟩, hask, htarget⟩ := List.mem_filterMap.mp hlast
    obtain ⟨id', -, hfiled⟩ := h.exists_result hwhole hid (hcomplete hid) hask htarget
    exact hunit hfiled

/-- A key that occurs led to the unit of the file that its request leads to. -/
theorem exists_result_of_occurs {key : String} {request : Request} {url : Url}
    (hoccurs : project.Occurs settings.substitutions first key request)
    (htarget : project.target request = some url) :
    ∃ id, l.cache.result? key = some id ∧ l.cache.unit? url = some id := by
  obtain ⟨url', hreached, hask⟩ := hoccurs
  obtain ⟨id, unit, hunit, rfl⟩ := h.exists_unit hwhole htidy hcomplete hroot hreached
  exact h.exists_result hwhole hunit (hcomplete hunit) hask htarget

theorem mem_markers_iff {key : String} : key ∈ l.cache.markers ↔
    ∃ request, project.Occurs settings.substitutions first key request := by
  constructor
  · intro hkey
    obtain ⟨request, -, hoccurs⟩ := h.exists_lookedUp hkey
    exact ⟨request, hoccurs⟩
  · rintro ⟨request, hoccurs⟩
    obtain ⟨url, htarget⟩ := hwhole.exists_target hoccurs
    obtain ⟨id, hresult, -⟩ :=
      h.exists_result_of_occurs hwhole htidy hcomplete hroot hoccurs htarget
    exact (h.results hresult).1

theorem mem_urls_iff {url : Url} : url ∈ l.units.map (·.info.url) ↔
    project.Reaches settings.substitutions first url := by
  rw [List.mem_map]
  constructor
  · rintro ⟨unit, hunit, rfl⟩
    obtain ⟨id, hid⟩ := List.mem_iff_getElem?.mp hunit
    exact (h.file (Loader.standing?_of_unit? hid)).reached
  · intro hreached
    obtain ⟨id, unit, hunit, hurl⟩ := h.exists_unit hwhole htidy hcomplete hroot hreached
    exact ⟨unit, List.mem_of_getElem? hunit, hurl⟩

theorem ncard_eq :
    {url | project.Reaches settings.substitutions first url}.ncard = l.units.length := by
  have hset : {url | project.Reaches settings.substitutions first url}
      = ↑(l.units.map (·.info.url)).toFinset := by
    ext url
    simp [← h.mem_urls_iff hwhole htidy hcomplete hroot]
  rw [hset, Set.ncard_coe_finset, List.toFinset_card_of_nodup (h.nodup_urls htidy), List.length_map]

theorem lookedUp_iff {key : String} {request : Request} {forImport : Bool} :
    .lookedUp key request forImport ∈ l.journal ↔
      project.Occurs settings.substitutions first key request ∧ forImport = false := by
  constructor
  · intro he
    exact h.allowed _ he
  · rintro ⟨hoccurs, rfl⟩
    have hmarked := (h.mem_markers_iff hwhole htidy hcomplete hroot).mpr ⟨request, hoccurs⟩
    obtain ⟨request', he, hoccurs'⟩ := h.exists_lookedUp hmarked
    rw [hwhole.agree hoccurs hoccurs']
    exact he

theorem result?_eq_some_iff {key : String} {id : UnitId} : l.cache.result? key = some id ↔
    ∃ request url, project.Occurs settings.substitutions first key request ∧
      project.target request = some url ∧ l.cache.unit? url = some id := by
  constructor
  · intro hresult
    exact (h.results hresult).2
  · rintro ⟨request, url, hoccurs, htarget, hfiled⟩
    obtain ⟨id', hresult, hfiled'⟩ :=
      h.exists_result_of_occurs hwhole htidy hcomplete hroot hoccurs htarget
    rw [hfiled] at hfiled'
    cases hfiled'
    exact hresult

/-- A loader whose units are complete has loaded what is reached. -/
theorem loaded : project.Loaded settings.substitutions first root l where
  rooted := hroot
  loaded unit hunit := by
    obtain ⟨id, hid⟩ := List.mem_iff_getElem?.mp hunit
    obtain ⟨unit', hunit', hloaded, -⟩ := hcomplete hid
    have hsame : unit = unit' := Option.some.inj (hid.symm.trans hunit')
    rw [hsame]
    exact hloaded
  files _ := h.mem_urls_iff hwhole htidy hcomplete hroot
  once := h.nodup_urls htidy
  filed _ _ := h.url?_eq_some_iff htidy
  marked _ := h.mem_markers_iff hwhole htidy hcomplete hroot
  markedOnce := h.once
  lookedUp _ _ _ := h.lookedUp_iff hwhole htidy hcomplete hroot
  lookedUpOnce := h.searched ▸ h.once
  results _ _ := h.result?_eq_some_iff hwhole htidy hcomplete hroot
  closure := by
    have hstart : Matches l {} ([], []) := ⟨rfl, rfl⟩
    have hwalk := matches_walk (fun hunit ↦ h.targets_eq hwhole htidy hunit (hcomplete hunit))
      l.units.length ((h.url?_eq_some_iff htidy).mp hroot) hstart
    rw [closure, h.ncard_eq hwhole htidy hcomplete hroot]
    exact hwalk.listed

end Service.Explores

/-! ## Loads -/

/-- **A load computes just what is reached.** If a platform serves a project that is whole from the
first file on, a fresh loader opens and loads that file without an error, in whatever order the
platform completes the lookups. Then it has loaded the files that the first file reaches, has looked
up each key among them once, and remembers for each key where its request leads. So it agrees with
any other loader that has loaded the file, on whatever platform. -/
theorem load_exact {project : Project} {first : Url} {p : Platform ω χ} {l : Loader ω χ}
    (service : project.Service l.settings first p) (hfresh : l.IsFresh)
    (hawaits : service.Awaits l.world fun _ ↦ none)
    (hwhole : project.IsWhole l.substitutions first) {url : Url}
    (hfirst : project.target (.resolve url l.substitutions) = some first) (stall : LoaderError) :
    ∃ l' root, Machine.Ends p [] l (Machine.loadEntry url stall) (.ok .undefined) l' ∧
      project.Loaded l.substitutions first root l' ∧
      ∀ {ω' χ' : Type} {l'' : Loader ω' χ'} {root' : UnitId},
        project.Loaded l.substitutions first root' l'' → l'.Agrees root l'' root' := by
  obtain ⟨l', root, hends, hexplores, htidy, hcomplete, hroot⟩ :=
    service.exists_ends hfresh rfl hawaits hwhole hfirst stall
  have hloaded := hexplores.loaded hwhole htidy hcomplete hroot
  exact ⟨l', root, hends, hloaded, fun hloaded' ↦ hloaded.agrees hloaded'⟩

def diamondFiles : List Url := ["/a", "/b", "/c", "/d"].map fun path ↦ .file path.toList

def freshLoader : Loader (List Request) Unit := { world := [], base := .file "/".toList }

theorem diamond_closed : ∀ url ∈ diamondFiles, ∀ url' ∈ diamond.targets {} url,
    url' ∈ diamondFiles := by
  decide +kernel

theorem diamond_directory : ∀ url ∈ diamondFiles,
    url.directory.toOption = some (.file "/".toList) := by
  decide +kernel

/-- The diamond is loaded in the same way whether the oldest or the newest lookup is completed. -/
theorem load_exact_diamond :
    ∃ l root l' root', Machine.Ends (diamond.platform List.head?) [] freshLoader
        (Machine.loadEntry (.file "/a".toList) .detached) (.ok .undefined) l ∧
      Machine.Ends (diamond.platform List.getLast?) [] freshLoader
        (Machine.loadEntry (.file "/a".toList) .detached) (.ok .undefined) l' ∧
      diamond.Loaded {} (.file "/a".toList) root l ∧ l.Agrees root l' root' := by
  have hfresh : freshLoader.IsFresh := Loader.isFresh_mk _ _
  have hfirst : Url.file "/a".toList ∈ diamondFiles := by decide +kernel
  have hwhole : diamond.IsWhole {} (.file "/a".toList) :=
    isWhole_of_files hfirst diamond_closed diamond_directory (by decide +kernel) (by decide +kernel)
  have hdirectory : ∀ {url}, diamond.Reaches {} (.file "/a".toList) url →
      ∃ directory, url.directory = .ok directory := by
    intro url hreached
    have hfound := diamond_directory url (hreached.mem hfirst diamond_closed)
    cases hdirectory : url.directory with
    | error e => rw [hdirectory] at hfound; cases hfound
    | ok directory => exact ⟨directory, rfl⟩
  have hawaits : ∀ {ticket : Ticket} {request : Request}, none = some request →
      freshLoader.world[ticket]? = some request := fun h ↦ by cases h
  obtain ⟨l, root, hends, hloaded, hagrees⟩ := load_exact (diamond.service
    (fun {tickets} hne ↦ ⟨tickets.head hne, List.head_mem hne, List.head?_eq_some_head hne⟩)
    freshLoader.settings hdirectory) hfresh hawaits hwhole rfl .detached
  obtain ⟨l', root', hends', hloaded', -⟩ := load_exact (diamond.service
    (fun {tickets} hne ↦ ⟨tickets.getLast hne, List.getLast_mem hne,
      List.getLast?_eq_some_getLast hne⟩)
    freshLoader.settings hdirectory) hfresh hawaits hwhole rfl .detached
  exact ⟨l, root, l', root', hends, hends', hloaded, hagrees hloaded'⟩

end Project

end ScriptLoader
