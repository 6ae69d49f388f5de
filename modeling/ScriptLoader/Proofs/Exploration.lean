import ScriptLoader.Proofs.Account
import ScriptLoader.Proofs.Closure
import ScriptLoader.Proofs.Service

/-!
# Exploring a project

While a loader loads a file of a project, its units are files that the first file reaches, its
results lead where the project says, and it has looked up each key that it has marked, once. This is
so from the moment the first unit is made until all are loaded, in whatever order the lookups
complete: each change of the loader that can happen in between keeps it.

The count of the wave and the account of its references are not looked at again. They are right in
every machine that can be reached.
-/

namespace ScriptLoader

variable {ω χ : Type}

namespace Event

def lookedUpKey? : Event → Option String
  | lookedUp key .. => some key
  | _ => none

/-- Whether an event is about no lookup, and nothing is lost by it. -/
def isPlain : Event → Bool
  | lookedUp .. | found .. | aborted _ | released | reset => false
  | _ => true

theorem isPlain_of_isQuiet {e : Event} (h : e.isQuiet = true) : e.isPlain = true := by
  cases e <;> first | rfl | cases h

theorem lookedUpKey?_of_isPlain {e : Event} (h : e.isPlain = true) : e.lookedUpKey? = none := by
  cases e <;> first | rfl | cases h

theorem filterMap_lookedUpKey?_append {events : List Event} (h : ∀ e ∈ events, e.isPlain = true)
    (journal : List Event) :
    (events ++ journal).filterMap lookedUpKey? = journal.filterMap lookedUpKey? := by
  have hnone : events.filterMap lookedUpKey? = [] :=
    List.filterMap_eq_nil_iff.mpr fun e he ↦ lookedUpKey?_of_isPlain (h e he)
  rw [List.filterMap_append, hnone, List.nil_append]

end Event

namespace Loader

/-! ## Changes that move units along -/

/-- A change of the wave, and of how far units have been loaded. -/
structure Advances (l l' : Loader ω χ) : Prop where
  settings : l'.settings = l.settings
  world : l'.world = l.world
  lookups : l'.lookups = l.lookups
  cache : l'.cache = l.cache
  units : ∃ move : UnitId → LoadStatus → LoadStatus, ∀ id,
    l'.standing? id = (l.standing? id).map fun s ↦ { s with status := move id s.status }
  journal : ∃ events, l'.journal = events ++ l.journal ∧ ∀ e ∈ events, e.isPlain = true

variable {l : Loader ω χ}

theorem advances_settle (l : Loader ω χ) (wave : Wave) : l.Advances (l.settle wave) where
  settings := rfl
  world := rfl
  lookups := rfl
  cache := rfl
  units := ⟨fun _ status ↦ status, fun id ↦ Option.map_id'.symm ▸ rfl⟩
  journal := ⟨[.settled (some wave.outstanding)], rfl, by simp [Event.isPlain]⟩

theorem advances_record (l : Loader ω χ) {e : Event} (h : e.isPlain = true) :
    l.Advances (l.record e) where
  settings := rfl
  world := rfl
  lookups := rfl
  cache := rfl
  units := ⟨fun _ status ↦ status, fun id ↦ Option.map_id'.symm ▸ rfl⟩
  journal := ⟨[e], rfl, by simpa using h⟩

theorem advances_enroll (l : Loader ω χ) (wave : Wave) (id : UnitId)
    (dependencies : List Reference) : l.Advances (l.enroll wave id dependencies) where
  settings := rfl
  world := rfl
  lookups := rfl
  cache := rfl
  units := by
    refine ⟨fun other status ↦ if id = other then .loading else status, fun other ↦ ?_⟩
    rw [standing?_enroll]
    congr 1
    funext s
    by_cases h : id = other <;> simp [h]
  journal := ⟨[.joined id], rfl, by simp [Event.isPlain]⟩

theorem advances_close (l : Loader ω χ) (wave : Wave) : l.Advances (l.close wave) where
  settings := by rw [close, setStatuses_eq]; rfl
  world := by rw [close, setStatuses_eq]; rfl
  lookups := lookups_close l wave
  cache := cache_close l wave
  units := by
    refine ⟨fun id status ↦ if id ∈ wave.participants then .loaded else status, fun id ↦ ?_⟩
    rw [standing?_close]
    congr 1
    funext s
    by_cases h : id ∈ wave.participants <;> simp [h]
  journal := ⟨[.closed wave.participants], journal_close l wave, by simp [Event.isPlain]⟩

theorem advances_beginWave (l : Loader ω χ) (id : UnitId) : l.Advances (l.beginWave id none) where
  settings := rfl
  world := rfl
  lookups := rfl
  cache := rfl
  units := ⟨fun _ status ↦ status, fun other ↦ by
    rw [standing?_beginWave]
    exact Option.map_id'.symm ▸ rfl⟩
  journal := ⟨[], rfl, by simp⟩

end Loader

namespace Project

/-! ## The invariant -/

/-- A unit stands as a file does that the first file reaches, and no callback waits for it. -/
structure IsFile (project : Project) (settings : Settings) (first : Url) (s : Standing ω) :
    Prop where
  reached : project.Reaches settings.substitutions first s.url
  directory : s.url.directory = .ok s.directory
  declared : s.dependencies = project.declared s.url
  callbacks : s.callbacks = []

/-- What may be told of an exploration: lookups of keys that occur are started, for the wave, and
find the files that the project says. Nothing is lost. -/
def Allows (project : Project) (settings : Settings) (first : Url) : Event → Prop
  | .lookedUp key request forImport =>
    project.Occurs settings.substitutions first key request ∧ forImport = false
  | .found key url => ∃ request,
    project.Occurs settings.substitutions first key request ∧ project.target request = some url
  | .aborted _ | .released | .reset => False
  | _ => True

variable {project : Project} {settings : Settings} {first : Url} {p : Platform ω χ}

theorem allows_of_isPlain {e : Event} (h : e.isPlain = true) : project.Allows settings first e := by
  cases e <;> first | exact trivial | cases h

namespace Service

/-- What a loader has come to know of a project is right. -/
structure Explores (service : project.Service settings first p) (l : Loader ω χ) : Prop where
  unchanged : l.settings = settings
  awaited : ∃ awaited, service.Awaits l.world awaited ∧ ∀ k ∈ l.lookups, ∃ request,
    awaited k.ticket = some request ∧ project.Occurs settings.substitutions first k.key request
  tickets : (l.lookups.map (·.ticket)).Nodup
  lookups : ∀ k ∈ l.lookups, k.purpose = .wave ∧ k.key ∈ l.cache.markers
  file : ∀ {id s}, l.standing? id = some s → project.IsFile settings first s
  filed : ∀ {id s}, l.standing? id = some s → l.cache.unit? s.url = some id
  results : ∀ {key id}, l.cache.result? key = some id → key ∈ l.cache.markers ∧ ∃ request url,
    project.Occurs settings.substitutions first key request ∧
      project.target request = some url ∧ l.cache.unit? url = some id
  searched : l.journal.filterMap Event.lookedUpKey? = l.cache.markers
  once : l.cache.markers.Nodup
  allowed : ∀ e ∈ l.journal, project.Allows settings first e
  operations : ∀ {kind text operation}, l.cache.operations.get? (kind, text) = some operation →
    operation.context.text = text ∧ operation.substitutions = settings.substitutions ∧
      ∃ url, project.Reaches settings.substitutions first url ∧
        url.directory = .ok operation.context

namespace Explores

variable {service : project.Service settings first p} {l l' : Loader ω χ}

theorem intact (h : service.Explores l) : Journal.Intact l.journal := by
  intro e he
  have hallowed := h.allowed e he
  cases e <;> first | rfl | cases hallowed

/-- A key that is marked occurs, and has been looked up for the wave. -/
theorem exists_lookedUp (h : service.Explores l) {key : String} (hkey : key ∈ l.cache.markers) :
    ∃ request, .lookedUp key request false ∈ l.journal ∧
      project.Occurs settings.substitutions first key request := by
  rw [← h.searched, List.mem_filterMap] at hkey
  obtain ⟨e, he, hlookedUp⟩ := hkey
  have hallowed := h.allowed e he
  cases e with
  | lookedUp key' request forImport =>
    cases hlookedUp
    obtain ⟨hoccurs, rfl⟩ := hallowed
    exact ⟨request, he, hoccurs⟩
  | _ => cases hlookedUp

theorem consistent (h : service.Explores l)
    (hwhole : project.IsWhole settings.substitutions first) : Journal.Consistent l.journal := by
  intro key url url' hfound hfound'
  obtain ⟨request, hoccurs, htarget⟩ := h.allowed _ hfound
  obtain ⟨request', hoccurs', htarget'⟩ := h.allowed _ hfound'
  rw [hwhole.agree hoccurs hoccurs', htarget'] at htarget
  cases htarget
  rfl

theorem advance (h : service.Explores l) (ha : l.Advances l') : service.Explores l' where
  unchanged := ha.settings.trans h.unchanged
  awaited := by rw [ha.world, ha.lookups]; exact h.awaited
  tickets := by rw [ha.lookups]; exact h.tickets
  lookups := by rw [ha.lookups, ha.cache]; exact h.lookups
  file {id s'} hs := by
    obtain ⟨move, hmove⟩ := ha.units
    rw [hmove, Option.map_eq_some_iff] at hs
    obtain ⟨s, hs, rfl⟩ := hs
    have hfile := h.file hs
    exact ⟨hfile.reached, hfile.directory, hfile.declared, hfile.callbacks⟩
  filed {id s'} hs := by
    obtain ⟨move, hmove⟩ := ha.units
    rw [hmove, Option.map_eq_some_iff] at hs
    obtain ⟨s, hs, rfl⟩ := hs
    have hfiled := h.filed hs
    rw [ha.cache]
    exact hfiled
  results := by rw [ha.cache]; exact h.results
  searched := by
    obtain ⟨events, heq, hevents⟩ := ha.journal
    rw [heq, Event.filterMap_lookedUpKey?_append hevents, ha.cache]
    exact h.searched
  once := by rw [ha.cache]; exact h.once
  allowed := by
    obtain ⟨events, heq, hevents⟩ := ha.journal
    rw [heq]
    exact List.forall_mem_append.mpr ⟨fun e he ↦ allows_of_isPlain (hevents e he), h.allowed⟩
  operations := by rw [ha.cache]; exact h.operations

/-- Nothing is known yet, and that is right. -/
theorem of_fresh (hfresh : l.IsFresh) (hsettings : l.settings = settings)
    {awaited : Ticket → Option Request} (hawaits : service.Awaits l.world awaited) :
    service.Explores l where
  unchanged := hsettings
  awaited := ⟨awaited, hawaits, by simp [hfresh.lookups]⟩
  tickets := by simp [hfresh.lookups]
  lookups := by simp [hfresh.lookups]
  file := by simp [hfresh.standing?]
  filed := by simp [hfresh.standing?]
  results := by simp [hfresh.cache]
  searched := by simp [hfresh.journal, hfresh.cache]
  once := by simp [hfresh.cache]
  allowed := by simp [hfresh.journal]
  operations := by simp [hfresh.cache]

/-! ## What a wave does -/

theorem operation (h : service.Explores l) (hwhole : project.IsWhole settings.substitutions first)
    {url directory : Url} (hreached : project.Reaches settings.substitutions first url)
    (hdirectory : url.directory = .ok directory) :
    service.Explores (l.operation .searcher directory).1 ∧
      (l.operation .searcher directory).2.context = directory ∧
      (l.operation .searcher directory).2.substitutions = settings.substitutions := by
  rw [Loader.operation]
  split
  -- the searcher was made before, for a directory with the same text
  case h_1 operation hoperation =>
    obtain ⟨htext, hsubstitutions, url', hreached', hdirectory'⟩ := h.operations hoperation
    exact ⟨h, hwhole.distinct hreached' hreached hdirectory' hdirectory htext, hsubstitutions⟩
  case h_2 =>
    have hsubstitutions : l.substitutions = settings.substitutions :=
      congrArg Settings.substitutions h.unchanged
    refine ⟨{ h with operations := ?_ }, rfl, hsubstitutions⟩
    intro kind text operation hoperation
    rw [Table.get?_insert] at hoperation
    split at hoperation
    case isTrue heq =>
      cases heq
      cases hoperation
      exact ⟨rfl, hsubstitutions, url, hreached, hdirectory⟩
    case isFalse => exact h.operations hoperation

/-- A key that occurs is asked for, the first time, and a lookup is started. -/
theorem enlist (h : service.Explores l) {key : String} {request : Request}
    (hoccurs : project.Occurs settings.substitutions first key request)
    (hunmarked : key ∉ l.cache.markers) {lookup : Lookup ω}
    (hticket : lookup.ticket = (p.resolver.start l.world request).2) (hkey : lookup.key = key)
    (hpurpose : lookup.purpose = .wave) :
    service.Explores ((l.ask key).enlist (p.resolver.start l.world request).1 request lookup) := by
  obtain ⟨awaited, hawaits, hlookups⟩ := h.awaited
  obtain ⟨hnew, hstarted⟩ := service.start request hawaits
  -- the new ticket is not that of a lookup under way
  have hne : ∀ k ∈ l.lookups, k.ticket ≠ lookup.ticket := by
    intro k hk heq
    obtain ⟨request', hrequest', -⟩ := hlookups k hk
    rw [heq, hticket, hnew] at hrequest'
    cases hrequest'
  have hmarkers : (l.cache.mark key).markers = key :: l.cache.markers :=
    l.cache.markers_mark hunmarked
  have hmarked : ∀ {other}, other ∈ l.cache.markers → other ∈ (l.cache.mark key).markers :=
    fun hother ↦ hmarkers ▸ List.mem_cons_of_mem _ hother
  exact
    { unchanged := h.unchanged
      awaited := by
        refine ⟨_, hstarted, fun k hk ↦ ?_⟩
        rcases List.mem_append.mp hk with hk | hk
        · rw [Function.update_of_ne (hticket ▸ hne k hk)]
          exact hlookups k hk
        · rw [List.mem_singleton.mp hk, hticket, Function.update_self, hkey]
          exact ⟨request, rfl, hoccurs⟩
      tickets := by
        have hlookups : ((l.ask key).enlist (p.resolver.start l.world request).1 request
            lookup).lookups = l.lookups ++ [lookup] := rfl
        rw [hlookups, List.map_append, List.nodup_append]
        refine ⟨h.tickets, List.nodup_singleton _, ?_⟩
        rintro ticket hticket' other hother
        obtain ⟨k, hk, rfl⟩ := List.mem_map.mp hticket'
        rw [List.mem_singleton.mp hother]
        exact hne k hk
      lookups := by
        intro k hk
        rcases List.mem_append.mp hk with hk | hk
        · exact ⟨(h.lookups k hk).1, hmarked (h.lookups k hk).2⟩
        · rw [List.mem_singleton.mp hk, hkey]
          exact ⟨hpurpose, hmarkers ▸ List.mem_cons_self⟩
      file := h.file
      filed := fun hs ↦ (l.cache.unit?_mark key _).trans (h.filed hs)
      results := by
        intro other id hid
        obtain ⟨hother, request', url, hoccurs', htarget, hunit⟩ :=
          h.results ((l.cache.result?_mark key other).symm.trans hid)
        exact ⟨hmarked hother, request', url, hoccurs', htarget,
          (l.cache.unit?_mark key url).trans hunit⟩
      searched := by
        have hjournal : ((l.ask key).enlist (p.resolver.start l.world request).1 request
            lookup).journal.filterMap Event.lookedUpKey?
              = lookup.key :: l.journal.filterMap Event.lookedUpKey? := rfl
        rw [hjournal, h.searched, hkey]
        exact hmarkers.symm
      once := hmarkers ▸ List.nodup_cons.mpr ⟨hunmarked, h.once⟩
      allowed := by
        refine List.forall_mem_cons.mpr ⟨?_, List.forall_mem_cons.mpr ⟨trivial, h.allowed⟩⟩
        rw [hkey, hpurpose]
        exact ⟨hoccurs, rfl⟩
      operations := fun hoperation ↦ h.operations ((l.cache.operations_mark key) ▸ hoperation) }

/-! ## What completing a lookup does -/

/-- As long as lookups are under way, one of them is picked. -/
theorem pick (h : service.Explores l) (hne : l.lookups ≠ []) :
    let picked := p.resolver.next? l.world (l.lookups.map (·.ticket))
    service.Explores { l with world := picked.1 } ∧
      ∃ lookup ∈ l.lookups, picked.2 = some lookup.ticket := by
  obtain ⟨awaited, hawaits, hlookups⟩ := h.awaited
  have htickets : l.lookups.map (·.ticket) ≠ [] := by simpa using hne
  obtain ⟨⟨ticket, hticket, hpicked⟩, hstill⟩ := service.pick hawaits htickets
    fun ticket hticket ↦ by
      obtain ⟨k, hk, rfl⟩ := List.mem_map.mp hticket
      obtain ⟨request, hrequest, -⟩ := hlookups k hk
      rw [hrequest]
      rfl
  obtain ⟨k, hk, rfl⟩ := List.mem_map.mp hticket
  exact ⟨{ h with awaited := ⟨awaited, hstill, hlookups⟩ }, k, hk, hpicked⟩

theorem answer (h : service.Explores l) (hwhole : project.IsWhole settings.substitutions first)
    {before after : List (Lookup ω)} {lookup : Lookup ω}
    (hsplit : l.lookups = before ++ lookup :: after) :
    let answered := p.resolver.answer l.world lookup.ticket
    ∃ request url, project.Occurs settings.substitutions first lookup.key request ∧
      project.target request = some url ∧ answered.2 = .ok (some ⟨url, service.contents url⟩) ∧
      service.Explores
        (({ l with lookups := before ++ after, world := answered.1 } : Loader ω χ).noteFound
          lookup.key answered.2) := by
  obtain ⟨awaited, hawaits, hlookups⟩ := h.awaited
  obtain ⟨request, hrequest, hoccurs⟩ := hlookups lookup (by simp [hsplit])
  obtain ⟨url, htarget⟩ := hwhole.exists_target hoccurs
  obtain ⟨hanswer, hstill⟩ := service.answer hawaits hrequest htarget
  have hsub : ∀ k ∈ before ++ after, k ∈ l.lookups := by
    intro k hk
    rw [hsplit]
    exact List.mem_append.mpr ((List.mem_append.mp hk).imp_right (List.mem_cons_of_mem _))
  have htickets := h.tickets
  rw [hsplit, List.map_append, List.map_cons, List.nodup_middle, ← List.map_append,
    List.nodup_cons] at htickets
  refine ⟨request, url, hoccurs, htarget, hanswer, ?_⟩
  rw [hanswer]
  exact
    { h with
      awaited := by
        refine ⟨_, hstill, fun k hk ↦ ?_⟩
        -- the other lookups have other tickets
        have hne : k.ticket ≠ lookup.ticket := fun heq ↦
          htickets.1 (heq ▸ List.mem_map_of_mem hk)
        rw [Function.update_of_ne hne]
        exact hlookups k (hsub k hk)
      tickets := htickets.2
      lookups := fun k hk ↦ h.lookups k (hsub k hk)
      allowed := List.forall_mem_cons.mpr ⟨⟨request, hoccurs, htarget⟩, h.allowed⟩ }

theorem addFile (h : service.Explores l) {unit : LoadedUnit ω χ}
    (hnone : l.cache.unit? unit.info.url = none)
    (hfile : project.IsFile settings first unit.standing) {world : ω}
    {awaited : Ticket → Option Request} (hawaits : service.Awaits world awaited)
    (hlookups : ∀ k ∈ l.lookups, ∃ request, awaited k.ticket = some request ∧
      project.Occurs settings.substitutions first k.key request)
    {events : List Event} (hquiet : ∀ e ∈ events, e.isQuiet = true) :
    service.Explores
      { l with
        world
        units := l.units ++ [unit]
        cache := l.cache.insertUnit unit.info.url l.units.length
        journal := events ++ l.journal } := by
  -- the URLs that had a unit keep it
  have hold : ∀ {url id}, l.cache.unit? url = some id →
      (l.cache.insertUnit unit.info.url l.units.length).unit? url = some id := by
    intro url id hunit
    rw [ResolutionCache.unit?_insertUnit, if_neg, hunit]
    rintro rfl
    rw [hnone] at hunit
    cases hunit
  have hplain : ∀ e ∈ events, e.isPlain = true := fun e he ↦ Event.isPlain_of_isQuiet (hquiet e he)
  exact
    { h with
      awaited := ⟨awaited, hawaits, hlookups⟩
      file := by
        intro id s hs
        rw [Loader.standing?_append rfl] at hs
        split at hs
        case isTrue => cases hs; exact hfile
        case isFalse => exact h.file hs
      filed := by
        intro id s hs
        rw [Loader.standing?_append rfl] at hs
        split at hs
        case isTrue hlength =>
          cases hs
          rw [ResolutionCache.unit?_insertUnit, hlength]
          exact if_pos rfl
        case isFalse => exact hold (h.filed hs)
      results := by
        intro key id hresult
        obtain ⟨hmarked, request, url, hoccurs, htarget, hunit⟩ := h.results hresult
        exact ⟨hmarked, request, url, hoccurs, htarget, hold hunit⟩
      searched := by
        rw [Event.filterMap_lookedUpKey?_append hplain]
        exact h.searched
      allowed := List.forall_mem_append.mpr
        ⟨fun e he ↦ allows_of_isPlain (hplain e he), h.allowed⟩ }

/-- A file that is reached has a unit, or one can be made. -/
theorem unitOfResource (h : service.Explores l) {url : Url}
    (hreached : project.Reaches settings.substitutions first url) :
    let made := l.unitOfResource p ⟨url, service.contents url⟩
    service.Explores made.1 ∧ ∃ id, made.2 = .ok id ∧ ∀ {other s},
      made.1.standing? other = some s → other = id ∨ l.standing? other = some s := by
  dsimp only
  rw [Loader.unitOfResource]
  cases hcached : l.cache.unit? url with
  | some id => exact ⟨h.advance (l.advances_record rfl), id, rfl, .inr⟩
  | none =>
    obtain ⟨awaited, hawaits, hlookups⟩ := h.awaited
    obtain ⟨⟨id, s, hid, hs, hdeclared⟩, hstill⟩ := service.make hawaits h.unchanged hreached
    have hmakes := l.makes_createOfResource p ⟨url, service.contents url⟩
    rcases hmade : l.createOfResource p ⟨url, service.contents url⟩ with ⟨l', result⟩
    rw [hmade] at hid hs hstill hmakes
    -- the promise of the platform rules out that no unit could be made
    cases hmakes with
    | failed => cases hid
    | made world events unit hquiet hnew hnamed hdirectory =>
      cases hid
      rw [Loader.standing?_append rfl, if_pos rfl] at hs
      cases hs
      have hurl : unit.info.url = url := hnamed
      subst hurl
      have hfile : project.IsFile settings first unit.standing :=
        ⟨hreached, hdirectory, hdeclared, hnew.callbacks⟩
      have hadded := (h.addFile hcached hfile hstill hlookups hquiet).advance
        (Loader.advances_record _ (e := .obtained unit.info.url l.units.length) rfl)
      refine ⟨hadded, _, rfl, fun hs ↦ ?_⟩
      replace hs := (Loader.standing?_append rfl _).symm.trans hs
      split at hs
      case isTrue hlength => exact .inl hlength
      case isFalse => exact .inr hs

/-- A marked key has led to the file that its request leads to. -/
theorem insertResult (h : service.Explores l) {key : String} {request : Request} {url : Url}
    {id : UnitId} (hmarked : key ∈ l.cache.markers)
    (hoccurs : project.Occurs settings.substitutions first key request)
    (htarget : project.target request = some url) (hunit : l.cache.unit? url = some id) :
    service.Explores { l with cache := l.cache.insertResult key id } where
  __ := h
  results := by
    intro other id' hresult
    rw [ResolutionCache.result?_insertResult] at hresult
    split at hresult
    case isTrue heq =>
      cases hresult
      exact ⟨heq ▸ hmarked, request, url, heq ▸ hoccurs, htarget, hunit⟩
    case isFalse => exact h.results hresult

end Explores

end Service

end Project

end ScriptLoader
