import Mathlib.Logic.Function.Basic
import ScriptLoader.Proofs.Reach
import ScriptLoader.Proofs.Standing

/-!
# Serving a project

A platform serves a project if each lookup is answered as the project says, and if a unit can be
made of each file that matters. Nothing is said of the order in which lookups complete: whenever
some are offered, the platform picks one of them.

What a platform does depends on its world, so the promise is made for worlds in which certain
lookups are under way, and each operation says which are under way after it.
-/

namespace ScriptLoader

variable {ω χ : Type}

/-- What of a loader matters for what is asked for and what units are made of. -/
structure Settings where
  host : HostBindings
  config : Config
  substitutions : Substitutions

def Loader.settings (l : Loader ω χ) : Settings := ⟨l.host, l.config, l.substitutions⟩

namespace Project

/-- How a platform serves a project, as far as a file reaches, to loaders with certain settings. -/
structure Service (project : Project) (settings : Settings) (first : Url) (p : Platform ω χ) where
  contents : Url → String
  /-- In a world, the lookups of some tickets are under way, each for a request. -/
  Awaits : ω → (Ticket → Option Request) → Prop
  /-- A lookup that is started gets a new ticket. -/
  start : ∀ {world awaited} request, Awaits world awaited →
    let started := p.resolver.start world request
    awaited started.2 = none ∧
      Awaits started.1 (Function.update awaited started.2 (some request))
  /-- Of lookups that are under way, one is picked. -/
  pick : ∀ {world awaited tickets}, Awaits world awaited → tickets ≠ [] →
    (∀ ticket ∈ tickets, (awaited ticket).isSome) →
    let picked := p.resolver.next? world tickets
    (∃ ticket ∈ tickets, picked.2 = some ticket) ∧ Awaits picked.1 awaited
  /-- A request that leads to a file is answered with this file. -/
  answer : ∀ {world awaited ticket request url}, Awaits world awaited →
    awaited ticket = some request → project.target request = some url →
    let answered := p.resolver.answer world ticket
    answered.2 = .ok (some ⟨url, contents url⟩) ∧
      Awaits answered.1 (Function.update awaited ticket none)
  /-- A unit can be made of a file, and it declares what the project says. -/
  make : ∀ {l : Loader ω χ} {awaited url}, Awaits l.world awaited → l.settings = settings →
    project.Reaches settings.substitutions first url →
    let made := l.createOfResource p ⟨url, contents url⟩
    (∃ id s, made.2 = .ok id ∧ made.1.standing? id = some s ∧
      s.dependencies = project.declared url) ∧ Awaits made.1.world awaited

theorem createOfResource_platform (project : Project) (pick : List Ticket → Option Ticket)
    (l : Loader (List Request) Unit) {url directory : Url} (h : url.directory = .ok directory) :
    ∃ unit : LoadedUnit (List Request) Unit, unit.info.dependencies = project.declared url ∧
      l.createOfResource (project.platform pick) ⟨url, ""⟩
        = ({ l with units := l.units ++ [unit] }.record (.read url), .ok l.units.length) := by
  obtain ⟨compiler, hcompiler, hfirst⟩ : ∃ compiler : Compiler (List Request) Unit,
      (project.platform pick).compiler = some compiler ∧ ∀ view source url,
        compiler.firstPass view source url = (view.world, .ok (project.declared url, ())) :=
    ⟨_, rfl, fun _ _ _ ↦ rfl⟩
  obtain ⟨info, hcreate, hdeclared⟩ : ∃ info,
      UnitInfo.create url (project.declared url) none none = .ok info ∧
        info.dependencies = project.declared url := by
    rw [UnitInfo.create, h]
    exact ⟨_, rfl, rfl⟩
  refine ⟨{ info, body := .pending compiler () }, hdeclared, ?_⟩
  have hplain : Bundle.isMarked ("" : String).toList = false := by decide
  rw [Loader.createOfResource, hplain, if_neg Bool.false_ne_true, hcompiler]
  simp only [Loader.createPending, hfirst, hcreate]
  rfl

/-- The platform of a project serves it, provided that one of the lookups is always picked. A ticket
is the position of a request in the world. -/
def service (project : Project) {pick : List Ticket → Option Ticket}
    (hpick : ∀ {tickets}, tickets ≠ [] → ∃ ticket ∈ tickets, pick tickets = some ticket)
    (settings : Settings) {first : Url}
    (hdirectory : ∀ {url}, project.Reaches settings.substitutions first url →
      ∃ directory, url.directory = .ok directory) :
    project.Service settings first (project.platform pick) where
  contents _ := ""
  Awaits made awaited := ∀ {ticket request}, awaited ticket = some request →
    made[ticket]? = some request
  start {made awaited} request h := by
    have hstarted : (project.platform pick).resolver.start made request
        = (made ++ [request], made.length) := by
      cases request <;> rfl
    rw [hstarted]
    refine ⟨?_, fun {ticket request'} hrequest ↦ ?_⟩
    · by_contra hsome
      obtain ⟨request', hrequest⟩ := Option.ne_none_iff_exists'.mp hsome
      have := h hrequest
      simp at this
    · by_cases hticket : ticket = made.length
      · subst hticket
        simpa using hrequest
      · rw [Function.update_of_ne hticket] at hrequest
        rw [List.getElem?_append_left (List.getElem?_eq_some_iff.mp (h hrequest)).1, h hrequest]
  pick h hne _ := ⟨hpick hne, h⟩
  answer {made awaited ticket request url} h hrequest htarget := by
    refine ⟨?_, fun {ticket' request'} hrequest' ↦ ?_⟩
    · simp [platform, h hrequest, htarget]
    · by_cases hticket : ticket' = ticket
      · subst hticket
        simp at hrequest'
      · rw [Function.update_of_ne hticket] at hrequest'
        exact h hrequest'
  make {l awaited url} h _ hreaches := by
    obtain ⟨directory, hdirectory⟩ := hdirectory hreaches
    obtain ⟨unit, hdeclared, hmade⟩ :=
      project.createOfResource_platform pick l hdirectory
    rw [hmade]
    exact ⟨⟨_, _, rfl, (Loader.standing?_append rfl _).trans (if_pos rfl), hdeclared⟩, h⟩

end Project

end ScriptLoader
