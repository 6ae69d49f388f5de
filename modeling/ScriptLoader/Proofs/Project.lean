import ScriptLoader.Loader.Step

/-!
# Projects

A project says which file each request leads to and which references each file declares. That is all
of a file system that the loading of files depends on.

## A platform for a project

Every project can be served: `Project.platform` answers each request as the project says and hands
out the references that it declares. The order in which lookups complete is left to a function.
-/

namespace ScriptLoader

/-- Where requests lead and what files declare. -/
structure Project where
  /-- The URL of the file that a request leads to, if it leads to one. -/
  target : Request → Option Url
  declared : Url → List Reference

namespace Project

/-- A platform that serves the project. Its world is the list of all requests that have been made; a
ticket is the position of a request in it. -/
def platform (project : Project) (pick : List Ticket → Option Ticket) :
    Platform (List Request) Unit where
  resolver :=
    { includePaths := fun _ ↦ []
      resolve := fun made url substitutions ↦ (made ++ [.resolve url substitutions], made.length)
      search := fun made locator ↦ (made ++ [.search locator], made.length)
      next? := fun made tickets ↦ (made, pick tickets)
      answer := fun made ticket ↦
        (made, .ok ((made[ticket]?.bind project.target).map fun url ↦ ⟨url, ""⟩))
      cancel := fun made _ ↦ made
      enableCaching := id
      disableCaching := id }
  engine :=
    { headerLines := fun _ ↦ 0
      synthesize := fun made _ ↦ (made, .ok fun _ ↦ .finish (.ok .undefined)) }
  compiler := some
    { firstPass := fun view _ url ↦ (view.world, .ok (project.declared url, ()))
      enterImport := fun made file _ ↦ (made, file)
      leaveImport := fun made file ↦ (made, file)
      secondPass := fun made file ↦ (made, file, ⟨"", none⟩)
      diagnostics := fun _ ↦ []
      wording := fun _ _ ↦ "" }
  write := fun made _ ↦ (made, .ok ⟨⟩)

/-- A project of which only some files can be found. -/
def restrict (project : Project) (files : List Url) : Project :=
  { project with target := fun request ↦ (project.target request).filter (· ∈ files) }

theorem mem_of_answer {project : Project} {files : List Url}
    {pick : List Ticket → Option Ticket} (world : List Request) (ticket : Ticket)
    (resource : Resource)
    (h : (((project.restrict files).platform pick).resolver.answer world ticket).2
      = .ok (some resource)) : resource.url ∈ files := by
  obtain ⟨url, hurl, rfl⟩ := Option.map_eq_some_iff.mp (Except.ok.inj h)
  obtain ⟨request, -, htarget⟩ := Option.bind_eq_some_iff.mp hurl
  exact of_decide_eq_true (Option.filter_eq_some_iff.mp htarget).2

/-- Two files that refer to each other. -/
def pair : Project where
  target
    | .resolve url _ => some url
    | .search _ => none
  declared url := if url.text = "file:///a" then [⟨"b", true⟩] else [⟨"a", true⟩]

/-- Four files that refer to each other in a diamond, one of them twice, and back to the first. -/
def diamond : Project where
  target
    | .resolve url _ => some url
    | .search _ => none
  declared url :=
    if url.text = "file:///a" then [⟨"b", true⟩, ⟨"c", true⟩, ⟨"b", true⟩]
    else if url.text = "file:///d" then [⟨"a", true⟩]
    else [⟨"d", true⟩]

/-- Files that all refer to a missing file. -/
def orphans : Project where
  target
    | .resolve url _ => if url.text = "file:///missing" then none else some url
    | .search _ => none
  declared _ := [⟨"missing", true⟩]

end Project

end ScriptLoader
