import Mathlib.Data.Set.Card
import Mathlib.Logic.Relation
import ScriptLoader.Proofs.Project

/-!
# The files that a file reaches

A file of a project asks for what its references lead to, each under the key of the reference. So
the files of a project are the vertices of a graph, and loading a file should come to a walk through
this graph. Here the walk is written down naively, from the project alone: nothing is looked up, and
nothing happens in any particular order.

## Whole projects

A project that is to be loaded from a file on must be *whole* there: no reference is dangling,
references that are known by one key ask for the same thing, and there are only finitely many files.
-/

namespace ScriptLoader.Project

variable (project : Project)

/-- What a file in a directory searches its references with. -/
def searcher (substitutions : Substitutions) (directory : Url) : Operation :=
  { kind := .searcher, serial := 0, context := directory, substitutions }

/-- What a file asks for, in the order in which it declares its references, and by which keys. -/
def asks (substitutions : Substitutions) (url : Url) : List (String × Request) :=
  match url.directory with
  | .error _ => []
  | .ok directory => (project.declared url).filterMap fun r ↦
      ((searcher substitutions directory).request r).toOption.map (r.key directory.text, ·)

/-- The files that a file refers to. -/
def targets (substitutions : Substitutions) (url : Url) : List Url :=
  (project.asks substitutions url).filterMap fun ask ↦ project.target ask.2

/-- One file reaches another if it is the same, or refers to one that reaches it. -/
def Reaches (substitutions : Substitutions) : Url → Url → Prop :=
  Relation.ReflTransGen fun url url' ↦ url' ∈ project.targets substitutions url

/-- A key occurs among the files that a file reaches, for a request. -/
def Occurs (substitutions : Substitutions) (first : Url) (key : String) (request : Request) :
    Prop :=
  ∃ url, project.Reaches substitutions first url ∧ (key, request) ∈ project.asks substitutions url

/-- Walks to a file: first to those that it refers to, then the file is listed itself. The files
that have been seen come first in the pair, those that are listed second. -/
def walk (substitutions : Substitutions) : (depth : Nat) → Url → List Url × List Url →
    List Url × List Url
  | 0, _, w => w
  | depth + 1, url, w =>
    if w.1.contains url then w
    else
      let w := (project.targets substitutions url).foldl
        (fun w target ↦ walk substitutions depth target w) (url :: w.1, w.2)
      (w.1, w.2 ++ [url])

/-- The files that a file reaches, dependencies first. -/
noncomputable def closure (substitutions : Substitutions) (first : Url) : List Url :=
  (project.walk substitutions {url | project.Reaches substitutions first url}.ncard first
    ([], [])).2

/-- A project can be loaded from a file on. -/
structure IsWhole (substitutions : Substitutions) (first : Url) : Prop where
  /-- Every reference leads to a file. -/
  found : ∀ {url directory}, project.Reaches substitutions first url →
    url.directory = .ok directory → ∀ r ∈ project.declared url, ∃ request url',
      (searcher substitutions directory).request r = .ok request ∧
        project.target request = some url'
  /-- References that are known by one key ask for the same thing. -/
  agree : ∀ {key request request'}, project.Occurs substitutions first key request →
    project.Occurs substitutions first key request' → request = request'
  /-- Directories are told apart by their text, as URLs are. -/
  distinct : ∀ {url url' directory directory'}, project.Reaches substitutions first url →
    project.Reaches substitutions first url' → url.directory = .ok directory →
    url'.directory = .ok directory' → directory.text = directory'.text → directory = directory'
  finite : {url | project.Reaches substitutions first url}.Finite

variable {project} {substitutions : Substitutions} {url directory : Url}

/-- A searcher asks for the same wherever it comes from. -/
theorem request_searcher (operation : Operation) (r : Reference) :
    (searcher operation.substitutions operation.context).request r = operation.request r := rfl

theorem mem_asks_iff (h : url.directory = .ok directory) {key : String} {request : Request} :
    (key, request) ∈ project.asks substitutions url ↔ ∃ r ∈ project.declared url,
      r.key directory.text = key ∧ (searcher substitutions directory).request r = .ok request := by
  rw [asks, h]
  simp only [List.mem_filterMap, Option.map_eq_some_iff, Prod.mk.injEq]
  constructor
  · rintro ⟨r, hr, request', hrequest, hkey, rfl⟩
    refine ⟨r, hr, hkey, ?_⟩
    cases hasked : (searcher substitutions directory).request r with
    | error e => rw [hasked] at hrequest; cases hrequest
    | ok request => rw [hasked] at hrequest; cases hrequest; rfl
  · rintro ⟨r, hr, hkey, hrequest⟩
    exact ⟨r, hr, request, by rw [hrequest]; rfl, hkey, rfl⟩

theorem Reaches.target {first : Url} (h : project.Reaches substitutions first url) {key : String}
    {request : Request} (hask : (key, request) ∈ project.asks substitutions url) {url' : Url}
    (htarget : project.target request = some url') : project.Reaches substitutions first url' :=
  h.tail (List.mem_filterMap.mpr ⟨_, hask, htarget⟩)

theorem Occurs.reaches {first : Url} {key : String} {request : Request}
    (h : project.Occurs substitutions first key request) {url' : Url}
    (htarget : project.target request = some url') : project.Reaches substitutions first url' := by
  obtain ⟨url, hreaches, hask⟩ := h
  exact hreaches.target hask htarget

namespace IsWhole

variable {first : Url} (h : project.IsWhole substitutions first)

include h

theorem exists_target {key : String} {request : Request}
    (hoccurs : project.Occurs substitutions first key request) :
    ∃ url', project.target request = some url' := by
  obtain ⟨url, hreaches, hask⟩ := hoccurs
  cases hdirectory : url.directory with
  | error e => rw [asks, hdirectory] at hask; cases hask
  | ok directory =>
    obtain ⟨r, hr, -, hrequest⟩ := (mem_asks_iff hdirectory).mp hask
    obtain ⟨request', url', hrequest', htarget⟩ := h.found hreaches hdirectory r hr
    rw [hrequest] at hrequest'
    cases hrequest'
    exact ⟨url', htarget⟩

theorem exists_keys : ∃ keys : List String, ∀ {key request},
    project.Occurs substitutions first key request → key ∈ keys := by
  refine ⟨(h.finite.toFinset.toList.flatMap (project.asks substitutions)).map (·.1), ?_⟩
  rintro key request ⟨url, hreaches, hask⟩
  refine List.mem_map.mpr ⟨(key, request), List.mem_flatMap.mpr ⟨url, ?_, hask⟩, rfl⟩
  rw [Finset.mem_toList, Set.Finite.mem_toFinset]
  exact hreaches

end IsWhole

/-! ## Projects whose files are known -/

/-- What is reached from some files that refer only to each other is one of them. -/
theorem Reaches.mem {first : Url} {files : List Url} (h : project.Reaches substitutions first url)
    (hfirst : first ∈ files)
    (hclosed : ∀ url ∈ files, ∀ url' ∈ project.targets substitutions url, url' ∈ files) :
    url ∈ files := by
  induction h with
  | refl => exact hfirst
  | tail _ hlast ih => exact hclosed _ ih _ hlast

/-- Whether a project is whole can be checked if its files are known and lie in one directory. -/
theorem isWhole_of_files {first : Url} {files : List Url} (hfirst : first ∈ files)
    (hclosed : ∀ url ∈ files, ∀ url' ∈ project.targets substitutions url, url' ∈ files)
    (hdirectory : ∀ url ∈ files, url.directory.toOption = some directory)
    (hfound : ∀ url ∈ files, ∀ r ∈ project.declared url,
      (((searcher substitutions directory).request r).toOption.bind project.target).isSome)
    (hagree : ∀ url ∈ files, ∀ url' ∈ files, ∀ ask ∈ project.asks substitutions url,
      ∀ ask' ∈ project.asks substitutions url', ask.1 = ask'.1 → ask.2 = ask'.2) :
    project.IsWhole substitutions first := by
  have hmem : ∀ {url}, project.Reaches substitutions first url → url ∈ files :=
    fun h ↦ h.mem hfirst hclosed
  have hunique : ∀ {url directory'}, project.Reaches substitutions first url →
      url.directory = .ok directory' → directory' = directory := by
    intro url directory' hreached hdirectory'
    have heq := hdirectory url (hmem hreached)
    rw [hdirectory'] at heq
    cases heq
    rfl
  exact
    { found := by
        intro url directory' hreached hdirectory' r hr
        cases hunique hreached hdirectory'
        obtain ⟨url', hurl'⟩ := Option.isSome_iff_exists.mp (hfound url (hmem hreached) r hr)
        obtain ⟨request, hrequest, htarget⟩ := Option.bind_eq_some_iff.mp hurl'
        refine ⟨request, url', ?_, htarget⟩
        cases hasked : (searcher substitutions directory).request r with
        | error e => rw [hasked] at hrequest; cases hrequest
        | ok request' => rw [hasked] at hrequest; cases hrequest; rfl
      agree := by
        rintro key request request' ⟨url, hreached, hask⟩ ⟨url', hreached', hask'⟩
        exact hagree url (hmem hreached) url' (hmem hreached') _ hask _ hask' rfl
      distinct := by
        intro url url' directory₁ directory₂ hreached hreached' h₁ h₂ _
        rw [hunique hreached h₁, hunique hreached' h₂]
      finite := files.finite_toSet.subset fun url hreached ↦ hmem hreached }

end ScriptLoader.Project
