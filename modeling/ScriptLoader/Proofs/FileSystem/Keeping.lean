import ScriptLoader.FileSystem.Resolver

/-!
# How long contents are kept

While caching is on, a resolver keeps what it has read from a disk, and forgets all of it when
caching is turned off. But whether a lookup takes part is settled when it is started, and it reads
when it completes. One that was started while caching was on may complete after that, and then it is
*late*: what it reads is kept although caching is off, until caching has been turned on and off
again.

So all that is kept has been read since caching was last turned off, but not always in the period
that has begun since. While caching is off, nothing is kept exactly if no late lookup has found a
file.

## Runs

A run is any sequence of things that happen to a resolver, over a disk that may have changed
whenever it is read. The past of a run lists them, the latest first, each with the resolver that it
happened to.
-/

namespace ScriptLoader

namespace Table

variable {κ α : Type} [DecidableEq κ] {table : Table κ α}

theorem size_insert_ne_zero (key : κ) (value : α) : (table.insert key value).size ≠ 0 :=
  Nat.succ_ne_zero _

theorem size_ne_zero_of_get? {key : κ} {value : α} (h : table.get? key = some value) :
    table.size ≠ 0 := by
  obtain ⟨_ | ⟨binding, rest⟩⟩ := table
  · cases h
  · exact Nat.succ_ne_zero _

end Table

namespace FileResolver

variable {disk : Disk} {caches : Bool} {r r₁ r' : FileResolver} {url : Url} {path : Path}
  {text : String}

/-! ## Completing a lookup -/

/-- What a lookup does to what is kept, and where the text that it finds comes from. -/
structure Fetches (disk : Disk) (caches : Bool) (r r' : FileResolver)
    (result : Except LoaderError (Option Resource)) : Prop where
  depth : r'.cachingDepth = r.cachingDepth
  /-- Something more is kept only if it has been found and read, and under its path. -/
  kept : ∀ {key text}, r'.contents.get? key = some text → r.contents.get? key = some text ∨
    caches = true ∧ ∃ url path, result = .ok (some ⟨url, text⟩) ∧ url.filePath? = some path ∧
      Path.components path = key ∧ disk.readText path = .ok text
  empty : r'.cachedFiles = 0 ↔
    r.cachedFiles = 0 ∧ ∀ resource, result = .ok (some resource) → caches = false
  /-- What is found is kept or on the disk. -/
  found : ∀ {resource}, result = .ok (some resource) → ∃ path, resource.url.filePath? = some path ∧
    (r.contents.get? (Path.components path) = some resource.contents ∨
      disk.readText path = .ok resource.contents)

theorem Fetches.of_notFound {result : Except LoaderError (Option Resource)}
    (hdepth : r'.cachingDepth = r.cachingDepth) (hcontents : r'.contents = r.contents)
    (hresult : ∀ resource, result ≠ .ok (some resource)) : Fetches disk caches r r' result where
  depth := hdepth
  kept h := .inl (hcontents ▸ h)
  empty := by
    rw [cachedFiles, hcontents, cachedFiles]
    exact ⟨fun h ↦ ⟨h, fun resource heq ↦ absurd heq (hresult resource)⟩, And.left⟩
  found heq := absurd heq (hresult _)

/-- A candidate that is not there leaves the answer to the rest. -/
theorem Fetches.next {result : Except LoaderError (Option Resource)}
    (h : Fetches disk caches r r₁ (.ok none)) (h₁ : Fetches disk caches r₁ r' result) :
    Fetches disk caches r r' result := by
  have hkept {key text} (hkey : r₁.contents.get? key = some text) :
      r.contents.get? key = some text := by
    obtain hkey | ⟨-, url, path, habsurd, -⟩ := h.kept hkey
    · exact hkey
    · cases habsurd
  have hempty : r₁.cachedFiles = 0 ↔ r.cachedFiles = 0 :=
    h.empty.trans (and_iff_left fun _ habsurd ↦ by cases habsurd)
  refine ⟨h₁.depth.trans h.depth, fun hkey ↦ (h₁.kept hkey).imp_left hkept, ?_, fun hfound ↦ ?_⟩
  · rw [h₁.empty, hempty]
  · obtain ⟨path, hpath, hfrom⟩ := h₁.found hfound
    exact ⟨path, hpath, hfrom.imp_left hkept⟩

/-- A file is among what is kept, or it cannot be read, or it is read. -/
theorem fetch_cases (disk : Disk) (caches : Bool) (r : FileResolver) (path : Path) :
    (∃ text, caches = true ∧ r.contents.get? (Path.components path) = some text ∧
      r.fetch disk caches path = (r, .ok text)) ∨
    (∃ e, r.fetch disk caches path = ({ r with reads := path :: r.reads }, .error e)) ∨
    ∃ text, disk.readText path = .ok text ∧ r.fetch disk caches path =
      ({ r with
          reads := path :: r.reads
          contents := if caches then r.contents.insert (Path.components path) text
            else r.contents }, .ok text) := by
  rw [fetch]
  split
  next text hkept =>
    cases caches with
    | false => cases hkept
    | true => exact .inl ⟨text, rfl, hkept, rfl⟩
  next =>
    dsimp only
    split
    next e hread => exact .inr (.inl ⟨e, rfl⟩)
    next text hread =>
      refine .inr (.inr ⟨text, hread, ?_⟩)
      cases caches <;> rfl

theorem Fetches.of_kept (hpath : url.filePath? = some path)
    (hkept : r.contents.get? (Path.components path) = some text) :
    Fetches disk caches r r (.ok (some ⟨url, text⟩)) where
  depth := rfl
  kept := .inl
  empty := by
    refine (and_iff_left_of_imp fun hempty ↦ ?_).symm
    exact absurd hempty (Table.size_ne_zero_of_get? hkept)
  found := by
    rintro _ ⟨⟩
    exact ⟨path, hpath, .inl hkept⟩

theorem Fetches.of_read (hpath : url.filePath? = some path)
    (hread : disk.readText path = .ok text) (hdepth : r'.cachingDepth = r.cachingDepth)
    (hcontents : r'.contents =
      if caches then r.contents.insert (Path.components path) text else r.contents) :
    Fetches disk caches r r' (.ok (some ⟨url, text⟩)) where
  depth := hdepth
  kept {key text'} h := by
    cases caches with
    | false =>
      rw [hcontents, if_neg Bool.false_ne_true] at h
      exact .inl h
    | true =>
      rw [hcontents, if_pos rfl, Table.get?_insert] at h
      split at h
      next hkey =>
        cases h
        exact .inr ⟨rfl, url, path, rfl, hpath, hkey.symm, hread⟩
      next => exact .inl h
  empty := by
    rw [cachedFiles, hcontents, cachedFiles]
    cases caches with
    | false => exact (and_iff_left fun _ _ ↦ rfl).symm
    | true =>
      exact iff_of_false (Table.size_insert_ne_zero _ _) fun h ↦ Bool.noConfusion (h.2 _ rfl)
  found := by
    rintro _ ⟨⟩
    exact ⟨path, hpath, .inr hread⟩

theorem fetches_fetchUrl (disk : Disk) (caches : Bool) (r : FileResolver) (url : Url) :
    Fetches disk caches r (r.fetchUrl disk caches url).1 (r.fetchUrl disk caches url).2 := by
  rw [fetchUrl]
  split
  next => exact .of_notFound rfl rfl (by simp)
  next bytes hbytes =>
    split
    next => exact .of_notFound rfl rfl (by simp)
    next path hdecode =>
      have hpath : url.filePath? = some path := by rw [Url.filePath?, hbytes, Option.bind, hdecode]
      obtain ⟨text, rfl, hkept, hfetch⟩ | ⟨e, hfetch⟩ | ⟨text, hread, hfetch⟩ :=
        fetch_cases disk caches r path
      · rw [hfetch]
        exact .of_kept hpath hkept
      · rw [hfetch]
        cases e <;> exact .of_notFound rfl rfl (by simp)
      · rw [hfetch]
        exact .of_read hpath hread rfl rfl

theorem fetches_fetchFirst (disk : Disk) (caches : Bool) (r : FileResolver)
    (candidates : List Url) :
    Fetches disk caches r (r.fetchFirst disk caches candidates).1
      (r.fetchFirst disk caches candidates).2 := by
  induction candidates generalizing r with
  | nil => exact .of_notFound rfl rfl (by simp [fetchFirst])
  | cons url rest ih =>
    have hfirst := fetches_fetchUrl disk caches r url
    rw [fetchFirst]
    split
    next r₁ hnone =>
      rw [hnone] at hfirst
      exact hfirst.next (ih r₁)
    next => exact hfirst

/-- Whether the lookup of a ticket takes part in caching. -/
def takesPart (r : FileResolver) (ticket : Ticket) : Bool :=
  (r.lookups.find? (·.ticket = ticket)).any (·.caches)

theorem fetches_answer (disk : Disk) (r : FileResolver) (ticket : Ticket) :
    Fetches disk (r.takesPart ticket) r (r.answer disk ticket).1 (r.answer disk ticket).2 := by
  rw [answer, takesPart]
  split
  next => exact .of_notFound rfl rfl (by simp)
  next lookup hfind =>
    rw [hfind]
    obtain ⟨hdepth, hkept, hempty, hfound⟩ :=
      fetches_fetchFirst disk lookup.caches (r.cancel [ticket]) lookup.candidates
    exact ⟨hdepth, hkept, hempty, hfound⟩

/-! ## Runs -/

inductive Action where
  | enable
  | disable
  | resolve (url : Url) (substitutions : Substitutions)
  | search (locator : String)
  | complete (ticket : Ticket) (disk : Disk)
  | cancel (tickets : List Ticket)

/-- Lets something happen to a resolver. -/
def perform (r : FileResolver) : Action → FileResolver
  | .enable => r.enableCaching
  | .disable => r.disableCaching
  | .resolve url substitutions => (r.resolve url substitutions).1
  | .search locator => (r.search locator).1
  | .complete ticket disk => (r.answer disk ticket).1
  | .cancel tickets => r.cancel tickets

/-- Something that has happened, and the resolver before it. -/
structure Moment where
  before : FileResolver
  action : Action

/-- The runs of a resolver that begin with a fresh one. Only a start of caching can be undone. -/
inductive Run : List Moment → FileResolver → Prop
  | start (includePaths : List Url) : Run [] { includePaths }
  | step {past : List Moment} {r : FileResolver} {action : Action} (run : Run past r)
      (undoes : action = .disable → 0 < r.cachingDepth) :
      Run (⟨r, action⟩ :: past) (r.perform action)

namespace Moment

/-- Caching is turned off: its last start is undone. -/
def turnsOff (m : Moment) : Bool :=
  match m.action with
  | .disable => m.before.cachingDepth = 1
  | _ => false

/-- A lookup that takes part in caching finds a file. -/
def Finds (m : Moment) (resource : Resource) : Prop :=
  ∃ ticket disk, m.action = .complete ticket disk ∧ m.before.takesPart ticket = true ∧
    (m.before.answer disk ticket).2 = .ok (some resource)

/-- A lookup that takes part in caching finds a file on the disk, and keeps it. -/
def Keeps (m : Moment) (key : List (List Char)) (text : String) : Prop :=
  ∃ ticket disk url path, m.action = .complete ticket disk ∧ m.before.takesPart ticket = true ∧
    (m.before.answer disk ticket).2 = .ok (some ⟨url, text⟩) ∧ url.filePath? = some path ∧
    Path.components path = key ∧ disk.readText path = .ok text

/-- A lookup that takes part in caching finds a file after caching has been turned off. -/
def IsLate (m : Moment) : Prop := m.before.isCaching = false ∧ ∃ resource, m.Finds resource

end Moment

/-- What has happened since caching was last turned off. -/
def sinceOff (past : List Moment) : List Moment := past.takeWhile fun m ↦ !m.turnsOff

@[simp] theorem sinceOff_cons (m : Moment) (past : List Moment) :
    sinceOff (m :: past) = if m.turnsOff then [] else m :: sinceOff past := by
  rw [sinceOff, List.takeWhile_cons]
  cases m.turnsOff <;> rfl

/-- All that is kept has been read since caching was last turned off, and while it is off nothing
is kept but for late lookups. -/
structure Accounts (past : List Moment) (r : FileResolver) : Prop where
  kept : ∀ {key text}, r.contents.get? key = some text → ∃ m ∈ sinceOff past, m.Keeps key text
  empty : r.isCaching = false → (r.cachedFiles = 0 ↔ ∀ m ∈ sinceOff past, ¬ m.IsLate)

namespace Accounts

variable {past : List Moment} {m : Moment}

/-- What neither completes a lookup nor turns caching off leaves what is kept as it is. -/
theorem of_contents (h : Accounts past r) (hon : m.turnsOff = false)
    (hlate : ∀ resource, ¬ m.Finds resource) (hcontents : r'.contents = r.contents)
    (hoff : r'.isCaching = false → r.isCaching = false) : Accounts (m :: past) r' := by
  have hsince : sinceOff (m :: past) = m :: sinceOff past := by simp [hon]
  refine ⟨fun hkey ↦ ?_, fun hcaching ↦ ?_⟩
  · obtain ⟨m', hmem, hkeeps⟩ := h.kept (hcontents ▸ hkey)
    exact ⟨m', hsince ▸ .tail _ hmem, hkeeps⟩
  · rw [cachedFiles, hcontents, hsince, List.forall_mem_cons]
    refine (h.empty (hoff hcaching)).trans (and_iff_right ?_).symm
    exact fun ⟨_, resource, hfinds⟩ ↦ hlate resource hfinds

theorem disable (h : Accounts past r) (hpos : 0 < r.cachingDepth) :
    Accounts (⟨r, .disable⟩ :: past) r.disableCaching := by
  -- only the last disable of nested ones forgets what is kept
  by_cases hlast : r.cachingDepth = 1
  · have hsince : sinceOff (⟨r, .disable⟩ :: past) = [] := by simp [Moment.turnsOff, hlast]
    have hcontents : r.disableCaching.contents = {} := by simp [disableCaching, hlast]
    refine ⟨fun hkey ↦ ?_, fun _ ↦ ?_⟩
    · rw [hcontents] at hkey
      cases hkey
    · rw [cachedFiles, hcontents, hsince]
      exact iff_of_true rfl (by simp)
  · have hrest : r.cachingDepth - 1 ≠ 0 := by omega
    refine h.of_contents (by simp [Moment.turnsOff, hlast]) ?_ (if_neg hrest) fun hcaching ↦ ?_
    · rintro _ ⟨_, _, ⟨⟩, _⟩
    · rw [isCaching, disableCaching, decide_eq_false_iff_not] at hcaching
      exact absurd (Nat.pos_of_ne_zero hrest) hcaching

theorem complete (h : Accounts past r) (ticket : Ticket) (disk : Disk) :
    Accounts (⟨r, .complete ticket disk⟩ :: past) (r.answer disk ticket).1 := by
  have hfetches := fetches_answer disk r ticket
  have hsince : sinceOff (⟨r, .complete ticket disk⟩ :: past)
      = ⟨r, .complete ticket disk⟩ :: sinceOff past := by simp [Moment.turnsOff]
  refine ⟨fun hkey ↦ ?_, fun hcaching ↦ ?_⟩ <;> rw [hsince]
  · obtain hkey | ⟨hpart, url, path, hresult, hpath, hcomponents, hread⟩ := hfetches.kept hkey
    · obtain ⟨m, hmem, hkeeps⟩ := h.kept hkey
      exact ⟨m, .tail _ hmem, hkeeps⟩
    · exact ⟨_, .head _, ticket, disk, url, path, rfl, hpart, hresult, hpath, hcomponents, hread⟩
  · rw [isCaching, hfetches.depth] at hcaching
    rw [hfetches.empty, h.empty hcaching, List.forall_mem_cons, and_comm]
    refine and_congr_left fun _ ↦ ⟨?_, fun hlate resource hresult ↦ ?_⟩
    · rintro hfound ⟨-, resource, _, _, ⟨⟩, hpart, hresult⟩
      rw [hfound resource hresult] at hpart
      cases hpart
    · rw [← Bool.not_eq_true]
      exact fun hpart ↦ hlate ⟨hcaching, resource, ticket, disk, rfl, hpart, hresult⟩

end Accounts

/-- Every run accounts for what is kept. -/
theorem Run.accounts {past : List Moment} (h : Run past r) : Accounts past r := by
  induction h with
  | start includePaths =>
    refine ⟨fun hkey ↦ ?_, fun _ ↦ iff_of_true rfl (by simp [sinceOff])⟩
    cases hkey
  | @step past r action _ undoes ih =>
    cases action with
    | enable =>
      refine ih.of_contents rfl ?_ rfl fun hcaching ↦ ?_
      · rintro _ ⟨_, _, ⟨⟩, _⟩
      · cases hcaching
    | disable => exact ih.disable (undoes rfl)
    | complete ticket disk => exact ih.complete ticket disk
    | resolve _ _ | search _ | cancel _ =>
      refine ih.of_contents rfl ?_ rfl id
      rintro _ ⟨_, _, ⟨⟩, _⟩

/-- A resolver with a lookup that was started while caching was on and has not completed. -/
def overdue : FileResolver :=
  ((({ includePaths := [] } : FileResolver).perform .enable).perform
    (.resolve (.file "/a.j".toList) {})).perform .disable

/-- A run in which a lookup is late. -/
def lateRun : List Moment :=
  let r₀ : FileResolver := { includePaths := [] }
  let r₁ := r₀.perform .enable
  let r₂ := r₁.perform (.resolve (.file "/a.j".toList) {})
  [⟨overdue, .complete 0 fun _ ↦ .ok []⟩, ⟨r₂, .disable⟩, ⟨r₁, .resolve (.file "/a.j".toList) {}⟩,
    ⟨r₀, .enable⟩]

end FileResolver

end ScriptLoader
