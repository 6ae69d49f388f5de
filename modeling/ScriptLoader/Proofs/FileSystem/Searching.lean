import Mathlib.Data.List.Basic
import ScriptLoader.CommandLine.Project
import ScriptLoader.Proofs.FileSystem.Keeping
import ScriptLoader.Proofs.FileSystem.Reading

/-!
# Searching the directories of a project

A project searches the directories of the command line first, then those that the environment names
and then those of the configuration file. A search reads the file at one locator below each of them
in turn, and nothing else decides its answer: neither how a directory is written, since its URL
names the same file, nor what has been kept, as long as the files stay as they are.

A directory is passed over if nothing is found there. Should the locator lead to a directory, or
should it lead on where there is a file, then reading fails for another reason and the search ends
with that, although a later directory may have the file. So the first directory that has the file
gives the answer if and only if nothing is there below all directories before it.
-/

namespace ScriptLoader

namespace CommandLine

variable {s : Surroundings} {options : Options} {config : Config}

/-- The directories that the environment names: what is between the colons, unless that is empty. -/
def Surroundings.namedDirectories (s : Surroundings) : List String :=
  match s.environment.get? includePathVariable with
  | none => []
  | some text => ((text.toList.splitOn ':').filter (!·.isEmpty)).map String.ofList

theorem fieldsAt_eq_splitOn (separator : Char) (cs : List Char) :
    fieldsAt separator cs = cs.splitOn separator := by
  induction cs with
  | nil => rfl
  | cons c rest ih =>
    rw [fieldsAt, ih, List.splitOn, List.splitOn, List.splitOnP_cons_eq_if_modifyHead]
    simp only [beq_iff_eq]
    refine if_congr Iff.rfl rfl ?_
    cases hfields : List.splitOnP (fun x ↦ x == separator) rest with
    | nil => exact absurd hfields (List.splitOnP_ne_nil _ _)
    | cons field more => rfl

theorem includePaths_override (config : Config) (paths formatName : Option String) :
    (config.override paths formatName).1.includePaths
      = (paths.map Config.splitPaths).getD [] ++ config.includePaths := by
  cases formatName with
  | none => rfl
  | some name =>
    rw [Config.override, Config.overrideFormat.eq_def]
    dsimp only
    cases ReportFormat.parse name <;> rfl

/-- **The order of the directories**: the command line, the environment, the configuration file. -/
theorem includePaths_of_loadConfig (h : loadConfig s options = .ok config) :
    ∃ file, readConfig s options.config = .ok file ∧
      config.includePaths = options.includes ++ s.namedDirectories ++ file.includePaths := by
  have hnamed : s.namedDirectories
      = ((s.environment.get? includePathVariable).map Config.splitPaths).getD [] := by
    rw [Surroundings.namedDirectories]
    cases s.environment.get? includePathVariable with
    | none => rfl
    | some text => rw [Option.map_some, Option.getD_some, Config.splitPaths, fieldsAt_eq_splitOn]
  rw [loadConfig] at h
  split at h
  next => cases h
  next file hfile =>
    refine ⟨file, hfile, ?_⟩
    rw [List.append_assoc, hnamed, ← includePaths_override]
    split at h
    next => cases h
    next hoverride =>
      rw [hoverride]
      cases h
      rfl

end CommandLine

/-- Whether this is a directory or holds text. -/
def Node.isText : Node → Bool
  | .file bytes => (Utf8.toString? bytes).isSome
  | .directory => true

namespace FileSystem

variable {fs : FileSystem} {path path' : Path}

def isFile (fs : FileSystem) (path : Path) : Bool :=
  match fs.locate path with
  | .ok (.file _ _) => true
  | _ => false

def IsText (fs : FileSystem) : Prop :=
  ∀ {place node}, fs.node? place = some node → node.isText = true

theorem isText_of_bindings (h : ∀ binding ∈ fs.nodes.bindings, binding.2.isText = true) :
    fs.IsText := by
  intro place node hnode
  rw [node?] at hnode
  split_ifs at hnode
  · cases hnode
    rfl
  · exact h _ (Table.mem_of_get? hnode)

def text (fs : FileSystem) (path : Path) : Except IoError String := Disk.readText fs.read path

theorem isFile_iff : fs.isFile path = true ↔ ∃ bytes, fs.read path = .ok bytes := by
  rw [isFile, FileSystem.read]
  rcases fs.locate path with e | position
  · simp
  · cases position <;> simp

theorem isFile_eq_false_of_read {e : IoError} (h : fs.read path = .error e) :
    fs.isFile path = false := by
  rw [Bool.eq_false_iff, ne_eq, isFile_iff, h]
  rintro ⟨bytes, hread⟩
  cases hread

theorem isFile_of_text {text : String} (h : fs.text path = .ok text) : fs.isFile path = true := by
  rw [FileSystem.text, Disk.readText] at h
  split at h
  next => cases h
  next bytes hread => exact isFile_iff.mpr ⟨bytes, hread⟩

theorem meansDirectory_of_isFile (h : fs.isFile path = true) : meansDirectory path = false := by
  rw [isFile] at h
  split at h
  next place bytes hlocate =>
    exact meansDirectory_eq_false_iff.mpr (isSkipped_of_walk_file (locate_eq_ok_iff.mp hlocate).2.2)
  next => cases h

theorem text_congr (h : fs.locate path = fs.locate path') : fs.text path = fs.text path' := by
  rw [text, text, Disk.readText, Disk.readText, FileSystem.read, FileSystem.read, h]

/-- A file of text can be read, and only for want of a file can reading fail. -/
theorem text_eq_error_iff (h : fs.IsText) {e : IoError} :
    fs.text path = .error e ↔ fs.read path = .error e := by
  rw [text, Disk.readText]
  split
  next e' hread => rw [hread, Except.error.injEq, Except.error.injEq]
  next bytes hread =>
    have hnode : ∃ place, fs.node? place = some (.file bytes) := by
      rw [FileSystem.read] at hread
      split at hread
      next place _ hlocate =>
        cases hread
        exact ⟨place, Bundle.node?_of_locate_file hlocate⟩
      all_goals cases hread
    obtain ⟨place, hnode⟩ := hnode
    obtain ⟨text, htext⟩ := Option.isSome_iff_exists.mp (h hnode)
    rw [htext, hread]
    exact iff_of_false (by simp) (by simp)

end FileSystem

namespace FileResolver

variable {fs : FileSystem} {disk : Disk} {caches : Bool} {r created : FileResolver} {url : Url}
  {path current locator : Path} {directories : List String} {past : List Moment}

/-! ## One candidate -/

/-- The answer for a candidate, by what is read at its path. -/
def answerOf (url : Url) : Except IoError String → Except LoaderError (Option Resource)
  | .ok text => .ok (some ⟨url, text⟩)
  | .error .notFound => .ok none
  | .error e => .error (.io e)

theorem fetch_eq_readText (hkept : ∀ text, r.contents.get? (Path.components path) = some text →
      disk.readText path = .ok text) :
    (r.fetch disk caches path).2 = disk.readText path := by
  rw [fetch]
  split
  next text htext =>
    split_ifs at htext
    exact (hkept text htext).symm
  next =>
    dsimp only
    split
    next e hread => exact hread.symm
    next text hread => exact hread.symm

/-- A candidate is answered by what is read at its path, if what is kept agrees with that. -/
theorem fetchUrl_eq_answerOf (hpath : url.filePath? = some path)
    (hkept : ∀ text, r.contents.get? (Path.components path) = some text →
      disk.readText path = .ok text) :
    (r.fetchUrl disk caches url).2 = answerOf url (disk.readText path) := by
  obtain ⟨bytes, hbytes, hdecode⟩ := Option.bind_eq_some_iff.mp hpath
  have hread : (r.fetch disk caches path).2 = disk.readText path := fetch_eq_readText hkept
  rw [fetchUrl, hbytes]
  simp only [hdecode]
  rw [← hread]
  rcases r.fetch disk caches path with ⟨r', e | text⟩
  · cases e <;> rfl
  · rfl

/-! ## What is kept of files that stay as they are -/

/-- Whether what is kept is what the files hold. -/
def Faithful (fs : FileSystem) (r : FileResolver) : Prop :=
  ∀ {key text}, r.contents.get? key = some text →
    ∃ path : Path, path.isAbsolute = true ∧ Path.components path = key ∧ fs.text path = .ok text

/-- What is kept for a path is what would be read there. -/
theorem Faithful.text_eq (h : r.Faithful fs) (habsolute : path.isAbsolute = true)
    (hpath : FileSystem.meansDirectory path = false) {text : String}
    (hkept : r.contents.get? (Path.components path) = some text) : fs.text path = .ok text := by
  obtain ⟨path', habsolute', hcomponents, htext⟩ := h hkept
  rw [FileSystem.text_congr, htext]
  have hpath' := FileSystem.meansDirectory_of_isFile (FileSystem.isFile_of_text htext)
  exact FileSystem.locate_eq_of_components hpath hpath' habsolute habsolute' hcomponents.symm

theorem Faithful.fetchUrl (h : r.Faithful fs) (caches : Bool) (url : Url) :
    (r.fetchUrl fs.read caches url).1.Faithful fs := by
  intro key text hkept
  obtain hkept | ⟨-, url, path, -, hpath, hkey, htext⟩ :=
    (fetches_fetchUrl fs.read caches r url).kept hkept
  · exact h hkept
  · exact ⟨path, Url.isAbsolute_of_filePath? hpath, hkey, htext⟩

/-- All that a run has kept is what the files hold, if they have been as they are all the time. -/
theorem Run.faithful (h : Run past r)
    (hpast : ∀ m ∈ past, ∀ ticket disk, m.action = .complete ticket disk → disk = fs.read) :
    r.Faithful fs := by
  intro key text hkept
  obtain ⟨m, hm, ticket, disk, url, path, haction, -, -, hpath, hkey, htext⟩ :=
    h.accounts.kept hkept
  have hmem : m ∈ past := (List.takeWhile_sublist _).subset hm
  rw [hpast m hmem ticket disk haction] at htext
  exact ⟨path, Url.isAbsolute_of_filePath? hpath, hkey, htext⟩

/-! ## All candidates -/

/-- The path at a locator below a directory. -/
def candidate (locator : Path) (directory : String) : Path := Path.append directory.toList locator

/-- Whether a resource is the file at a locator below a directory: its URL is the locator's against
that of the directory, and names the file, and the contents are those of the file. -/
structure IsFileBelow (fs : FileSystem) (current locator : Path) (directory : String)
    (resource : Resource) : Prop where
  url : ∃ base, Url.ofDirectory current directory.toList = .ok base ∧
    base.join (String.ofList locator) = .ok resource.url
  path : ∃ path, resource.url.filePath? = some path ∧
    fs.locate path = fs.locate (candidate locator directory)
  contents : fs.text (candidate locator directory) = .ok resource.contents

/-- How a search goes through directories, and what it comes to. -/
inductive SearchesTo (fs : FileSystem) (current locator : Path) :
    List String → Except LoaderError (Option Resource) → Prop
  | nowhere : SearchesTo fs current locator [] (.ok none)
  | found {directory : String} {rest : List String} {resource : Resource}
      (h : IsFileBelow fs current locator directory resource) :
      SearchesTo fs current locator (directory :: rest) (.ok (some resource))
  | missing {directory : String} {rest : List String}
      {result : Except LoaderError (Option Resource)}
      (hread : fs.read (candidate locator directory) = .error .notFound)
      (h : SearchesTo fs current locator rest result) :
      SearchesTo fs current locator (directory :: rest) result
  | fails {directory : String} {rest : List String} {e : IoError}
      (hread : fs.read (candidate locator directory) = .error e) (hne : e ≠ .notFound) :
      SearchesTo fs current locator (directory :: rest) (.error (.io e))

/-- A file system as a project with the current directory `current` finds it. -/
structure Hosts (fs : FileSystem) (current : Path) : Prop where
  absolute : current.isAbsolute = true
  current : fs.locate current = .ok (.directory fs.current)
  text : fs.IsText

theorem meansDirectory_of_isOrdinary (h : Url.IsOrdinary locator) :
    FileSystem.meansDirectory locator = false :=
  FileSystem.meansDirectory_eq_false_iff.mpr fun field hfield ↦
    (Path.isNormal_iff.mp (h.plain field (List.mem_of_getLast? hfield)).normal).1

theorem meansDirectory_candidate (h : Url.IsOrdinary locator) (directory : String) :
    FileSystem.meansDirectory (candidate locator directory) = false := by
  rw [FileSystem.meansDirectory, candidate, Path.getLast?_fieldsAt_append _ h.isAbsolute]
  exact meansDirectory_of_isOrdinary h

/-- The candidate of a directory leads to the file below it. -/
theorem exists_candidate (hfs : Hosts fs current) (hlocator : Url.IsOrdinary locator)
    {directory : String} {base : Url}
    (hbase : Url.ofDirectory current directory.toList = .ok base) :
    ∃ url path, base.join (String.ofList locator) = .ok url ∧ url.filePath? = some path ∧
      FileSystem.meansDirectory path = false ∧
      fs.locate path = fs.locate (candidate locator directory) := by
  obtain ⟨absolute, habsolute, rfl⟩ : ∃ absolute,
      Path.absolute? current directory.toList = some absolute ∧
        Url.ofDirectoryPath absolute = base := by
    rw [Url.ofDirectory, Url.absolutePath] at hbase
    split at hbase
    next absolute habsolute => exact ⟨absolute, habsolute, Except.ok.inj hbase⟩
    next => cases hbase
  obtain ⟨hstarts, -⟩ := Path.components_of_absolute? hfs.absolute habsolute
  have hplain := meansDirectory_of_isOrdinary hlocator
  have hmeans : FileSystem.meansDirectory (Url.pathBelow absolute locator) = false := by
    rw [FileSystem.meansDirectory, Url.fieldsAt_pathBelow, ← List.cons_append,
      List.getLast?_append_of_ne_nil _ (fieldsAt_ne_nil '/' locator)]
    exact hplain
  exact ⟨_, _, hlocator.join hstarts, hlocator.filePath?_eq absolute, hmeans,
    FileSystem.locate_append hfs.absolute hfs.current habsolute hlocator.isAbsolute hplain rfl
      hmeans (Url.components_pathBelow hstarts locator)⟩

/-- A search goes through the candidates of the directories. -/
theorem fetchFirst_searchesTo (hfs : Hosts fs current) (hlocator : Url.IsOrdinary locator)
    {bases : List Url}
    (hbases : List.Forall₂ (fun directory base ↦
      Url.ofDirectory current (String.toList directory) = .ok base) directories bases)
    (hr : r.Faithful fs) :
    SearchesTo fs current locator directories
      (r.fetchFirst fs.read caches
        (bases.filterMap fun base ↦ (base.join (String.ofList locator)).toOption)).2 := by
  induction hbases generalizing r with
  | nil => exact .nowhere
  | @cons directory base directories bases hbase _ ih =>
    obtain ⟨url, path, hjoin, hpath, hmeans, hlocate⟩ := exists_candidate hfs hlocator hbase
    have habsolute := Url.isAbsolute_of_filePath? hpath
    have htext : fs.text path = fs.text (candidate locator directory) :=
      FileSystem.text_congr hlocate
    have hanswer : (r.fetchUrl fs.read caches url).2
        = answerOf url (fs.text (candidate locator directory)) := by
      rw [← htext]
      exact fetchUrl_eq_answerOf hpath fun _ ↦ hr.text_eq habsolute hmeans
    have hrest := ih (hr.fetchUrl caches url)
    rw [List.filterMap_cons_some (by rw [hjoin]; rfl), fetchFirst]
    rcases hfetched : r.fetchUrl fs.read caches url with ⟨r', result⟩
    rw [hfetched] at hanswer hrest
    dsimp only at hanswer hrest
    subst hanswer
    cases hbelow : fs.text (candidate locator directory) with
    | ok text => exact .found ⟨⟨base, hbase, hjoin⟩, ⟨path, hpath, hlocate⟩, hbelow⟩
    | error e =>
      have hread := (FileSystem.text_eq_error_iff hfs.text).mp hbelow
      cases e
      case notFound => exact .missing hread hrest
      all_goals exact .fails hread (by simp)

/-! ## The resolver of directories -/

theorem mapM_eq_ok_iff {α β ε : Type} {f : α → Except ε β} {inputs : List α} {outputs : List β} :
    inputs.mapM f = .ok outputs ↔ List.Forall₂ (fun a b ↦ f a = .ok b) inputs outputs := by
  induction inputs generalizing outputs with
  | nil => cases outputs <;> simp [pure, Except.pure]
  | cons a rest ih =>
    rw [List.mapM_cons, List.forall₂_cons_left_iff]
    cases ha : f a with
    | error e => simp [bind, Except.bind]
    | ok b =>
      cases hrest : rest.mapM f with
      | error e => simp [bind, Except.bind, ← ih, hrest]
      | ok bs => simp [bind, Except.bind, pure, Except.pure, ← ih, hrest, eq_comm]

theorem create_eq_ok_iff : create current directories = .ok created ↔ ∃ bases,
    List.Forall₂ (fun directory base ↦
      Url.ofDirectory current (String.toList directory) = .ok base) directories bases ∧
      created = { includePaths := bases } := by
  simp only [create, ← mapM_eq_ok_iff]
  cases directories.mapM fun directory ↦ Url.ofDirectory current directory.toList with
  | error e => exact iff_of_false (by simp [Except.map]) (by simp)
  | ok bases => simp [Except.map, eq_comm]

theorem run_of_create (h : create current directories = .ok created) : Run [] created := by
  obtain ⟨bases, -, rfl⟩ := create_eq_ok_iff.mp h
  exact .start bases

theorem exists_create (current : Path) {directories : List String} (h : "" ∉ directories) :
    ∃ created, create current directories = .ok created := by
  suffices hbases : ∃ bases, List.Forall₂ (fun directory base ↦
      Url.ofDirectory current (String.toList directory) = .ok base) directories bases by
    obtain ⟨bases, hbases⟩ := hbases
    exact ⟨_, create_eq_ok_iff.mpr ⟨bases, hbases, rfl⟩⟩
  induction directories with
  | nil => exact ⟨[], .nil⟩
  | cons directory rest ih =>
    rw [List.mem_cons, not_or] at h
    obtain ⟨bases, hbases⟩ := ih h.2
    obtain ⟨base, hbase⟩ : ∃ base, Url.ofDirectory current directory.toList = .ok base := by
      have hne : directory.toList.isEmpty = false := by
        rw [List.isEmpty_eq_false_iff]
        exact fun hnil ↦ h.1 (String.toList_eq_nil_iff.mp hnil).symm
      rw [Url.ofDirectory, Url.absolutePath, Path.absolute?, hne]
      exact ⟨_, rfl⟩
    exact ⟨base :: bases, .cons hbase hbases⟩

/-! ## Searches in a run -/

/-- What a search comes to that is completed when it has been started. -/
def find (disk : Disk) (r : FileResolver) (locator : String) :
    Except LoaderError (Option Resource) :=
  let (r, ticket) := r.search locator
  (r.answer disk ticket).2

theorem lookups_fetchUrl (disk : Disk) (caches : Bool) (r : FileResolver) (url : Url) :
    (r.fetchUrl disk caches url).1.lookups = r.lookups ∧
      (r.fetchUrl disk caches url).1.started = r.started := by
  rw [fetchUrl]
  split
  next => exact ⟨rfl, rfl⟩
  next =>
    split
    next => exact ⟨rfl, rfl⟩
    next path _ =>
      obtain ⟨_, -, -, hfetch⟩ | ⟨e, hfetch⟩ | ⟨_, -, hfetch⟩ := fetch_cases disk caches r path
      · rw [hfetch]
        exact ⟨rfl, rfl⟩
      · rw [hfetch]
        cases e <;> exact ⟨rfl, rfl⟩
      · rw [hfetch]
        exact ⟨rfl, rfl⟩

theorem lookups_fetchFirst (disk : Disk) (caches : Bool) (r : FileResolver)
    (candidates : List Url) :
    (r.fetchFirst disk caches candidates).1.lookups = r.lookups ∧
      (r.fetchFirst disk caches candidates).1.started = r.started := by
  induction candidates generalizing r with
  | nil => exact ⟨rfl, rfl⟩
  | cons url rest ih =>
    have hfirst := lookups_fetchUrl disk caches r url
    rw [fetchFirst]
    split
    next r₁ hnone =>
      rw [hnone] at hfirst
      rw [(ih r₁).1, (ih r₁).2]
      exact hfirst
    next => exact hfirst

/-- A ticket is new when a lookup is started. -/
theorem Run.ticket_lt (h : Run past r) : ∀ lookup ∈ r.lookups, lookup.ticket < r.started := by
  induction h with
  | start => simp
  | @step past r action _ _ ih =>
    have hstart (candidates : List Url) :
        ∀ lookup ∈ (r.start candidates).1.lookups, lookup.ticket < r.started + 1 := by
      intro lookup hmem
      rcases List.mem_append.mp hmem with hmem | hmem
      · exact Nat.lt_succ_of_lt (ih lookup hmem)
      · rw [List.mem_singleton.mp hmem]
        exact Nat.lt_succ_self _
    have hcancel (tickets : List Ticket) :
        ∀ lookup ∈ (r.cancel tickets).lookups, lookup.ticket < r.started :=
      fun lookup hmem ↦ ih lookup (List.mem_filter.mp hmem).1
    cases action with
    | enable | disable => exact ih
    | resolve url substitutions => exact hstart _
    | search locator => exact hstart _
    | cancel tickets => exact hcancel tickets
    | complete ticket disk =>
      rw [perform, answer]
      split
      next => exact ih
      next lookup _ =>
        obtain ⟨hlookups, hstarted⟩ := lookups_fetchFirst disk lookup.caches (r.cancel [ticket])
          lookup.candidates
        rw [hlookups, hstarted]
        exact hcancel [ticket]

/-- A search in a run goes through the directories, as long as the files stay as they are. -/
theorem Run.searchesTo (h : Run past r)
    (hpast : ∀ m ∈ past, ∀ ticket disk, m.action = .complete ticket disk → disk = fs.read)
    (hcreate : create current directories = .ok created)
    (hpaths : r.includePaths = created.includePaths) (hfs : Hosts fs current)
    (hlocator : Url.IsOrdinary locator) :
    SearchesTo fs current locator directories (r.find fs.read (String.ofList locator)) := by
  let candidates :=
    r.includePaths.filterMap fun base ↦ (base.join (String.ofList locator)).toOption
  have hfind : (r.search (String.ofList locator)).1.lookups.find? (·.ticket = r.started)
      = some ⟨r.started, candidates, r.isCaching⟩ := by
    have hold : r.lookups.find? (·.ticket = r.started) = none := by
      rw [List.find?_eq_none]
      intro lookup hmem
      simpa using (h.ticket_lt lookup hmem).ne
    rw [search, FileResolver.start, List.find?_append, hold]
    simp [candidates]
  have hfaithful : ((r.search (String.ofList locator)).1.cancel [r.started]).Faithful fs :=
    h.faithful hpast
  obtain ⟨bases, hbases, rfl⟩ := create_eq_ok_iff.mp hcreate
  rw [← show r.includePaths = bases from hpaths] at hbases
  change SearchesTo fs current locator directories
    ((r.search (String.ofList locator)).1.answer fs.read r.started).2
  rw [answer, hfind]
  exact fetchFirst_searchesTo hfs hlocator hbases hfaithful

/-! ## The first file -/

/-- What a search should come to: the file below the first directory that has one. -/
def IsFirst (fs : FileSystem) (current locator : Path) (directories : List String) :
    Option Resource → Prop
  | none => ∀ directory ∈ directories, fs.isFile (candidate locator directory) = false
  | some resource => ∃ directory,
      directories.find? (fun directory ↦ fs.isFile (candidate locator directory)) = some directory ∧
        IsFileBelow fs current locator directory resource

/-- The directories that come before the first that has the file. -/
def passed (fs : FileSystem) (locator : Path) (directories : List String) : List String :=
  directories.takeWhile fun directory ↦ !fs.isFile (candidate locator directory)

variable {result : Except LoaderError (Option Resource)}

/-- The first file is found if nothing is there before it. -/
theorem SearchesTo.first_iff (h : SearchesTo fs current locator directories result) :
    (∃ found, result = .ok found ∧ IsFirst fs current locator directories found) ↔
      ∀ directory ∈ passed fs locator directories,
        fs.read (candidate locator directory) = .error .notFound := by
  induction h with
  | nowhere => exact iff_of_true ⟨none, rfl, by simp [IsFirst]⟩ (by simp [passed])
  | @found directory rest resource hfile =>
    have hhas := FileSystem.isFile_of_text hfile.contents
    rw [passed, List.takeWhile_cons_of_neg (by simp [hhas])]
    refine iff_of_true ⟨some resource, rfl, directory, ?_, hfile⟩ (by simp)
    exact List.find?_cons_of_pos hhas
  | @missing directory rest result hread _ ih =>
    have hnone := FileSystem.isFile_eq_false_of_read hread
    rw [passed, List.takeWhile_cons_of_pos (by simp [hnone]), List.forall_mem_cons,
      and_iff_right hread, ← passed, ← ih]
    refine exists_congr fun found ↦ and_congr_right fun _ ↦ ?_
    cases found with
    | none => rw [IsFirst, List.forall_mem_cons, and_iff_right hnone, IsFirst]
    | some resource => rw [IsFirst, List.find?_cons_of_neg (by simp [hnone]), IsFirst]
  | @fails directory rest e hread hne =>
    have hnone := FileSystem.isFile_eq_false_of_read hread
    rw [passed, List.takeWhile_cons_of_pos (by simp [hnone]), List.forall_mem_cons]
    refine iff_of_false (by simp) fun hall ↦ hne ?_
    rw [hread] at hall
    exact Except.error.inj hall.1

/-- A search fails at the first directory at which something else is there. -/
theorem SearchesTo.eq_error (h : SearchesTo fs current locator directories result)
    {before after : List String} {directory : String} {e : IoError}
    (hsplit : directories = before ++ directory :: after)
    (hbefore : ∀ other ∈ before, fs.read (candidate locator other) = .error .notFound)
    (hread : fs.read (candidate locator directory) = .error e) (hne : e ≠ .notFound) :
    result = .error (.io e) := by
  induction h generalizing before with
  | nowhere => cases before <;> cases hsplit
  | @found first _ _ hfile =>
    have hhas := FileSystem.isFile_of_text hfile.contents
    have hnone : ∃ e, fs.read (candidate locator first) = .error e := by
      cases before with
      | nil => cases hsplit; exact ⟨e, hread⟩
      | cons other before => cases hsplit; exact ⟨_, hbefore _ (.head _)⟩
    obtain ⟨e, hnone⟩ := hnone
    rw [FileSystem.isFile_eq_false_of_read hnone] at hhas
    cases hhas
  | missing hnone _ ih =>
    cases before with
    | nil =>
      cases hsplit
      rw [hread] at hnone
      exact absurd (Except.error.inj hnone) hne
    | cons other before =>
      cases hsplit
      exact ih rfl fun other hmem ↦ hbefore other (.tail _ hmem)
  | fails hother hfails =>
    cases before with
    | nil =>
      cases hsplit
      rw [Except.error.inj (hread.symm.trans hother)]
    | cons other before =>
      cases hsplit
      rw [hbefore _ (.head _)] at hother
      exact absurd (Except.error.inj hother).symm hfails

/-- **Where a search stops.** Let a resolver have the directories of a configuration that has been
loaded: those of the options, then those that the environment names, then those of the file. At any
time of a run over files that stay as they are, a search for an ordinary locator comes to the file
below the first directory that has one, or to nothing if none has, if and only if nothing is found
below all directories before that one. Nothing is found below a directory if and only if a name on
the way is missing, provided that all of them can be names of files. If reading fails below a
directory for another reason, since there is a directory or the locator leads on where a file is,
then that is what the search comes to. -/
theorem Run.finds_first_iff {s : CommandLine.Surroundings} {options : CommandLine.Options}
    {config : Config} (h : Run past r)
    (hpast : ∀ m ∈ past, ∀ ticket disk, m.action = .complete ticket disk → disk = fs.read)
    (hload : CommandLine.loadConfig s options = .ok config)
    (hcreate : create s.current config.includePaths = .ok created)
    (hpaths : r.includePaths = created.includePaths) (hfs : Hosts fs s.current)
    (hlocator : Url.IsOrdinary locator) :
    (∃ file, CommandLine.readConfig s options.config = .ok file ∧
      config.includePaths = options.includes ++ s.namedDirectories ++ file.includePaths) ∧
    ((∃ found, r.find fs.read (String.ofList locator) = .ok found ∧
        IsFirst fs s.current locator config.includePaths found) ↔
      ∀ directory ∈ passed fs locator config.includePaths,
        fs.read (candidate locator directory) = .error .notFound) ∧
    (∀ directory, (∀ name ∈ Path.names (candidate locator directory), FileSystem.Fits name) →
      (fs.read (candidate locator directory) = .error .notFound ↔
        fs.Missing (fs.startOf (candidate locator directory))
          (Path.names (candidate locator directory)))) ∧
    ∀ before directory after e, config.includePaths = before ++ directory :: after →
      (∀ other ∈ before, fs.read (candidate locator other) = .error .notFound) →
      fs.read (candidate locator directory) = .error e → e ≠ .notFound →
        r.find fs.read (String.ofList locator) = .error (.io e) := by
  have hsearch := h.searchesTo hpast hcreate hpaths hfs hlocator
  exact ⟨CommandLine.includePaths_of_loadConfig hload, hsearch.first_iff,
    fun directory ↦ FileSystem.read_eq_notFound_iff (meansDirectory_candidate hlocator directory),
    fun _ _ _ _ hsplit hbefore hread hne ↦ hsearch.eq_error hsplit hbefore hread hne⟩

/-- Two directories of which the second has the file, and the first a file in its way. -/
def obstructedFiles : FileSystem :=
  .ofEntries "/w".toList
    [("/w/a/lib".toList, .file []), ("/w/b/lib/util.j".toList, .file [])]

def obstructedProject : CommandLine.Surroundings where
  current := "/w".toList
  disk := obstructedFiles.read

/-- The search does not get to the directory that has the file. -/
theorem finds_first_iff_obstructed :
    obstructedFiles.isFile "b/lib/util.j".toList = true ∧
    ∃ created, create "/w".toList ["a", "b"] = .ok created ∧
      created.find obstructedFiles.read "lib/util.j" = .error (.io .notDirectory) ∧
      ¬∃ found, created.find obstructedFiles.read "lib/util.j" = .ok found ∧
        IsFirst obstructedFiles "/w".toList "lib/util.j".toList ["a", "b"] found := by
  have hnames : "" ∉ ["a", "b"] := by decide
  obtain ⟨created, hcreate⟩ := exists_create "/w".toList hnames
  have hfs : Hosts obstructedFiles "/w".toList :=
    ⟨by decide, by decide +kernel, FileSystem.isText_of_bindings (by decide +kernel)⟩
  have hlocator : Url.IsOrdinary "lib/util.j".toList := by decide +kernel
  have hload : CommandLine.loadConfig obstructedProject { includes := ["a", "b"] }
      = .ok { includePaths := ["a", "b"] } := rfl
  have hread : obstructedFiles.read (candidate "lib/util.j".toList "a") = .error .notDirectory := by
    decide +kernel
  obtain ⟨-, hiff, -, herror⟩ :=
    (run_of_create hcreate).finds_first_iff (by simp) hload hcreate rfl hfs hlocator
  refine ⟨by decide +kernel, created, hcreate, ?_, fun hfirst ↦ ?_⟩
  · exact herror [] "a" ["b"] .notDirectory rfl (by simp) hread nofun
  · have hnone := hiff.mp hfirst "a" (by decide +kernel)
    rw [hread] at hnone
    cases hnone

end FileResolver

end ScriptLoader
