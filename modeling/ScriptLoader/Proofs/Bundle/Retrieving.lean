import ScriptLoader.Proofs.Bundle.Storing
import ScriptLoader.Proofs.Bundle.Targets

/-!
# What is found after bundling

Bundles are written one after the other, and a path leads to what was written last to its place. So
each returned path leads to a bundle, namely the last one that went to the same place, and every
unit is found again as long as no two units with different bundles go to one place.

Two units with one home do so only if they are one file. Between different homes nothing prevents
it, and of two files with one name in two of the roots the first one that is written is lost.
-/

namespace ScriptLoader

theorem Utf8.encode_inj {cs cs' : List Char} : encode cs = encode cs' ↔ cs = cs' := by
  refine ⟨fun h ↦ String.ofList_injective (String.toByteArray_inj.mp ?_), congrArg encode⟩
  rw [String.toByteArray_ofList, String.toByteArray_ofList]
  exact congrArg List.toByteArray h

theorem Utf8.decode?_slash (bytes : List UInt8) :
    decode? (0x2F :: bytes) = (decode? bytes).map ('/' :: ·) := by
  rw [decode?.eq_def]
  rfl

theorem Url.isAbsolute_of_filePath? {url : Url} {path : Path} (h : url.filePath? = some path) :
    path.isAbsolute = true := by
  obtain ⟨bytes, hbytes, hpath⟩ := Option.bind_eq_some_iff.mp h
  obtain ⟨more, rfl⟩ : ∃ more, bytes = 0x2F :: more := by
    rw [filePathBytes?] at hbytes
    obtain ⟨segments, hsegments, hbytes⟩ := Option.bind_eq_some_iff.mp hbytes
    obtain ⟨-, -, hbytes⟩ := Option.bind_eq_some_iff.mp hbytes
    obtain ⟨rest, rfl⟩ : ∃ rest, segments = fieldsAt '/' rest := by
      rw [segments?] at hsegments
      split at hsegments
      next rest _ => exact ⟨rest, (Option.some.inj hsegments).symm⟩
      next => cases hsegments
    cases hfields : fieldsAt '/' rest with
    | nil => exact absurd hfields (fieldsAt_ne_nil '/' rest)
    | cons segment segments =>
      rw [hfields] at hbytes
      cases hbytes
      split_ifs
      all_goals exact ⟨_, rfl⟩
  rw [Utf8.decode?_slash] at hpath
  obtain ⟨text, -, rfl⟩ := Option.map_eq_some_iff.mp hpath
  rfl

namespace Bundle

variable {roots : List Path} {output : Path} {units : List UnitInfo} {file last : File}
  {files : List File} {fs fs' : FileSystem} {paths : List Path} {place : Place}

/-- The last of several files that go to a place. -/
def lastAt? (current : Place) (files : List File) (place : Place) : Option File :=
  files.reverse.find? fun file ↦ Path.destination current file.target = place

theorem lastAt?_cons (current : Place) (file : File) (files : List File) (place : Place) :
    lastAt? current (file :: files) place =
      (lastAt? current files place).or
        (if Path.destination current file.target = place then some file else none) := by
  rw [lastAt?, List.reverse_cons, List.find?_append, ← lastAt?]
  congr 1
  by_cases h : Path.destination current file.target = place <;> simp [h]

theorem lastAt?_eq_none_iff {current : Place} :
    lastAt? current files place = none ↔
      ∀ file ∈ files, Path.destination current file.target ≠ place := by
  simp [lastAt?]

theorem of_lastAt? {current : Place} (h : lastAt? current files place = some last) :
    last ∈ files ∧ Path.destination current last.target = place := by
  refine ⟨List.mem_reverse.mp (List.mem_of_find?_eq_some h), ?_⟩
  simpa using List.find?_some h

/-! ## What is at each place -/

theorem File.exists_writes_of_store
    (h : (file.store FileSystem.storage).run fs = (.ok ⟨⟩, fs')) :
    ∃ fs₁, fs.Adds fs₁ ∧ fs₁.Writes file.target (Utf8.encode file.text) fs' := by
  obtain ⟨fs₁, hmade, hwrite⟩ := exists_of_store h
  refine ⟨fs₁, ?_, FileSystem.writes_of_write hwrite⟩
  obtain rfl | ⟨parent, hparent⟩ := hmade
  · exact .refl _
  · exact FileSystem.adds_of_ensureDirectory hparent

/-- What a run of writing does to the places of a file system. -/
structure Fills (files : List File) (fs fs' : FileSystem) : Prop where
  keeps : fs.KeepsDirectories fs'
  /-- What no file goes to stays as it was. -/
  spared : ∀ {place node}, lastAt? fs.current files place = none →
    fs.node? place = some node → fs'.node? place = some node
  /-- Where files go, the last one is found at the path of each. -/
  found : ∀ {file last}, file ∈ files →
    lastAt? fs.current files (Path.destination fs.current file.target) = some last →
    fs'.locate file.target
      = .ok (.file (Path.destination fs.current file.target) (Utf8.encode last.text))

theorem node?_of_locate_file {path : Path} {bytes : List UInt8}
    (h : fs.locate path = .ok (.file place bytes)) : fs.node? place = some (.file bytes) :=
  FileSystem.node?_of_locate h nofun

theorem Fills.nil (fs : FileSystem) : Fills [] fs fs where
  keeps := (FileSystem.Adds.refl fs).keepsDirectories
  spared _ := id
  found h := absurd h List.not_mem_nil

/-- The first file is found at its path, or the last of those that come after it to its place. -/
theorem Fills.cons {fs₁ fs₂ : FileSystem} (hadds : fs.Adds fs₁)
    (hwrites : fs₁.Writes file.target (Utf8.encode file.text) fs₂) (hfills : Fills files fs₂ fs') :
    Fills (file :: files) fs fs' := by
  have hcurrent₂ : fs₂.current = fs.current := hwrites.keeps.current.trans hadds.current
  obtain ⟨hkeeps, hspared, hfound⟩ := hfills
  have hhere := hwrites.found
  have helsewhere := @hwrites.elsewhere
  rw [hadds.current] at hhere helsewhere
  rw [hcurrent₂] at hspared hfound
  refine ⟨(hadds.keepsDirectories.trans hwrites.keeps).trans hkeeps, fun hnone hnode ↦ ?_,
    fun {file' last} hfile hlast ↦ ?_⟩
  · rw [lastAt?_cons, Option.or_eq_none_iff] at hnone
    refine hspared hnone.1 ((helsewhere fun heq ↦ ?_).trans (hadds.node hnode))
    simp [heq] at hnone
  · rw [lastAt?_cons] at hlast
    -- it is enough to know what is at the place of the first file in the end
    have hfirst (hnode : fs'.node? (Path.destination fs.current file.target)
        = some (.file (Utf8.encode last.text))) : fs'.locate file.target
          = .ok (.file (Path.destination fs.current file.target) (Utf8.encode last.text)) := by
      rw [← hcurrent₂] at hnode ⊢
      exact FileSystem.locate_of_keepsDirectories hkeeps hhere nofun nofun hnode
    cases hlater : lastAt? fs.current files (Path.destination fs.current file'.target) with
    | none =>
      have hnot : file' ∉ files := fun hmem ↦ lastAt?_eq_none_iff.mp hlater _ hmem rfl
      obtain rfl := (List.mem_cons.mp hfile).resolve_right hnot
      rw [hlater, Option.none_or, if_pos rfl] at hlast
      cases hlast
      exact hfirst (hspared hlater (node?_of_locate_file hhere))
    | some last' =>
      rw [hlater, Option.some_or] at hlast
      cases hlast
      rcases List.mem_cons.mp hfile with rfl | hfile
      · obtain ⟨hmem, hplace⟩ := of_lastAt? hlater
        rw [← hplace] at hlater
        refine hfirst ?_
        rw [← hplace]
        exact node?_of_locate_file (hfound hmem hlater)
      · exact hfound hfile hlater

theorem Stores.fills (h : Stores roots output units fs files fs') : Fills files fs fs' := by
  induction h with
  | nil fs => exact .nil fs
  | cons _ stored _ ih =>
    obtain ⟨fs₁, hadds, hwrites⟩ := File.exists_writes_of_store stored
    exact .cons hadds hwrites ih

/-- A file that is written leaves some file at its place. -/
theorem exists_lastAt?_of_mem (current : Place) (h : file ∈ files) :
    ∃ last, lastAt? current files (Path.destination current file.target) = some last := by
  refine Option.ne_none_iff_exists'.mp fun hnone ↦ ?_
  exact lastAt?_eq_none_iff.mp hnone file h rfl

theorem Stores.forall₂_fileOf (h : Stores roots output units fs files fs') :
    List.Forall₂ (fun unit file ↦ fileOf roots output unit = .ok file) units files := by
  induction h with
  | nil => exact .nil
  | cons bundled _ _ ih => exact .cons bundled ih

/-- A unit that imports nothing, at a path in a directory. -/
def plainUnit (directory name code : String) : UnitInfo where
  url := .file (directory ++ name).toList
  directory := .file directory.toList
  dependencies := []
  status := .loaded
  code := some code
  sourceMap := none

/-- Three units, two of them with one name in different directories. -/
def namesakes : List UnitInfo :=
  [plainUnit "/app/" "main.j" "main", plainUnit "/app/" "util.j" "app",
    plainUnit "/lib/" "util.j" "lib"]

def namesakeRoots : List Path := ["/app".toList, "/lib".toList]

end Bundle

end ScriptLoader
