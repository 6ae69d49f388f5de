import Mathlib.Data.List.Basic
import ScriptLoader.FileSystem.Basic

/-!
# What writing leaves behind

Nothing in a file system stands for anything else, so the place that a path leads to can be read off
its text: the names lead down, and two dots lead up. Whether it leads there at all depends on the
directories on the way. These are never lost by writing, and so a file that has been written is
found again at its path until something else is written to its place.

What is said of a change here is said of what is at each place, before and after.
-/

namespace ScriptLoader

/-! ## Places -/

/-- The place that the fields of a path lead to. -/
def Place.along (place : Place) : List (List Char) → Place
  | [] => place
  | field :: rest =>
    if Path.isSkipped field then along place rest
    else if field = ['.', '.'] then along place.dropLast rest
    else along (place ++ [field]) rest

/-- The place that a path leads to, when relative paths start at `current`. -/
def Path.destination (current : Place) (path : Path) : Place :=
  Place.along (if path.isAbsolute then [] else current) (fieldsAt '/' path)

theorem Place.along_append (place : Place) (fields more : List (List Char)) :
    place.along (fields ++ more) = (place.along fields).along more := by
  induction fields generalizing place with
  | nil => rfl
  | cons field rest ih =>
    rw [List.cons_append, along, along]
    split_ifs
    all_goals exact ih _

theorem Place.along_of_all_isSkipped (place : Place) {fields : List (List Char)}
    (h : fields.all Path.isSkipped = true) : place.along fields = place := by
  induction fields with
  | nil => rfl
  | cons field rest ih =>
    rw [List.all_cons, Bool.and_eq_true] at h
    rw [along, if_pos h.1, ih h.2]

namespace FileSystem

variable {fs fs₁ fs' : FileSystem} {path : Path} {start there : Place} {fields : List (List Char)}
  {bytes : List UInt8} {node : Node} {position : Position}

/-- The place that a walk has got to. -/
def Position.place : Position → Place
  | .directory place | .file place _ | .vacant place => place

/-- What a walk says is at the place that it has got to. -/
def Position.node? : Position → Option Node
  | .directory _ => some .directory
  | .file _ bytes => some (.file bytes)
  | .vacant _ => none

section Name

variable {field : List Char} {rest : List (List Char)}
  (hskipped : ¬Path.isSkipped field = true) (hup : ¬field = ['.', '.'])
  (hnull : ¬field.contains '\x00' = true)
  (hlong : ¬maxNameBytes < (String.ofList field).utf8ByteSize)

include hskipped hup hnull hlong

theorem walk_directory (hnode : fs.node? (start ++ [field]) = some .directory) :
    fs.walk start (field :: rest) = fs.walk (start ++ [field]) rest := by
  rw [walk, if_neg hskipped, if_neg hup, if_neg hnull, if_neg hlong]
  simp only [hnode]

theorem walk_file (hnode : fs.node? (start ++ [field]) = some (.file bytes)) :
    fs.walk start [field] = .ok (.file (start ++ [field]) bytes) := by
  rw [walk, if_neg hskipped, if_neg hup, if_neg hnull, if_neg hlong]
  simp only [hnode]
  rfl

end Name

/-- A walk gets to the place that the fields lead to. -/
theorem place_of_walk (h : fs.walk start fields = .ok position) :
    position.place = start.along fields := by
  fun_induction walk fs start fields with
  | case1 => cases h; rfl
  | case2 _ _ _ hskipped ih => rw [Place.along, if_pos hskipped, ih h]
  | case3 _ _ hskipped ih => rw [Place.along, if_neg hskipped, if_pos rfl, ih h]
  | case4 | case5 | case8 | case10 => cases h
  | case6 _ _ _ hskipped hup _ _ _ _ ih => rw [Place.along, if_neg hskipped, if_neg hup, ih h]
  | case7 _ _ _ hskipped hup _ _ _ _ _ hrest =>
    cases h
    rw [Place.along, if_neg hskipped, if_neg hup, List.isEmpty_iff.mp hrest]
    rfl
  | case9 _ _ _ hskipped hup _ _ _ _ hrest =>
    cases h
    rw [Place.along, if_neg hskipped, if_neg hup, Place.along_of_all_isSkipped _ hrest]
    rfl

/-- What a walk says is there is there; a directory may also be where the walk started. -/
theorem node?_of_walk (h : fs.walk start fields = .ok position)
    (hposition : position.node? ≠ some .directory) : fs.node? position.place = position.node? := by
  fun_induction walk fs start fields with
  | case1 => cases h; exact absurd rfl hposition
  | case2 _ _ _ _ ih | case3 _ _ _ ih => exact ih h
  | case4 | case5 | case8 | case10 => cases h
  | case6 _ _ _ _ _ _ _ _ _ ih => exact ih h
  | case7 _ _ _ _ _ _ _ _ _ hnode => cases h; exact hnode
  | case9 _ _ _ _ _ _ _ _ hnode => cases h; exact hnode

/-- Whether all directories of a file system are directories of another one, with the same
directory for relative paths. -/
structure KeepsDirectories (fs fs' : FileSystem) : Prop where
  current : fs'.current = fs.current
  directory : ∀ {place}, fs.node? place = some .directory → fs'.node? place = some .directory

/-- A walk that ends at a file, or where nothing is but a file can be, ends at the file that is
there once the file system has changed, as long as the directories are kept. -/
theorem walk_of_keepsDirectories (hkeeps : fs.KeepsDirectories fs')
    (h : fs.walk start fields = .ok position) (hposition : position.node? ≠ some .directory)
    (hlast : position.node? = none → ∀ field ∈ fields.getLast?, Path.isSkipped field = false)
    (hnode : fs'.node? position.place = some (.file bytes)) :
    fs'.walk start fields = .ok (.file position.place bytes) := by
  have hlater {field field' : List Char} {rest : List (List Char)} (h : field' ∈ rest.getLast?) :
      field' ∈ (field :: rest).getLast? := by
    rw [List.getLast?_cons, Option.mem_def.mp h]
    rfl
  fun_induction walk fs start fields with
  | case1 => cases h; exact absurd rfl hposition
  | case2 _ _ _ hskipped ih =>
    rw [walk, if_pos hskipped]
    exact ih h fun hnone field hfield ↦ hlast hnone field (hlater hfield)
  | case3 _ _ hskipped ih =>
    rw [walk, if_neg hskipped, if_pos rfl]
    exact ih h fun hnone field hfield ↦ hlast hnone field (hlater hfield)
  | case4 | case5 | case8 | case10 => cases h
  | case6 _ _ _ hskipped hup hnull hlong _ hdirectory ih =>
    rw [walk_directory hskipped hup hnull hlong (hkeeps.directory hdirectory)]
    exact ih h fun hnone field hfield ↦ hlast hnone field (hlater hfield)
  | case7 _ _ _ hskipped hup hnull hlong _ _ _ hrest =>
    cases h
    rw [List.isEmpty_iff.mp hrest]
    exact walk_file hskipped hup hnull hlong hnode
  | case9 _ _ rest hskipped hup hnull hlong _ _ hrest =>
    cases h
    -- a field after the name would be skipped, and only a directory can be meant then
    have hnil : rest = [] := by
      by_contra hne
      refine Bool.false_ne_true ((hlast rfl _ ?_).symm.trans
        (List.all_eq_true.mp hrest _ (List.getLast_mem hne)))
      exact hlater (List.getLast?_eq_some_getLast hne)
    rw [hnil]
    exact walk_file hskipped hup hnull hlong hnode

/-! ## Whole paths -/

def startOf (fs : FileSystem) (path : Path) : Place := if path.isAbsolute then [] else fs.current

theorem locate_of_ne_nil (h : path ≠ []) :
    fs.locate path = if path.contains '\x00' then
        .error (.invalidInput "file name contained an unexpected NUL byte")
      else fs.walk (fs.startOf path) (fieldsAt '/' path) := by
  unfold locate startOf
  cases path with
  | nil => exact absurd rfl h
  | cons c rest =>
    by_cases hc : c = '/'
    · subst hc
      have habsolute : Path.isAbsolute ('/' :: rest) = true := rfl
      simp [habsolute, fieldsAt, walk, Path.isSkipped]
    · have habsolute : Path.isAbsolute (c :: rest) = false := by simp [Path.isAbsolute, hc]
      simp [habsolute, hc]

theorem locate_eq_ok_iff : fs.locate path = .ok position ↔
    path.contains '\x00' = false ∧ path ≠ [] ∧
      fs.walk (if path.isAbsolute then [] else fs.current) (fieldsAt '/' path) = .ok position := by
  by_cases hne : path = []
  · subst hne
    simp [locate]
  · rw [locate_of_ne_nil hne, startOf]
    cases path.contains '\x00' <;> simp [hne]

/-- A path leads to its destination, if it leads anywhere. -/
theorem place_of_locate (h : fs.locate path = .ok position) :
    position.place = path.destination fs.current :=
  place_of_walk (locate_eq_ok_iff.mp h).2.2

theorem node?_of_locate (h : fs.locate path = .ok position)
    (hposition : position.node? ≠ some .directory) : fs.node? position.place = position.node? :=
  node?_of_walk (locate_eq_ok_iff.mp h).2.2 hposition

/-- A path at which there is or can be a file leads to the file that is at its destination once the
file system has changed, as long as the directories are kept. -/
theorem locate_of_keepsDirectories (hkeeps : fs.KeepsDirectories fs')
    (h : fs.locate path = .ok position) (hposition : position.node? ≠ some .directory)
    (hlast : position.node? = none → meansDirectory path = false)
    (hnode : fs'.node? (path.destination fs.current) = some (.file bytes)) :
    fs'.locate path = .ok (.file (path.destination fs.current) bytes) := by
  rw [← place_of_locate h] at hnode ⊢
  obtain ⟨hnull, hne, hwalk⟩ := locate_eq_ok_iff.mp h
  refine locate_eq_ok_iff.mpr ⟨hnull, hne, ?_⟩
  rw [hkeeps.current]
  refine walk_of_keepsDirectories hkeeps hwalk hposition (fun hnone field hfield ↦ ?_) hnode
  have hlast := hlast hnone
  rw [meansDirectory, Option.mem_def.mp hfield] at hlast
  exact hlast

/-! ## Changes -/

@[simp] theorem node?_nil (fs : FileSystem) : fs.node? [] = some .directory := rfl

theorem node?_put (fs : FileSystem) {place : Place} (hplace : place ≠ []) (node : Node)
    (other : Place) :
    (fs.put place node).node? other = if other = place then some node else fs.node? other := by
  rw [FileSystem.node?, FileSystem.node?, put]
  split
  next hempty =>
    rw [if_neg fun heq ↦ hplace (heq.symm.trans (List.isEmpty_iff.mp hempty))]
  next => exact Table.get?_insert _ _ _ _

/-- Whether one file system has all that another has, and possibly more directories. -/
structure Adds (fs fs' : FileSystem) : Prop where
  current : fs'.current = fs.current
  node : ∀ {place node}, fs.node? place = some node → fs'.node? place = some node

namespace Adds

theorem refl (fs : FileSystem) : fs.Adds fs := ⟨rfl, id⟩

theorem trans (h : fs.Adds fs₁) (h₁ : fs₁.Adds fs') : fs.Adds fs' :=
  ⟨h₁.current.trans h.current, fun hnode ↦ h₁.node (h.node hnode)⟩

theorem keepsDirectories (h : fs.Adds fs') : fs.KeepsDirectories fs' := ⟨h.current, h.node⟩

end Adds

theorem KeepsDirectories.trans (h : fs.KeepsDirectories fs₁) (h₁ : fs₁.KeepsDirectories fs') :
    fs.KeepsDirectories fs' :=
  ⟨h₁.current.trans h.current, fun hnode ↦ h₁.directory (h.directory hnode)⟩

theorem adds_of_makeDirectory (h : fs.makeDirectory path = .ok fs') : fs.Adds fs' := by
  rw [makeDirectory] at h
  split at h
  next place hlocate =>
    cases h
    have hnode : fs.node? place = none := node?_of_locate hlocate nofun
    refine ⟨rfl, fun {other node} hother ↦ ?_⟩
    rw [node?_put fs (by rintro rfl; cases hnode), if_neg (by rintro rfl; simp_all)]
    exact hother
  next => cases h
  next => cases h

theorem adds_of_makeDirectories {depth : Nat} (h : fs.makeDirectories depth path = .ok fs') :
    fs.Adds fs' := by
  fun_induction makeDirectories fs depth path generalizing fs' with
  | case1 | case9 => cases h; exact .refl _
  | case2 | case4 | case5 | case8 | case10 => cases h
  | case3 _ _ _ _ hmade => cases h; exact adds_of_makeDirectory hmade
  | case6 _ _ _ _ _ _ _ habove _ hmade ih =>
    cases h
    exact (ih habove).trans (adds_of_makeDirectory hmade)
  | case7 _ _ _ _ _ _ _ habove _ _ _ ih =>
    cases h
    exact ih habove

theorem adds_of_ensureDirectory (h : fs.ensureDirectory path = .ok fs') : fs.Adds fs' :=
  adds_of_makeDirectories h

/-- What is written is found at the path, no directory is lost, and all other places are as they
were. -/
structure Writes (fs : FileSystem) (path : Path) (bytes : List UInt8) (fs' : FileSystem) :
    Prop where
  keeps : fs.KeepsDirectories fs'
  found : fs'.locate path = .ok (.file (path.destination fs.current) bytes)
  elsewhere : ∀ {place}, place ≠ path.destination fs.current → fs'.node? place = fs.node? place

theorem writes_of_write (h : fs.write path bytes = .ok fs') : fs.Writes path bytes fs' := by
  have hput {position : Position} (hlocate : fs.locate path = .ok position)
      (hposition : position.node? ≠ some .directory)
      (hlast : position.node? = none → meansDirectory path = false) :
      fs.Writes path bytes (fs.put position.place (.file bytes)) := by
    have hnode := node?_of_locate hlocate hposition
    have hne : position.place ≠ [] := fun heq ↦ hposition (by rw [← hnode, heq, node?_nil])
    have hkeeps : fs.KeepsDirectories (fs.put position.place (.file bytes)) := by
      refine ⟨rfl, fun {other} hother ↦ ?_⟩
      rw [node?_put fs hne, if_neg fun heq ↦ hposition (by rw [← hnode, ← heq, hother])]
      exact hother
    refine ⟨hkeeps, locate_of_keepsDirectories hkeeps hlocate hposition hlast ?_,
      fun {other} hother ↦ ?_⟩
    · rw [← place_of_locate hlocate, node?_put fs hne, if_pos rfl]
    · rw [← place_of_locate hlocate] at hother
      rw [node?_put fs hne, if_neg hother]
  rw [write] at h
  split at h
  next place _ hlocate =>
    cases h
    exact hput hlocate nofun nofun
  next => cases h
  next place hlocate =>
    split at h
    next => cases h
    next hlast =>
      cases h
      exact hput hlocate nofun fun _ ↦ Bool.eq_false_iff.mpr hlast
  next => cases h

theorem read_of_locate {place : Place} (h : fs.locate path = .ok (.file place bytes)) :
    fs.read path = .ok bytes := by
  rw [FileSystem.read, h]

end FileSystem

end ScriptLoader
