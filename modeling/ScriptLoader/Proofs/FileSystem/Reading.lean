import ScriptLoader.Proofs.Bundle.Homes
import ScriptLoader.Proofs.FileSystem.Writing

/-!
# What is read at a path

A walk passes over empty fields and dots, so that what a path leads to depends on its names alone,
unless such a field comes last and asks for a directory. And a walk that leads to a directory goes
on from there as if it had started there. So a path that is relative to the current directory leads
to what the absolute path with the same names leads to.

Nothing is found at a path if a name on the way is missing in its directory. A file on the way is
something else, and so is a directory at the end.
-/

namespace ScriptLoader

namespace Path

variable {path base current directory locator : Path} {fields : List (List Char)}

/-- What fields are made of is in the names, but for slashes and dots. -/
theorem mem_iff_exists_mem_names {c : Char} (hslash : c ≠ '/') (hdot : c ≠ '.') :
    c ∈ path ↔ ∃ name ∈ names path, c ∈ name := by
  constructor
  · intro hmem
    obtain heq | ⟨field, hfield, hc⟩ := Url.mem_field_of_mem '/' hmem
    · exact absurd heq hslash
    · refine ⟨field, List.mem_filter.mpr ⟨hfield, ?_⟩, hc⟩
      rw [Bool.not_eq_true', Bool.eq_false_iff]
      intro hskipped
      rcases isSkipped_iff.mp hskipped with rfl | rfl
      · cases hc
      · exact hdot (List.mem_singleton.mp hc)
  · rintro ⟨name, hname, hc⟩
    exact (mem_of_mem_fieldsAt (List.mem_filter.mp hname).1 hc).1

theorem getLast?_fieldsAt_append (base : Path) (h : path.isAbsolute = false) :
    (fieldsAt '/' (base.append path)).getLast? = (fieldsAt '/' path).getLast? := by
  obtain ⟨-, heq⟩ | ⟨init, -, heq⟩ | ⟨-, heq⟩ := append_cases base h
  · rw [heq]
  all_goals rw [heq, fieldsAt_append, List.getLast?_append_of_ne_nil _ (fieldsAt_ne_nil '/' path)]

end Path

namespace FileSystem

variable {fs : FileSystem} {path path' : Path} {start place : Place}
  {fields more : List (List Char)} {name : List Char} {bytes : List UInt8}

/-! ## Walks -/

/-- A walk that leads to a directory goes on from there. -/
theorem walk_append (h : fs.walk start fields = .ok (.directory place)) :
    fs.walk start (fields ++ more) = fs.walk place more := by
  fun_induction walk fs start fields with
  | case1 => cases h; rfl
  | case2 _ _ _ hskipped ih => rw [List.cons_append, walk, if_pos hskipped, ih h]
  | case3 _ _ hskipped ih => rw [List.cons_append, walk, if_neg hskipped, if_pos rfl, ih h]
  | case4 | case5 | case7 | case8 | case9 | case10 => cases h
  | case6 _ _ _ hskipped hup hnull hlong _ hnode ih =>
    rw [List.cons_append, walk_directory hskipped hup hnull hlong hnode, ih h]

/-- A walk goes on as it would with other fields that are walked alike. -/
theorem walk_cons_congr {field : List Char} {rest rest' : List (List Char)}
    (hempty : rest.isEmpty = rest'.isEmpty)
    (hskipped : rest.all Path.isSkipped = rest'.all Path.isSkipped)
    (hwalk : ∀ start, fs.walk start rest = fs.walk start rest') :
    fs.walk start (field :: rest) = fs.walk start (field :: rest') := by
  rw [walk, walk, hempty, hskipped]
  simp only [hwalk]

/-- A walk goes by the names among the fields, unless the last field is no name. -/
theorem walk_filter (hlast : ∀ field ∈ fields.getLast?, Path.isSkipped field = false) :
    fs.walk start (fields.filter (!Path.isSkipped ·)) = fs.walk start fields := by
  induction fields generalizing start with
  | nil => rfl
  | cons field rest ih =>
    have hrest : ∀ last ∈ rest.getLast?, Path.isSkipped last = false := by
      intro last hmem
      refine hlast last ?_
      rw [List.getLast?_cons, Option.mem_def.mp hmem]
      rfl
    by_cases hfield : Path.isSkipped field = true
    · rw [List.filter_cons_of_neg (by simp [hfield]), walk, if_pos hfield, ih hrest]
    rw [List.filter_cons_of_pos (by simp [hfield])]
    -- a last name stays, so that names come after this one just if fields do
    have hname : rest = [] ∨ ∃ last ∈ rest, Path.isSkipped last = false := by
      rcases List.eq_nil_or_concat rest with hnil | ⟨init, last, rfl⟩
      · exact .inl hnil
      · exact .inr ⟨last, by simp, hrest last (by simp)⟩
    refine walk_cons_congr ?_ ?_ fun start ↦ ih hrest
    · obtain rfl | ⟨last, hlast, hname⟩ := hname
      · rfl
      · rw [List.isEmpty_eq_false_iff.mpr (List.ne_nil_of_mem hlast), List.isEmpty_eq_false_iff]
        exact List.ne_nil_of_mem (List.mem_filter.mpr ⟨hlast, by simp [hname]⟩)
    · obtain rfl | ⟨last, hlast, hname⟩ := hname
      · rfl
      · have hsome {fields : List (List Char)} (hmem : last ∈ fields) :
            fields.all Path.isSkipped = false :=
          List.all_eq_false.mpr ⟨last, hmem, by simp [hname]⟩
        rw [hsome hlast, hsome (List.mem_filter.mpr ⟨hlast, by simp [hname]⟩)]

theorem isSkipped_of_walk_file (h : fs.walk start fields = .ok (.file place bytes)) :
    ∀ field ∈ fields.getLast?, Path.isSkipped field = false := by
  have hstep {start : Place} {field : List Char} {rest : List (List Char)}
      (h : fs.walk start rest = .ok (.file place bytes))
      (hrest : ∀ last ∈ rest.getLast?, Path.isSkipped last = false) :
      ∀ last ∈ (field :: rest).getLast?, Path.isSkipped last = false := by
    cases rest with
    | nil => cases h
    | cons => rwa [List.getLast?_cons_cons]
  fun_induction walk fs start fields with
  | case1 | case4 | case5 | case8 | case9 | case10 => cases h
  | case2 _ _ _ _ ih | case3 _ _ _ ih | case6 _ _ _ _ _ _ _ _ _ ih => exact hstep h (ih h)
  | case7 _ _ _ hskipped _ _ _ _ _ _ hrest =>
    rw [List.isEmpty_iff.mp hrest]
    intro last hlast
    rw [← Option.some.inj hlast]
    exact Bool.eq_false_iff.mpr hskipped

/-! ## Paths -/

theorem meansDirectory_eq_false_iff : meansDirectory path = false ↔
    ∀ field ∈ (fieldsAt '/' path).getLast?, Path.isSkipped field = false := by
  rw [meansDirectory]
  cases (fieldsAt '/' path).getLast? <;> simp

/-- Paths that do not ask for a directory lead to the same if their names do. -/
theorem locate_congr (h : meansDirectory path = false) (h' : meansDirectory path' = false)
    (hnull : '\x00' ∈ path ↔ '\x00' ∈ path')
    (hwalk : fs.walk (fs.startOf path) (Path.names path)
      = fs.walk (fs.startOf path') (Path.names path')) :
    fs.locate path = fs.locate path' := by
  have hne {path : Path} (h : meansDirectory path = false) : path ≠ [] := by
    rintro rfl
    cases h
  have hcontains : path.contains '\x00' = path'.contains '\x00' := by
    rw [Bool.eq_iff_iff, List.contains_iff_mem, List.contains_iff_mem, hnull]
  rw [Path.names, walk_filter (meansDirectory_eq_false_iff.mp h), Path.names,
    walk_filter (meansDirectory_eq_false_iff.mp h')] at hwalk
  rw [locate_of_ne_nil (hne h), locate_of_ne_nil (hne h'), hcontains, hwalk]

/-- Absolute paths with the same components lead to the same, if neither asks for a directory. -/
theorem locate_eq_of_components (h : meansDirectory path = false)
    (h' : meansDirectory path' = false) (habsolute : path.isAbsolute = true)
    (habsolute' : path'.isAbsolute = true)
    (hcomponents : Path.components path = Path.components path') :
    fs.locate path = fs.locate path' := by
  rw [Path.components_of_isAbsolute habsolute, Path.components_of_isAbsolute habsolute']
    at hcomponents
  have hnames := (List.cons.inj hcomponents).2
  refine locate_congr h h' ?_ ?_
  · rw [Path.mem_iff_exists_mem_names (by decide) (by decide), hnames,
      ← Path.mem_iff_exists_mem_names (by decide) (by decide)]
  · rw [startOf, startOf, habsolute, habsolute', hnames]

/-- **Paths relative to the current directory.** A file below a directory is found at the absolute
path that has the names of that directory and then its own. -/
theorem locate_append {current base directory locator : Path}
    (habsolute : current.isAbsolute = true)
    (hcurrent : fs.locate current = .ok (.directory fs.current))
    (hdirectory : Path.absolute? current base = some directory)
    (hrelative : locator.isAbsolute = false) (hlocator : meansDirectory locator = false)
    (hstart : path.isAbsolute = true) (hpath : meansDirectory path = false)
    (hcomponents : Path.components path = Path.components directory ++ Path.names locator) :
    fs.locate path = fs.locate (base.append locator) := by
  have hbase : base ≠ [] := by
    rintro rfl
    cases hdirectory
  have hbelow : meansDirectory (base.append locator) = false := by
    rw [meansDirectory, Path.getLast?_fieldsAt_append base hrelative]
    exact hlocator
  have hnames : Path.names path
      = (if base.isAbsolute then [] else Path.names current)
        ++ Path.names (base.append locator) := by
    obtain ⟨-, hfrom⟩ := Path.components_of_absolute? habsolute hdirectory
    rw [Path.components_of_isAbsolute hstart, hfrom, Path.components_of_isAbsolute habsolute]
      at hcomponents
    rw [Path.names_append hrelative]
    split_ifs at hcomponents ⊢
    all_goals simpa using hcomponents
  obtain ⟨hclean, -, hwalk⟩ := locate_eq_ok_iff.mp hcurrent
  rw [habsolute, if_pos rfl] at hwalk
  refine locate_congr hpath hbelow ?_ ?_
  · have hnull : ¬∃ name ∈ Path.names current, '\x00' ∈ name := by
      rw [← Path.mem_iff_exists_mem_names (by decide) (by decide), ← List.contains_iff_mem, hclean]
      exact Bool.false_ne_true
    rw [Path.mem_iff_exists_mem_names (by decide) (by decide), hnames,
      @Path.mem_iff_exists_mem_names (base.append locator) _ (by decide) (by decide)]
    split_ifs <;> grind
  · rw [hnames, startOf, startOf, hstart, Path.isAbsolute_append hbase hrelative, if_pos rfl]
    split_ifs with habove
    · rfl
    · -- the walk of the current directory comes first
      have hlast := meansDirectory_eq_false_iff.mp hbelow
      have hfields : fieldsAt '/' (base.append locator) ≠ [] := fieldsAt_ne_nil '/' _
      rw [Path.names, Path.names, ← List.filter_append, walk_filter, walk_append hwalk,
        walk_filter hlast]
      rwa [List.getLast?_append_of_ne_nil _ hfields]

/-! ## Missing files -/

/-- Whether a name can be that of a file. -/
def Fits (name : List Char) : Prop :=
  '\x00' ∉ name ∧ (String.ofList name).utf8ByteSize ≤ maxNameBytes

/-- Nothing is at the names that lead on from a place: one of them is missing in its directory. -/
inductive Missing (fs : FileSystem) : Place → List (List Char) → Prop
  | here {place : Place} {name : List Char} {rest : List (List Char)} (hup : name ≠ ['.', '.'])
      (hnode : fs.node? (place ++ [name]) = none) : Missing fs place (name :: rest)
  | further {place : Place} {name : List Char} {rest : List (List Char)} (hup : name ≠ ['.', '.'])
      (hnode : fs.node? (place ++ [name]) = some .directory)
      (hmissing : Missing fs (place ++ [name]) rest) : Missing fs place (name :: rest)
  | up {place : Place} {rest : List (List Char)} (hmissing : Missing fs place.dropLast rest) :
      Missing fs place (['.', '.'] :: rest)

/-- A walk comes to nothing if a name is missing. -/
theorem walk_iff_missing {names : List (List Char)}
    (hnames : ∀ name ∈ names, Path.isSkipped name = false ∧ Fits name) :
    (fs.walk start names = .error .notFound ∨ ∃ place, fs.walk start names = .ok (.vacant place)) ↔
      fs.Missing start names := by
  induction names generalizing start with
  | nil =>
    rw [walk]
    refine iff_of_false (by simp) fun hmissing ↦ ?_
    cases hmissing
  | cons name rest ih =>
    rw [List.forall_mem_cons] at hnames
    obtain ⟨⟨hskipped, hnull, hlong⟩, hrest⟩ := hnames
    have hskipped : ¬Path.isSkipped name = true := by simp [hskipped]
    by_cases hup : name = ['.', '.']
    · subst hup
      rw [walk, if_neg hskipped, if_pos rfl, ih hrest]
      refine ⟨.up, fun hmissing ↦ ?_⟩
      cases hmissing with
      | here hup | further hup => exact absurd rfl hup
      | up hmissing => exact hmissing
    have hnull : ¬name.contains '\x00' = true := by simpa using hnull
    rw [walk, if_neg hskipped, if_neg hup, if_neg hnull, if_neg (Nat.not_lt.mpr hlong)]
    dsimp only
    split
    next hnode =>
      rw [ih hrest]
      refine ⟨.further hup hnode, fun hmissing ↦ ?_⟩
      cases hmissing with
      | here _ hnone => rw [hnode] at hnone; cases hnone
      | further _ _ hmissing => exact hmissing
      | up => exact absurd rfl hup
    next bytes hnode =>
      refine iff_of_false ?_ fun hmissing ↦ ?_
      · cases rest.isEmpty <;> simp
      · cases hmissing with
        | here _ hnone => rw [hnode] at hnone; cases hnone
        | further _ hdirectory => rw [hnode] at hdirectory; cases hdirectory
        | up => exact absurd rfl hup
    next hnode =>
      refine iff_of_true ?_ (.here hup hnode)
      cases rest.all Path.isSkipped <;> simp

/-- **What is not found.** Reading finds nothing exactly if a name on the way is missing. -/
theorem read_eq_notFound_iff (hpath : meansDirectory path = false)
    (hfits : ∀ name ∈ Path.names path, Fits name) :
    fs.read path = .error .notFound ↔ fs.Missing (fs.startOf path) (Path.names path) := by
  have hnull : path.contains '\x00' = false := by
    rw [Bool.eq_false_iff, ne_eq, List.contains_iff_mem,
      Path.mem_iff_exists_mem_names (by decide) (by decide)]
    rintro ⟨name, hname, hmem⟩
    exact (hfits name hname).1 hmem
  have hne : path ≠ [] := by
    rintro rfl
    cases hpath
  rw [← walk_iff_missing fun name hname ↦ ⟨Path.isSkipped_of_mem_names hname, hfits name hname⟩,
    Path.names, walk_filter (meansDirectory_eq_false_iff.mp hpath), FileSystem.read,
    locate_of_ne_nil hne, hnull, if_neg Bool.false_ne_true]
  split <;> simp_all

end FileSystem

end ScriptLoader
