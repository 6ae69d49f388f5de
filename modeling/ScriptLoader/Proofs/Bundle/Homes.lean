import ScriptLoader.Proofs.Url.Joining

/-!
# Bundles on the include path

A file that was found below an include path, at the names of a locator, goes below the output
directory at the same names if it is placed by that include path. Then an import with the same
locator finds the bundle, with the output directory as include path.

But a file is placed by the first root that holds it, which need not be the one it was found under.
If roots are nested and the outer one comes first, what lies below the inner one is placed by the
outer one and keeps the names between them; if the inner one comes first, a file that was found from
the outer one loses them. Either way the import does not find it.
-/

namespace ScriptLoader

namespace Path

variable {path base current directory : Path} {name : List Char}

theorem append_ne_nil (hne : base ≠ []) (h : path.isAbsolute = false) :
    base.append path ≠ [] := by
  obtain ⟨rfl, -⟩ | ⟨init, rfl, heq⟩ | ⟨-, heq⟩ := append_cases base h
  · exact absurd rfl hne
  · simp [heq]
  · simp [heq]

theorem isAbsolute_append (hne : base ≠ []) (h : path.isAbsolute = false) :
    (base.append path).isAbsolute = base.isAbsolute := by
  obtain ⟨rfl, -⟩ | ⟨init, rfl, heq⟩ | ⟨-, heq⟩ := append_cases base h
  · exact absurd rfl hne
  · rw [heq, isAbsolute, isAbsolute]
    cases init <;> rfl
  · rw [heq, isAbsolute, List.head?_append_of_ne_nil _ hne, isAbsolute]

theorem components_foldl_append {start : Path} (hstart : start.isAbsolute = true)
    {added : List (List Char)} (h : ∀ name ∈ added, '/' ∉ name ∧ isSkipped name = false) :
    (added.foldl append start).isAbsolute = true ∧
      components (added.foldl append start) = components start ++ added := by
  induction added generalizing start with
  | nil => exact ⟨hstart, (List.append_nil _).symm⟩
  | cons name rest ih =>
    rw [List.forall_mem_cons] at h
    have hne : start ≠ [] := by
      rintro rfl
      cases hstart
    have hname := isAbsolute_of_not_mem h.1.1
    have hnames : names name = [name] := by
      rw [names, fieldsAt_of_not_mem h.1.1, List.filter_cons_of_pos (by simp [h.1.2]),
        List.filter_nil]
    obtain ⟨habsolute, hcomponents⟩ := ih ((isAbsolute_append hne hname).trans hstart) h.2
    refine ⟨habsolute, ?_⟩
    rw [List.foldl_cons, hcomponents, components_append hne hname, hnames, List.append_assoc]
    rfl

/-- A path that is made absolute keeps its names, after those of the directory that it is relative
to. -/
theorem components_of_absolute? (hcurrent : current.isAbsolute = true)
    (h : absolute? current path = some directory) : directory.isAbsolute = true ∧
      components directory
        = (if path.isAbsolute then [['/']] else components current) ++ names path := by
  have hnames : (components path).filter (fun c ↦ c ≠ ['/'] && c ≠ ['.']) = names path := by
    have hall : ∀ name ∈ names path, (name ≠ ['/'] && name ≠ ['.']) = true := by
      intro name hname
      have hslash := not_mem_of_mem_names hname
      have hskipped := isSkipped_of_mem_names hname
      have hne : name ≠ ['/'] ∧ name ≠ ['.'] := by
        constructor <;> rintro rfl
        · exact hslash List.mem_cons_self
        · cases hskipped
      simpa using hne
    rw [components_eq, List.filter_append, List.filter_eq_self.mpr hall, lead_eq]
    split_ifs <;> rfl
  have hstart : ∃ start, start = (if !isAbsolute path then current
      else if path.take 2 = ['/', '/'] && path.take 3 ≠ ['/', '/', '/'] then ['/', '/']
      else ['/']) ∧ start.isAbsolute = true ∧
      components start = if path.isAbsolute then [['/']] else components current := by
    refine ⟨_, rfl, ?_⟩
    cases path.isAbsolute with
    | false => exact ⟨hcurrent, rfl⟩
    | true => split_ifs <;> first | exact ⟨rfl, rfl⟩ | simp_all
  obtain ⟨start, hstart, habsolute, hcomponents⟩ := hstart
  have hplain : ∀ name ∈ names path, '/' ∉ name ∧ isSkipped name = false :=
    fun name hname ↦ ⟨not_mem_of_mem_names hname, isSkipped_of_mem_names hname⟩
  obtain ⟨hwhole, hadded⟩ := components_foldl_append habsolute hplain
  rw [absolute?, hnames, ← hstart] at h
  have hne : (names path).foldl append start ≠ [] := by
    intro hnil
    rw [hnil] at hwhole
    cases hwhole
  rw [hcomponents] at hadded
  split_ifs at h with hempty hslash
  · obtain rfl := Option.some.inj h
    rw [isAbsolute_append hne rfl, components_append hne rfl, names_nil, List.append_nil]
    exact ⟨hwhole, hadded⟩
  · obtain rfl := Option.some.inj h
    exact ⟨hwhole, hadded⟩

/-- A path that is made absolute is made so with what is appended to it. -/
theorem exists_absolute?_append (hcurrent : current.isAbsolute = true)
    (h : absolute? current base = some directory) (hpath : path.isAbsolute = false) :
    ∃ absolute, absolute? current (base.append path) = some absolute ∧
      components absolute = components directory ++ names path := by
  have hbase : base ≠ [] := by
    rintro rfl
    cases h
  have hne : (base.append path).isEmpty = false := by
    rw [List.isEmpty_eq_false_iff]
    exact append_ne_nil hbase hpath
  obtain ⟨absolute, habsolute⟩ :
      ∃ absolute, absolute? current (base.append path) = some absolute := by
    rw [absolute?, if_neg (by simp [hne])]
    exact ⟨_, rfl⟩
  obtain ⟨-, hdirectory⟩ := components_of_absolute? hcurrent h
  obtain ⟨-, hcomponents⟩ := components_of_absolute? hcurrent habsolute
  refine ⟨absolute, habsolute, ?_⟩
  rw [hcomponents, isAbsolute_append hbase hpath, names_append hpath, hdirectory,
    List.append_assoc]

end Path

namespace Bundle

variable {roots : List Path} {root output locator : Path}

/-- A file below a root has a home, by which it is placed. -/
theorem exists_home?_append (hroot : root ∈ roots) (hlocator : locator.Descends) :
    ∃ home, home? roots (root.append locator) = some home ∧
      Path.components root ++ Path.components locator
        = Path.components home
          ++ Path.components (relativePath (root.append locator) roots) := by
  have hcomponents := hlocator.components_append root
  obtain ⟨home, hhome⟩ : ∃ home, home? roots (root.append locator) = some home := by
    rw [← Option.isSome_iff_exists, home?, List.find?_isSome]
    refine ⟨root, hroot, Path.isSome_below?_iff.mpr ?_⟩
    rw [hcomponents]
    exact List.prefix_append _ _
  refine ⟨home, hhome, ?_⟩
  rw [← hcomponents]
  exact components_of_home? hhome

/-- **Where a bundle of the include path is found.** A file below a root, at the names of a locator,
goes below the output directory by the names that come after its home, which is the first root whose
names the file's own start with. These are the names of the locator if and only if the home is that
root, and then an ordinary locator leads to the bundle when the output directory is an include
path. -/
theorem target_append_iff (hroot : root ∈ roots) (hlocator : locator.Descends) :
    ∃ home, home? roots (root.append locator) = some home ∧
      (∃ before after, roots = before ++ home :: after ∧
        Path.components home <+: Path.components (root.append locator) ∧
        ∀ other ∈ before, ¬Path.components other <+: Path.components (root.append locator)) ∧
      Path.components root ++ Path.components locator
        = Path.components home ++ Path.components (relativePath (root.append locator) roots) ∧
      (Path.components (relativePath (root.append locator) roots) = Path.components locator ↔
        Path.components home = Path.components root) ∧
      (Path.components home = Path.components root →
        Path.components (target (root.append locator) roots output)
            = Path.components (output.append locator) ∧
          ∀ {current directory : Path}, current.isAbsolute = true →
            Path.absolute? current output = some directory → Url.IsOrdinary locator →
              ∃ url path absolute,
                (Url.ofDirectoryPath directory).join (String.ofList locator) = .ok url ∧
                url.filePath? = some path ∧
                Path.absolute? current (target (root.append locator) roots output)
                  = some absolute ∧
                Path.components path = Path.components absolute) := by
  obtain ⟨home, hhome, hcomponents⟩ := exists_home?_append hroot hlocator
  -- the names of the file are cut in two, so that either part determines the other
  have hiff : Path.components (relativePath (root.append locator) roots)
        = Path.components locator ↔ Path.components home = Path.components root := by
    constructor
    · intro heq
      rw [heq] at hcomponents
      exact (List.append_cancel_right hcomponents).symm
    · intro heq
      rw [heq] at hcomponents
      exact (List.append_cancel_left hcomponents).symm
  refine ⟨home, hhome, home?_eq_some_iff.mp hhome, hcomponents, hiff, fun heq ↦ ?_⟩
  have hrelative := hiff.mpr heq
  have hdescends : (relativePath (root.append locator) roots).Descends := by
    rw [Path.Descends, hrelative]
    exact hlocator
  refine ⟨?_, fun {current directory} hcurrent hdirectory hordinary ↦ ?_⟩
  · rw [target, hdescends.components_append, hrelative, hlocator.components_append]
  · obtain ⟨hstarts, -⟩ := Path.components_of_absolute? hcurrent hdirectory
    obtain ⟨url, path, hjoin, hpath, hfound⟩ := hordinary.exists_filePath? hstarts
    obtain ⟨absolute, habsolute, hplaced⟩ :=
      Path.exists_absolute?_append hcurrent hdirectory hdescends.isAbsolute
    refine ⟨url, path, absolute, hjoin, hpath, habsolute, ?_⟩
    rw [hfound, hplaced, ← hdescends.components_eq_names, hrelative,
      ← hlocator.components_eq_names]

/-- Two roots of which one lies in the other, the outer one first. -/
def nestedRoots : List Path := ["/work".toList, "/work/app".toList]

/-- What is found from the outer root is found again. -/
theorem target_append_iff_outer :
    ∃ url path, (Url.ofDirectoryPath "/out".toList).join "app/main.j" = .ok url ∧
      url.filePath? = some path ∧
      Path.components path
        = Path.components (target "/work/app/main.j".toList nestedRoots "/out".toList) := by
  have hroot : "/work".toList ∈ nestedRoots := by decide
  have hlocator : Path.Descends "app/main.j".toList := by decide
  obtain ⟨home, hhome, -, -, -, hfound⟩ := @target_append_iff _ _ "/out".toList _ hroot hlocator
  have hwork : home? nestedRoots (Path.append "/work".toList "app/main.j".toList)
      = some "/work".toList := by decide
  obtain rfl := Option.some.inj (hwork.symm.trans hhome)
  have hcurrent : Path.isAbsolute ['/'] = true := rfl
  have hdirectory : Path.absolute? ['/'] "/out".toList = some "/out".toList := by decide
  obtain ⟨url, path, absolute, hjoin, hpath, habsolute, hcomponents⟩ :=
    (hfound rfl).2 hcurrent hdirectory (by decide +kernel)
  refine ⟨url, path, hjoin, hpath, hcomponents.trans ?_⟩
  have hplaced : Path.absolute? ['/']
      (target (Path.append "/work".toList "app/main.j".toList) nestedRoots "/out".toList)
        = some "/out/app/main.j".toList := by decide
  obtain rfl := Option.some.inj (hplaced.symm.trans habsolute)
  decide

/-- What is found from the inner root is placed by the outer one. -/
theorem target_append_ne_inner :
    ∃ root ∈ nestedRoots, ∃ locator : Path, locator.Descends ∧
      Path.components (target (root.append locator) nestedRoots "out".toList)
        ≠ Path.components (Path.append "out".toList locator) :=
  ⟨"/work/app".toList, by decide, "main.j".toList, by decide, by decide⟩

end Bundle

end ScriptLoader
