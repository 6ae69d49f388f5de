import Mathlib.Data.List.DropRight
import ScriptLoader.Bundle.Writing
import ScriptLoader.Proofs.FileSystem.Writing
import ScriptLoader.Proofs.Url.Alphabet

/-!
# Where bundles end up

A bundle goes below the output directory at what remains of the path of its source below the first
root that holds the source, its *home*. Nothing is lost by that among sources with one home:
different files go to different places. But the home itself is forgotten, and sources with different
homes go to one place if the same remains of them. A source without a home keeps only its name, so
that two of them go to one place if they have the same name.

What is said of paths here is said of their names, the fields that are not skipped.
-/

namespace ScriptLoader

theorem fieldsAt_ne_nil (separator : Char) (cs : List Char) : fieldsAt separator cs ≠ [] := by
  cases cs with
  | nil => simp [fieldsAt]
  | cons c rest =>
    rw [fieldsAt]
    split_ifs
    · simp
    · split <;> simp

theorem fieldsAt_append (separator : Char) (cs more : List Char) :
    fieldsAt separator (cs ++ separator :: more)
      = fieldsAt separator cs ++ fieldsAt separator more := by
  induction cs with
  | nil => simp [fieldsAt]
  | cons c rest ih =>
    rw [List.cons_append, fieldsAt, fieldsAt, ih]
    split_ifs
    · rfl
    · cases hrest : fieldsAt separator rest with
      | nil => exact absurd hrest (fieldsAt_ne_nil separator rest)
      | cons field fields => rfl

theorem fieldsAt_of_not_mem {separator : Char} {cs : List Char} (h : separator ∉ cs) :
    fieldsAt separator cs = [cs] := by
  induction cs with
  | nil => rfl
  | cons c rest ih =>
    rw [List.mem_cons, not_or] at h
    rw [fieldsAt, if_neg (Ne.symm h.1), ih h.2]

namespace Path

variable {path root source relative : Path} {fields rest : List (List Char)}

/-- The names that a path is made of, steps up included. -/
def names (path : Path) : List (List Char) := (fieldsAt '/' path).filter (!isSkipped ·)

/-! ## Fields and names -/

theorem not_mem_of_mem_fieldsAt {field : List Char} (h : field ∈ fieldsAt '/' path) : '/' ∉ field :=
  fun hslash ↦ (mem_of_mem_fieldsAt h hslash).2 rfl

theorem isAbsolute_of_not_mem (h : '/' ∉ path) : isAbsolute path = false := by
  cases path with
  | nil => rfl
  | cons c rest =>
    have hc : c ≠ '/' := fun heq ↦ h (heq ▸ List.mem_cons_self)
    simp [isAbsolute, hc]

theorem isNormal_of_fileName? {name : List Char} (h : path.fileName? = some name) :
    '/' ∉ name ∧ isSkipped name = false ∧ name ≠ ['.', '.'] := by
  rw [fileName?, Option.filter_eq_some_iff] at h
  simpa [isNormal, and_assoc, and_comm, and_left_comm] using h.2

theorem names_joinFields (h : ∀ field ∈ fields, '/' ∉ field) :
    names (joinFields fields) = fields.filter (!isSkipped ·) := by
  fun_induction joinFields fields with
  | case1 => rfl
  | case2 field => rw [names, fieldsAt_of_not_mem (h field List.mem_cons_self)]
  | case3 field rest _ ih =>
    rw [List.forall_mem_cons] at h
    have ih := ih h.2
    rw [names] at ih ⊢
    rw [fieldsAt_append, fieldsAt_of_not_mem h.1, List.filter_append, ih, ← List.filter_append]
    rfl

theorem isAbsolute_joinFields (h : ∀ field ∈ fields, '/' ∉ field)
    (hhead : ∀ field ∈ fields.head?, isSkipped field = false) :
    isAbsolute (joinFields fields) = false := by
  match fields with
  | [] => rfl
  | [] :: _ => cases hhead [] rfl
  | (c :: cs) :: rest =>
    have hc : c ≠ '/' := fun heq ↦ h _ List.mem_cons_self (heq ▸ List.mem_cons_self)
    cases rest <;> simp [joinFields, isAbsolute, hc]

theorem filter_dropWhile_isSkipped (fields : List (List Char)) :
    (fields.dropWhile isSkipped).filter (!isSkipped ·) = fields.filter (!isSkipped ·) := by
  induction fields with
  | nil => rfl
  | cons field rest ih =>
    cases hskipped : isSkipped field with
    | true => simp [hskipped, ih]
    | false => simp [hskipped]

theorem trimEndFields_isPrefix (fields : List (List Char)) : trimEndFields fields <+: fields :=
  List.rdropWhile_prefix isSkipped fields

theorem filter_trimEndFields (fields : List (List Char)) :
    (trimEndFields fields).filter (!isSkipped ·) = fields.filter (!isSkipped ·) := by
  rw [trimEndFields, List.filter_reverse, filter_dropWhile_isSkipped, ← List.filter_reverse,
    List.reverse_reverse]

theorem filter_trimFields (fields : List (List Char)) :
    (trimFields fields).filter (!isSkipped ·) = fields.filter (!isSkipped ·) := by
  rw [trimFields, filter_trimEndFields, filter_dropWhile_isSkipped]

theorem mem_of_mem_trimFields {field : List Char} (h : field ∈ trimFields fields) :
    field ∈ fields :=
  (List.dropWhile_sublist _).subset ((trimEndFields_isPrefix _).subset h)

theorem isSkipped_of_head?_trimFields {field : List Char} (h : field ∈ (trimFields fields).head?) :
    isSkipped field = false := by
  have hprefix := trimEndFields_isPrefix (fields.dropWhile isSkipped)
  have hhead := List.head?_dropWhile_not isSkipped fields
  obtain ⟨more, hmore⟩ := hprefix
  rw [← hmore, List.head?_append, ← trimFields, Option.mem_def.mp h] at hhead
  simpa using hhead

/-! ## Below a directory -/

theorem exists_of_dropComponents {components : List (List Char)}
    (h : dropComponents fields components = some rest) :
    ∃ before, fields = before ++ rest ∧ before.filter (!isSkipped ·) = components := by
  fun_induction dropComponents fields components with
  | case1 =>
    cases h
    exact ⟨[], rfl, rfl⟩
  | case2 => cases h
  | case3 field fields component components hskipped ih =>
    obtain ⟨before, rfl, hbefore⟩ := ih h
    exact ⟨field :: before, rfl, by rw [List.filter_cons_of_neg (by simp [hskipped]), hbefore]⟩
  | case4 fields component components hskipped ih =>
    obtain ⟨before, rfl, hbefore⟩ := ih h
    refine ⟨component :: before, rfl, ?_⟩
    rw [List.filter_cons_of_pos (by simpa using hskipped), hbefore]
  | case5 => cases h

theorem exists_of_isAbsolute (h : source.isAbsolute = true) : ∃ text, source = '/' :: text := by
  cases source with
  | nil => cases h
  | cons c text =>
    obtain rfl : c = '/' := by simpa [isAbsolute] using h
    exact ⟨text, rfl⟩

theorem openFields_slash (text : List Char) :
    openFields ('/' :: text) = ([['/']], fieldsAt '/' text) := by
  rw [openFields, fieldsAt, if_pos rfl]
  cases htext : fieldsAt '/' text with
  | nil => exact absurd htext (fieldsAt_ne_nil '/' text)
  | cons field rest => rfl

theorem names_slash (text : List Char) : names ('/' :: text) = names text := by
  rw [names, fieldsAt, if_pos rfl, List.filter_cons_of_neg (by decide), names]

theorem components_of_isAbsolute (h : source.isAbsolute = true) :
    components source = ['/'] :: names source := by
  obtain ⟨text, rfl⟩ := exists_of_isAbsolute h
  rw [components, openFields_slash, names_slash]
  rfl

theorem trimmed_slash (text : List Char) :
    trimmed ('/' :: text) = '/' :: joinFields (trimEndFields (fieldsAt '/' text)) := by
  simp only [trimmed, openFields_slash]
  cases trimEndFields (fieldsAt '/' text) <;> rfl

/-- What remains of a path below a directory: below the empty path the whole, and otherwise what
comes after the components of the directory. -/
theorem below?_cases (hsource : source.isAbsolute = true)
    (h : source.below? root = some relative) :
    components root = [] ∧ relative.isAbsolute = true ∧ names relative = names source ∨
      components root ≠ [] ∧ relative.isAbsolute = false ∧
        components source = components root ++ names relative := by
  rw [components_of_isAbsolute hsource]
  obtain ⟨text, rfl⟩ := exists_of_isAbsolute hsource
  rw [below?, openFields_slash] at h
  dsimp only at h
  split_ifs at h with hroot hprefix
  · cases h
    refine .inl ⟨List.isEmpty_iff.mp hroot, ?_⟩
    rw [trimmed_slash]
    refine ⟨rfl, ?_⟩
    rw [names_slash, names_slash, names_joinFields fun field hfield ↦
      not_mem_of_mem_fieldsAt ((trimEndFields_isPrefix _).subset hfield), filter_trimEndFields]
    rfl
  · -- the directory starts at the root as well, and its other components are dropped
    obtain ⟨rest, hrest, rfl⟩ := Option.map_eq_some_iff.mp h
    obtain ⟨more, hmore⟩ := List.isPrefixOf_iff_prefix.mp hprefix
    rw [← hmore] at hroot hrest ⊢
    obtain ⟨before, hfields, hbefore⟩ := exists_of_dropComponents hrest
    have hslash : ∀ field ∈ trimFields rest, '/' ∉ field := by
      intro field hfield
      have hmem : field ∈ fieldsAt '/' text := by
        rw [hfields]
        exact List.mem_append_right _ (mem_of_mem_trimFields hfield)
      exact not_mem_of_mem_fieldsAt hmem
    refine .inr ⟨mt List.isEmpty_iff.mpr hroot,
      isAbsolute_joinFields hslash fun _ ↦ isSkipped_of_head?_trimFields, ?_⟩
    rw [names_joinFields hslash, filter_trimFields, names_slash, names, hfields, List.filter_append,
      hbefore]
    rfl

end Path

/-! ## Destinations -/

/-- Without steps up the names of a path are added to the place where it starts. -/
theorem Place.along_eq_append (place : Place) {fields : List (List Char)}
    (h : ['.', '.'] ∉ fields.filter (!Path.isSkipped ·)) :
    place.along fields = place ++ fields.filter (!Path.isSkipped ·) := by
  induction fields generalizing place with
  | nil => simp [along]
  | cons field rest ih =>
    cases hskipped : Path.isSkipped field with
    | true =>
      rw [List.filter_cons_of_neg (by simp [hskipped])] at h ⊢
      rw [along, if_pos hskipped, ih _ h]
    | false =>
      rw [List.filter_cons_of_pos (by simp [hskipped])] at h ⊢
      rw [List.mem_cons, not_or] at h
      rw [along, if_neg (by simp [hskipped]), if_neg (Ne.symm h.1), ih _ h.2, List.append_assoc]
      rfl

namespace Path

variable {current : Place} {output path : Path}

theorem destination_of_isAbsolute (h : path.isAbsolute = true) (hup : ['.', '.'] ∉ names path) :
    destination current path = names path := by
  rw [destination, if_pos h, Place.along_eq_append _ hup, names, List.nil_append]

/-- A path that is not absolute goes on from the one before it. -/
theorem destination_append (h : path.isAbsolute = false) (hup : ['.', '.'] ∉ names path) :
    destination current (output.append path) = destination current output ++ names path := by
  have hstart {more : Path} (hne : output ≠ []) :
      (output ++ more).isAbsolute = output.isAbsolute := by
    rw [isAbsolute, List.head?_append_of_ne_nil _ hne, isAbsolute]
  rw [names, ← Place.along_eq_append _ hup, append, if_neg (by simp [h])]
  -- a slash is put between the two unless the first is empty or ends in one
  rcases List.eq_nil_or_concat output with rfl | ⟨init, c, rfl⟩
  · rw [List.isEmpty_nil, Bool.true_or, if_pos rfl, destination, destination, List.nil_append, h]
    rfl
  rw [List.concat_eq_append] at hstart ⊢
  have hne : init ++ [c] ≠ [] := by simp
  by_cases hc : c = '/'
  · subst hc
    rw [if_pos (by simp), destination, destination, hstart hne, List.append_assoc,
      List.singleton_append, fieldsAt_append, fieldsAt_append, Place.along_append,
      Place.along_append]
    rfl
  · rw [if_neg (by simp [hc]), destination, destination, hstart hne, fieldsAt_append,
      Place.along_append]

end Path

namespace Bundle

variable {roots : List Path} {source source' output : Path} {current : Place}

/-- The first root that holds a source. -/
def home? (roots : List Path) (source : Path) : Option Path :=
  roots.find? fun root ↦ (source.below? root).isSome

theorem relativePath_eq (source : Path) (roots : List Path) :
    relativePath source roots
      = ((home? roots source).bind (source.below? ·)).getD (source.fileName?.getD []) := by
  rw [relativePath, home?]
  induction roots with
  | nil => rfl
  | cons root rest ih =>
    rw [List.findSome?_cons, List.find?_cons]
    cases hbelow : source.below? root with
    | none => exact ih
    | some relative => simp [hbelow]

theorem exists_below?_of_home? {root : Path} (h : home? roots source = some root) (output : Path) :
    ∃ relative, source.below? root = some relative ∧
      target source roots output = output.append relative := by
  have hfound : (source.below? root).isSome = true :=
    List.find?_some (p := fun root ↦ (source.below? root).isSome) h
  obtain ⟨relative, hrelative⟩ := Option.isSome_iff_exists.mp hfound
  refine ⟨relative, hrelative, ?_⟩
  rw [target, relativePath_eq, h, Option.bind_some, hrelative]
  rfl

/-- What lies below a root goes below the output directory by the names that come after the root.
Below the empty path lies everything, and it goes to where it is. -/
theorem destination_append_below {root relative : Path} (hsource : source.isAbsolute = true)
    (hup : ['.', '.'] ∉ Path.components source) (h : source.below? root = some relative)
    (current : Place) (output : Path) :
    Path.components source
        = (if Path.components root = [] then [['/']] else Path.components root) ++ relative.names ∧
      Path.destination current (output.append relative)
        = (if Path.components root = [] then [] else Path.destination current output)
          ++ relative.names := by
  obtain ⟨hroot, habsolute, hnames⟩ | ⟨hroot, habsolute, hbelow⟩ := Path.below?_cases hsource h
  · have hcomponents : Path.components source = [['/']] ++ relative.names := by
      rw [Path.components_of_isAbsolute hsource, hnames]
      rfl
    rw [hcomponents] at hup
    rw [if_pos hroot, if_pos hroot, Path.append, if_pos habsolute,
      Path.destination_of_isAbsolute habsolute (mt (List.mem_append_right _) hup)]
    exact ⟨hcomponents, rfl⟩
  · rw [hbelow] at hup
    rw [if_neg hroot, if_neg hroot,
      Path.destination_append habsolute (mt (List.mem_append_right _) hup)]
    exact ⟨hbelow, rfl⟩

/-- A source without a home goes below the output directory by its name. -/
theorem destination_target_of_home?_eq_none (h : home? roots source = none) :
    Path.destination current (target source roots output)
      = Path.destination current output ++ source.fileName?.toList := by
  rw [target, relativePath_eq, h, Option.bind_none, Option.getD_none]
  cases hname : source.fileName? with
  | none => exact Path.destination_append rfl (by decide)
  | some name =>
    obtain ⟨hslash, hskipped, hup⟩ := Path.isNormal_of_fileName? hname
    have hnames : Path.names name = [name] := by
      rw [Path.names, fieldsAt_of_not_mem hslash, List.filter_cons_of_pos (by simp [hskipped]),
        List.filter_nil]
    have habsolute : Path.isAbsolute name = false :=
      Path.isAbsolute_of_not_mem hslash
    rw [Option.getD_some, Path.destination_append habsolute (by simpa [hnames] using hup.symm),
      hnames]
    rfl

/-- **Where bundles meet.** Sources with one home go to one place only if they are one file, and
sources without a home if they have the same name. -/
theorem destination_target_inj (hsource : source.isAbsolute = true)
    (hsource' : source'.isAbsolute = true) (hup : ['.', '.'] ∉ Path.components source)
    (hup' : ['.', '.'] ∉ Path.components source')
    (hhome : home? roots source = home? roots source') :
    Path.destination current (target source roots output)
        = Path.destination current (target source' roots output) ↔
      if (home? roots source).isSome then Path.components source = Path.components source'
      else source.fileName? = source'.fileName? := by
  cases hroot : home? roots source with
  | none =>
    rw [destination_target_of_home?_eq_none hroot,
      destination_target_of_home?_eq_none (hhome ▸ hroot), List.append_cancel_left_eq,
      if_neg (by simp)]
    cases source.fileName? <;> cases source'.fileName? <;> simp
  | some root =>
    obtain ⟨relative, hbelow, htarget⟩ := exists_below?_of_home? hroot output
    obtain ⟨relative', hbelow', htarget'⟩ := exists_below?_of_home? (hhome ▸ hroot) output
    obtain ⟨hcomponents, hplace⟩ := destination_append_below hsource hup hbelow current output
    obtain ⟨hcomponents', hplace'⟩ := destination_append_below hsource' hup' hbelow' current output
    rw [htarget, htarget', hplace, hplace', hcomponents, hcomponents', if_pos Option.isSome_some,
      List.append_cancel_left_eq, List.append_cancel_left_eq]

end Bundle

end ScriptLoader
