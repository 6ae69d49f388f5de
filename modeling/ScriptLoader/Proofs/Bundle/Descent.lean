import ScriptLoader.Proofs.Bundle.Targets

/-!
# Paths as lists of components

The components of a path are its lead, which is a slash or a dot at the very start, and its names.
Everything that is done with paths here is what is done with their components: a path lies below
another if the components of the one start with those of the other, what remains has the components
that come after, and to append a path that is not absolute appends its names.

A path *descends* if all its components are names of files and directories. Such a path leads below
whatever it is appended to.
-/

namespace ScriptLoader

theorem fieldsAt_joinFields {fields : List (List Char)} (hne : fields ≠ [])
    (h : ∀ field ∈ fields, '/' ∉ field) : fieldsAt '/' (Path.joinFields fields) = fields := by
  fun_induction Path.joinFields fields with
  | case1 => exact absurd rfl hne
  | case2 field => exact fieldsAt_of_not_mem (h field List.mem_cons_self)
  | case3 field rest hrest ih =>
    rw [List.forall_mem_cons] at h
    rw [fieldsAt_append, fieldsAt_of_not_mem h.1, ih (by simpa using hrest) h.2]
    rfl

namespace Path

variable {path root source relative base : Path} {fields : List (List Char)}

theorem isSkipped_iff {field : List Char} :
    isSkipped field = true ↔ field = [] ∨ field = ['.'] := by
  simp [isSkipped]

/-! ## Lead and names -/

/-- The root or the leading dot of a path. -/
def lead (path : Path) : List (List Char) := (openFields path).1

theorem filter_openFields (path : Path) :
    (openFields path).2.filter (!isSkipped ·) = names path := by
  have hempty : isSkipped [] = true := rfl
  have hdot : isSkipped ['.'] = true := rfl
  rw [names, openFields.eq_def]
  split
  next field rest hfields => rw [hfields, List.filter_cons_of_neg (a := []) (by simp [hempty])]
  next rest hfields => rw [hfields, List.filter_cons_of_neg (by simp [hdot])]
  next => rfl

theorem isSkipped_of_mem_names {name : List Char} (h : name ∈ names path) :
    isSkipped name = false := by
  simpa using (List.mem_filter.mp h).2

theorem not_mem_of_mem_names {name : List Char} (h : name ∈ names path) : '/' ∉ name :=
  not_mem_of_mem_fieldsAt (List.mem_filter.mp h).1

theorem components_eq (path : Path) : components path = lead path ++ names path := by
  rw [← filter_openFields]
  rfl

theorem fieldsAt_of_isAbsolute (h : path.isAbsolute = true) :
    ∃ field rest, fieldsAt '/' path = [] :: field :: rest := by
  obtain ⟨text, rfl⟩ := exists_of_isAbsolute h
  rw [fieldsAt, if_pos rfl]
  obtain ⟨field, rest, hfields⟩ := List.exists_cons_of_ne_nil (fieldsAt_ne_nil '/' text)
  exact ⟨field, rest, congrArg _ hfields⟩

/-- The first field is empty only if the path is absolute or empty. -/
theorem isAbsolute_of_fieldsAt {field : List Char} {rest : List (List Char)}
    (h : fieldsAt '/' path = [] :: field :: rest) : path.isAbsolute = true := by
  cases path with
  | nil => cases h
  | cons c text =>
    rw [fieldsAt] at h
    split_ifs at h with hc
    · rw [isAbsolute, hc]
      rfl
    · split at h <;> cases h

theorem lead_eq (path : Path) :
    lead path = if path.isAbsolute then [['/']]
      else if (fieldsAt '/' path).head? = some ['.'] then [['.']] else [] := by
  rw [lead, openFields.eq_def]
  split
  next field rest hfields => rw [if_pos (isAbsolute_of_fieldsAt hfields)]
  next rest hfields =>
    have habsolute : ¬path.isAbsolute = true := fun habsolute ↦ by
      obtain ⟨field, more, hmore⟩ := fieldsAt_of_isAbsolute habsolute
      rw [hfields] at hmore
      cases hmore
    rw [if_neg habsolute, hfields, List.head?_cons, if_pos rfl]
  next hslash hdot =>
    have habsolute : ¬path.isAbsolute = true := fun habsolute ↦ by
      obtain ⟨field, rest, hfields⟩ := fieldsAt_of_isAbsolute habsolute
      exact hslash _ _ hfields
    have hhead : ¬(fieldsAt '/' path).head? = some ['.'] := fun hhead ↦ by
      obtain ⟨rest, hfields⟩ := List.head?_eq_some_iff.mp hhead
      exact hdot _ hfields
    rw [if_neg habsolute, if_neg hhead]

theorem lead_eq_nil (habsolute : ¬path.isAbsolute = true)
    (hdot : ¬(fieldsAt '/' path).head? = some ['.']) : lead path = [] := by
  rw [lead_eq, if_neg habsolute, if_neg hdot]

theorem length_lead_le (path : Path) : (lead path).length ≤ 1 := by
  rw [lead_eq]
  split_ifs <;> simp

/-- A slash that follows some text does not change how the path starts. -/
theorem lead_append_slash (hne : base ≠ []) (more : Path) :
    lead (base ++ '/' :: more) = lead base := by
  have habsolute : (base ++ '/' :: more).isAbsolute = base.isAbsolute := by
    rw [isAbsolute, List.head?_append_of_ne_nil _ hne, isAbsolute]
  have hhead : (fieldsAt '/' (base ++ '/' :: more)).head? = (fieldsAt '/' base).head? := by
    rw [fieldsAt_append, List.head?_append_of_ne_nil _ (fieldsAt_ne_nil '/' base)]
  rw [lead_eq, lead_eq, habsolute, hhead]

theorem names_append_slash (base more : Path) :
    names (base ++ '/' :: more) = names base ++ names more := by
  rw [names, fieldsAt_append, List.filter_append, names, names]

theorem names_nil : names [] = [] := rfl

/-- To append a path puts a slash before it, unless there is one or nothing is before it. -/
theorem append_cases (base : Path) (h : path.isAbsolute = false) :
    base = [] ∧ base.append path = path ∨
      (∃ init, base = init ++ ['/'] ∧ base.append path = init ++ '/' :: path) ∨
      base ≠ [] ∧ base.append path = base ++ '/' :: path := by
  rw [append, if_neg (by simp [h])]
  rcases List.eq_nil_or_concat base with rfl | ⟨init, c, rfl⟩
  · exact .inl ⟨rfl, rfl⟩
  rw [List.concat_eq_append]
  by_cases hc : c = '/'
  · rw [if_pos (by simp [hc])]
    exact .inr (.inl ⟨init, by rw [hc], by simp [hc]⟩)
  · rw [if_neg (by simp [hc])]
    exact .inr (.inr ⟨by simp, rfl⟩)

theorem names_append (h : path.isAbsolute = false) :
    names (base.append path) = names base ++ names path := by
  obtain ⟨rfl, heq⟩ | ⟨init, rfl, heq⟩ | ⟨-, heq⟩ := append_cases base h
  · rw [heq, names_nil, List.nil_append]
  · rw [heq, names_append_slash, names_append_slash, names_nil, List.append_nil]
  · rw [heq, names_append_slash]

theorem lead_append (hne : base ≠ []) (h : path.isAbsolute = false) :
    lead (base.append path) = lead base := by
  obtain ⟨rfl, -⟩ | ⟨init, rfl, heq⟩ | ⟨-, heq⟩ := append_cases base h
  · exact absurd rfl hne
  · rw [heq]
    by_cases hinit : init = []
    · rw [hinit, List.nil_append, List.nil_append, lead_eq, lead_eq]
      rfl
    · rw [lead_append_slash hinit, lead_append_slash hinit]
  · rw [heq, lead_append_slash hne]

theorem components_append (hne : base ≠ []) (h : path.isAbsolute = false) :
    components (base.append path) = components base ++ names path := by
  rw [components_eq, lead_append hne h, names_append h, components_eq, List.append_assoc]

/-! ## What lies below -/

theorem components_joinFields (hslash : ∀ field ∈ fields, '/' ∉ field)
    (hhead : ∀ field ∈ fields.head?, isSkipped field = false) :
    components (joinFields fields) = fields.filter (!isSkipped ·) := by
  have hlead : lead (joinFields fields) = [] := by
    refine lead_eq_nil (by simp [isAbsolute_joinFields hslash hhead]) fun hdot ↦ ?_
    rcases List.eq_nil_or_concat fields with rfl | ⟨_, _, rfl⟩
    · cases hdot
    · rw [fieldsAt_joinFields (by simp) hslash] at hdot
      cases hhead _ hdot
  rw [components_eq, hlead, List.nil_append, names_joinFields hslash]

theorem isSome_dropComponents_iff {wanted : List (List Char)} :
    (dropComponents fields wanted).isSome ↔ wanted <+: fields.filter (!isSkipped ·) := by
  fun_induction dropComponents fields wanted with
  | case1 => simp
  | case2 => simp
  | case3 field fields component rest hskipped ih =>
    rw [ih, List.filter_cons_of_neg (by simp [hskipped])]
  | case4 fields component rest hskipped ih =>
    rw [ih, List.filter_cons_of_pos (by simpa using hskipped), List.cons_prefix_cons,
      and_iff_right rfl]
  | case5 field fields component rest hskipped hne =>
    rw [List.filter_cons_of_pos (by simpa using hskipped), List.cons_prefix_cons]
    simp [Ne.symm hne]

theorem below?_eq (source root : Path) :
    below? source root = if components root = [] then some (trimmed source)
      else if lead source <+: components root then
        (dropComponents (openFields source).2 ((components root).drop (lead source).length)).map
          fun rest ↦ joinFields (trimFields rest)
      else none := by
  simp only [below?, List.isEmpty_iff, List.isPrefixOf_iff_prefix]
  rfl

theorem components_eq_openFields (path : Path) :
    components path = lead path ++ (openFields path).2.filter (!isSkipped ·) :=
  rfl

/-- Below a directory lie the paths whose components start with its own. -/
theorem isSome_below?_iff :
    (below? source root).isSome ↔ components root <+: components source := by
  rw [below?_eq]
  by_cases hroot : components root = []
  · simp [hroot]
  rw [if_neg hroot]
  by_cases hlead : lead source <+: components root
  · rw [if_pos hlead, Option.isSome_map, isSome_dropComponents_iff, components_eq_openFields source]
    obtain ⟨more, hmore⟩ := hlead
    rw [← hmore, List.drop_left, List.prefix_append_right_inj]
  · rw [if_neg hlead]
    refine ⟨nofun, fun hprefix ↦ absurd ?_ hlead⟩
    refine List.prefix_of_prefix_length_le (List.prefix_append _ _) hprefix ?_
    exact (length_lead_le source).trans (List.length_pos_iff.mpr hroot)

theorem not_mem_of_mem_openFields {field : List Char} (h : field ∈ (openFields path).2) :
    '/' ∉ field := by
  suffices hmem : field ∈ fieldsAt '/' path from not_mem_of_mem_fieldsAt hmem
  rw [openFields.eq_def] at h
  split at h
  next first rest hfields => exact hfields ▸ List.mem_cons_of_mem _ h
  next rest hfields => exact hfields ▸ List.mem_cons_of_mem _ h
  next => exact h

/-- To trim a path takes nothing from its components. -/
theorem components_trimmed (path : Path) : components (trimmed path) = components path := by
  have hslash : ∀ field ∈ trimEndFields (openFields path).2, '/' ∉ field := fun field hfield ↦
    not_mem_of_mem_openFields ((trimEndFields_isPrefix _).subset hfield)
  -- a path starts with the root, with a dot, or with a name or a step up
  by_cases habsolute : path.isAbsolute = true
  · obtain ⟨text, rfl⟩ := exists_of_isAbsolute habsolute
    rw [openFields_slash] at hslash
    rw [trimmed_slash, components_of_isAbsolute rfl, components_of_isAbsolute rfl, names_slash,
      names_slash, names_joinFields hslash, filter_trimEndFields, names]
  by_cases hdot : (fieldsAt '/' path).head? = some ['.']
  · obtain ⟨rest, hfields⟩ := List.head?_eq_some_iff.mp hdot
    have hopen : openFields path = ([['.']], rest) := by
      rw [openFields, hfields]
      rfl
    rw [hopen] at hslash
    have hslash : ∀ field ∈ ['.'] :: trimEndFields rest, '/' ∉ field :=
      List.forall_mem_cons.mpr ⟨by decide, hslash⟩
    have htrimmed : trimmed path = joinFields (['.'] :: trimEndFields rest) := by
      rw [trimmed, hopen]
      rfl
    rw [htrimmed, components, openFields, fieldsAt_joinFields (by simp) hslash, components, hopen]
    simp [filter_trimEndFields]
  · have hlead := lead_eq_nil habsolute hdot
    have hopen : openFields path = ([], fieldsAt '/' path) := by
      rw [openFields.eq_def]
      split
      next field rest hfields => exact absurd (isAbsolute_of_fieldsAt hfields) habsolute
      next rest hfields => exact absurd (by rw [hfields]; rfl) hdot
      next => rfl
    rw [hopen] at hslash
    have htrimmed : trimmed path = joinFields (trimEndFields (fieldsAt '/' path)) := by
      rw [trimmed, hopen]
    rw [htrimmed, components_joinFields hslash, filter_trimEndFields, components_eq, hlead, names,
      List.nil_append]
    intro field hfield
    obtain ⟨more, hmore⟩ := trimEndFields_isPrefix (fieldsAt '/' path)
    have hfirst : (fieldsAt '/' path).head? = some field := by
      rw [← hmore, List.head?_append, Option.mem_def.mp hfield]
      rfl
    obtain ⟨rest, hrest⟩ := List.head?_eq_some_iff.mp hfirst
    refine Bool.eq_false_iff.mpr fun hskipped ↦ ?_
    rcases isSkipped_iff.mp hskipped with rfl | rfl
    · -- only the empty path starts with an empty field and is not absolute
      cases rest with
      | nil =>
        rw [hrest] at hfield
        cases hfield
      | cons => exact habsolute (isAbsolute_of_fieldsAt hrest)
    · exact hdot hfirst

/-- What remains of a path below a directory has the components that come after the directory's. -/
theorem components_of_below? (h : below? source root = some relative) :
    components source = components root ++ components relative := by
  rw [below?_eq] at h
  split_ifs at h with hroot hlead
  · rw [hroot, ← Option.some.inj h, components_trimmed, List.nil_append]
  · obtain ⟨rest, hrest, rfl⟩ := Option.map_eq_some_iff.mp h
    obtain ⟨before, hfields, hbefore⟩ := exists_of_dropComponents hrest
    obtain ⟨more, hmore⟩ := hlead
    rw [← hmore, List.drop_left] at hbefore
    have hslash : ∀ field ∈ trimFields rest, '/' ∉ field := fun field hfield ↦
      not_mem_of_mem_openFields
        (hfields ▸ List.mem_append_right _ (mem_of_mem_trimFields hfield))
    rw [components_joinFields hslash fun _ ↦ isSkipped_of_head?_trimFields, filter_trimFields,
      components_eq_openFields source, hfields, List.filter_append, hbefore, ← hmore,
      List.append_assoc]

/-! ## Descending -/

/-- All components are names of files and directories. -/
def Descends (path : Path) : Prop := ∀ component ∈ components path, isNormal component = true

instance (path : Path) : Decidable (Descends path) :=
  inferInstanceAs (Decidable (∀ component ∈ components path, isNormal component = true))

theorem isNormal_iff {field : List Char} :
    isNormal field = true ↔ isSkipped field = false ∧ field ≠ ['.', '.'] ∧ '/' ∉ field := by
  simp [isNormal, and_assoc]

theorem descends_iff : Descends path ↔ lead path = [] ∧ ['.', '.'] ∉ names path := by
  rw [Descends, components_eq]
  constructor
  · intro h
    refine ⟨?_, fun hup ↦ ?_⟩
    · rw [lead_eq] at h ⊢
      split_ifs at h ⊢
      · exact absurd (h _ List.mem_cons_self) (by decide)
      · exact absurd (h _ List.mem_cons_self) (by decide)
      · rfl
    · exact absurd (h _ (List.mem_append_right _ hup)) (by decide)
  · rintro ⟨hlead, hup⟩ name hname
    rw [hlead, List.nil_append] at hname
    obtain ⟨hfield, hskipped⟩ := List.mem_filter.mp hname
    exact isNormal_iff.mpr
      ⟨by simpa using hskipped, fun heq ↦ hup (heq ▸ hname), not_mem_of_mem_fieldsAt hfield⟩

theorem Descends.components_eq_names (h : Descends path) : components path = names path := by
  rw [components_eq, (descends_iff.mp h).1, List.nil_append]

theorem Descends.isAbsolute (h : Descends path) : path.isAbsolute = false := by
  refine Bool.eq_false_iff.mpr fun habsolute ↦ ?_
  have hlead := (descends_iff.mp h).1
  rw [lead_eq, if_pos habsolute] at hlead
  cases hlead

/-- A path that descends leads below whatever it is appended to. -/
theorem Descends.components_append (h : Descends path) (base : Path) :
    components (base.append path) = components base ++ components path := by
  by_cases hbase : base = []
  · rw [hbase, append, if_neg (by simp [h.isAbsolute])]
    rfl
  · rw [Path.components_append hbase h.isAbsolute, h.components_eq_names]

theorem descends_of_isNormal {name : List Char} (h : isNormal name = true) : Descends name := by
  obtain ⟨hskipped, hup, hslash⟩ := isNormal_iff.mp h
  have hslashes : ∀ field ∈ [name], '/' ∉ field := by simpa using hslash
  have hhead : ∀ field ∈ [name].head?, isSkipped field = false := by simpa using hskipped
  have hcomponents := components_joinFields hslashes hhead
  intro component hcomponent
  rw [joinFields] at hcomponents
  rw [hcomponents, List.mem_filter, List.mem_singleton] at hcomponent
  exact hcomponent.1 ▸ h

end Path

namespace Bundle

variable {roots : List Path} {root source : Path}

/-! ## Where a source goes below the output directory -/

/-- A source with a home keeps the components that come after those of its home. -/
theorem components_of_home? (h : home? roots source = some root) :
    Path.components source
      = Path.components root ++ Path.components (relativePath source roots) := by
  obtain ⟨relative, hrelative⟩ := Option.isSome_iff_exists.mp
    (List.find?_some (p := fun root ↦ (source.below? root).isSome) h)
  rw [relativePath_eq, h, Option.bind_some, hrelative]
  exact Path.components_of_below? hrelative

/-- A source without a home keeps its name at most. -/
theorem descends_of_home?_eq_none (h : home? roots source = none) :
    (relativePath source roots).Descends := by
  rw [relativePath_eq, h, Option.bind_none, Option.getD_none]
  cases hname : source.fileName? with
  | none => exact (by decide : Path.Descends [])
  | some name =>
    refine Path.descends_of_isNormal ?_
    rw [Path.fileName?, Option.filter_eq_some_iff] at hname
    exact hname.2

/-- The home of a source is the first root whose components its own start with. -/
theorem home?_eq_some_iff : home? roots source = some root ↔
    ∃ before after, roots = before ++ root :: after ∧
      Path.components root <+: Path.components source ∧
      ∀ other ∈ before, ¬Path.components other <+: Path.components source := by
  rw [home?, List.find?_eq_some_iff_append]
  simp only [Path.isSome_below?_iff, Bool.not_eq_eq_eq_not, Bool.not_true, ← Bool.not_eq_true]
  constructor
  · rintro ⟨hroot, before, after, hroots, hbefore⟩
    exact ⟨before, after, hroots, hroot, hbefore⟩
  · rintro ⟨before, after, hroots, hroot, hbefore⟩
    exact ⟨hroot, before, after, hroots, hbefore⟩

end Bundle

end ScriptLoader
