import ScriptLoader.Proofs.Url.LocalFiles

/-!
# Locators below a directory

A locator is *ordinary* if it consists of names of files and directories and has no character that
means anything else in a URL. An ordinary locator, resolved against the URL of a directory, names
the file at the directory's path with the locator's names after it: every name is encoded when the
URL is made and decoded when the URL becomes a path, and nothing in between takes it for a scheme, a
drive letter or a step up.
-/

namespace ScriptLoader.Url

open Percent

variable {locator : ScriptLoader.Path} {name path : List Char} {names : List (List Char)}

/-! ## Plain names -/

/-- A character that has a meaning in a URL. -/
def isSpecialChar (c : Char) : Bool := "\\?#%:|".toList.contains c

/-- A name whose characters mean nothing else. -/
structure IsPlain (name : List Char) : Prop where
  normal : Path.isNormal name = true
  plain : ∀ c ∈ name, isSpecialChar c = false

instance (name : List Char) : Decidable (IsPlain name) :=
  decidable_of_iff (Path.isNormal name = true ∧ name.all (!isSpecialChar ·) = true)
    ⟨fun h ↦ ⟨h.1, by simpa using h.2⟩, fun h ↦ ⟨h.normal, by simpa using h.plain⟩⟩

theorem IsPlain.not_mem (h : IsPlain name) {c : Char} (hc : isSpecialChar c = true) : c ∉ name :=
  fun hmem ↦ by
    rw [h.plain c hmem] at hc
    cases hc

theorem not_mem_encode {set : Char → Bool} {c : Char} (hc : c ∉ tripleChars) (h : c ∉ name) :
    c ∉ encode set name :=
  fun hmem ↦ (mem_encode hmem).elim hc fun hplain ↦ h hplain.2

theorem IsPlain.decode_encode (h : IsPlain name) :
    decode (encode encodedInPath name) = Utf8.encode name :=
  Percent.decode_encode fun c hc heq ↦ absurd (heq ▸ hc) (h.not_mem (by decide))

theorem IsPlain.not_dots (h : IsPlain name) :
    isDoubleDot (encode encodedInPath name) = false ∧
      isSingleDot (encode encodedInPath name) = false := by
  obtain ⟨hskipped, hup, -⟩ := Path.isNormal_iff.mp h.normal
  constructor
  · refine Bool.eq_false_iff.mpr fun hdots ↦ hup ?_
    rw [← Utf8.encode_inj, ← h.decode_encode]
    exact decode_of_isDoubleDot hdots
  · refine Bool.eq_false_iff.mpr fun hdot ↦ ?_
    obtain rfl : name = ['.'] := by
      rw [← Utf8.encode_inj, ← h.decode_encode]
      exact decode_of_isSingleDot hdot
    cases hskipped

/-- What has no mark at its end is no drive letter. -/
theorem not_isDriveLetter {segment : List Char} (hcolon : ':' ∉ segment) (hbar : '|' ∉ segment) :
    isDriveLetter segment = false := by
  match segment, hcolon, hbar with
  | [], _, _ | [_], _, _ | _ :: _ :: _ :: _, _, _ => rfl
  | [letter, mark], hcolon, hbar =>
    have hne : mark ≠ ':' ∧ mark ≠ '|' := by
      constructor <;> rintro rfl
      · exact hcolon (by simp)
      · exact hbar (by simp)
    simp [isDriveLetter, hne.1, hne.2]

theorem IsPlain.not_isDriveLetter (h : IsPlain name) :
    isDriveLetter (encode encodedInPath name) = false :=
  Url.not_isDriveLetter (not_mem_encode (by decide) (h.not_mem (by decide)))
    (not_mem_encode (by decide) (h.not_mem (by decide)))

/-! ## Adding names to the path of a directory -/

theorem pathRules_file : SchemeKind.file.pathRules = ⟨true, true⟩ := rfl

theorem not_isNormalDriveLetter_of_getLast? (h : ∀ c ∈ path.getLast?, c = '/') :
    isNormalDriveLetter path = false := by
  rw [isNormalDriveLetter, Bool.and_eq_false_iff]
  refine .inr (decide_eq_false fun hcolon ↦ ?_)
  exact absurd (h ':' hcolon) (by decide)

theorem IsFolder.not_isNormalDriveLetter (h : IsFolder path) :
    isNormalDriveLetter (path.drop 1) = false := by
  obtain ⟨rest, rfl⟩ := List.head?_eq_some_iff.mp h.head
  refine not_isNormalDriveLetter_of_getLast? fun c hc ↦ ?_
  have hlast := h.last
  rw [List.drop_one, List.tail_cons] at hc
  rw [List.getLast?_cons, Option.mem_def.mp hc] at hlast
  exact Option.some.inj hlast

theorem addSegment_of_isPlain {progress : PathProgress} (h : IsFolder progress.path)
    (hname : IsPlain name) (slash : Bool) :
    addSegment SchemeKind.file.pathRules progress name slash
      = { progress with path := progress.path ++ encode encodedInPath name
            ++ if slash then ['/'] else [] } := by
  obtain ⟨hdouble, hsingle⟩ := hname.not_dots
  rw [addSegment, pathRules_file]
  simp only [h.not_isNormalDriveLetter, hdouble, hsingle, hname.not_isDriveLetter,
    Bool.and_false, Bool.false_eq_true, if_false]

theorem IsFolder.append (h : IsFolder path) (segment : List Char) :
    IsFolder (path ++ segment ++ ['/']) := by
  refine ⟨?_, List.getLast?_concat ..⟩
  obtain ⟨rest, rfl⟩ := List.head?_eq_some_iff.mp h.head
  rfl

theorem addSegments_of_isPlain (hne : names ≠ []) (hnames : ∀ name ∈ names, IsPlain name)
    {progress : PathProgress} (h : IsFolder progress.path) :
    addSegments SchemeKind.file.pathRules progress names
      = { progress with path := progress.path
            ++ Path.joinFields (names.map (encode encodedInPath)) } := by
  induction progress, names using addSegments.induct SchemeKind.file.pathRules with
  | case1 => exact absurd rfl hne
  | case2 progress name =>
    rw [addSegments, addSegment_of_isPlain h (hnames name List.mem_cons_self)]
    simp [Path.joinFields]
  | case3 progress name rest hrest ih =>
    rw [List.forall_mem_cons] at hnames
    have hrestne : rest ≠ [] := fun hnil ↦ hrest hnil
    rw [addSegment_of_isPlain h hnames.1, if_pos rfl] at ih
    rw [addSegments, addSegment_of_isPlain h hnames.1, if_pos rfl,
      ih hrestne hnames.2 (h.append _)]
    · rw [List.map_cons, Path.joinFields]
      · simp
      · simpa using hrestne
    · exact hrest

/-! ## The URL of a directory -/

/-- A name that is encoded whole, steps up and drive letters included. -/
theorem decode_encode_fileName (name : List Char) :
    decode (encode encodedInFileName name) = Utf8.encode name :=
  Percent.decode_encode fun c _ hc ↦ by rw [hc]; decide

theorem not_mem_slash_encode_fileName (name : List Char) :
    '/' ∉ encode encodedInFileName name := by
  intro hmem
  rcases mem_encode hmem with htriple | hplain
  · exact absurd htriple (by decide)
  · exact absurd hplain.1 (by decide)

theorem isSkipped_encode {set : Char → Bool} (hdecode : decode (encode set name) = Utf8.encode name)
    (hname : Path.isSkipped name = false) : Path.isSkipped (encode set name) = false := by
  refine Bool.eq_false_iff.mpr fun hskipped ↦ ?_
  have hcases : name = [] ∨ name = ['.'] := by
    rcases Path.isSkipped_iff.mp hskipped with hnil | hdot
    · rw [hnil] at hdecode
      exact .inl (Utf8.encode_inj.mp hdecode.symm)
    · rw [hdot] at hdecode
      exact .inr (Utf8.encode_inj.mp hdecode.symm)
  rw [Path.isSkipped_iff.mpr hcases] at hname
  cases hname

theorem joinFields_append {more : List (List Char)} (hne : more ≠ []) (fields : List (List Char)) :
    Path.joinFields (fields ++ more)
      = fields.flatMap (· ++ ['/']) ++ Path.joinFields more := by
  induction fields with
  | nil => rfl
  | cons field rest ih =>
    rw [List.cons_append, Path.joinFields, ih, List.flatMap_cons]
    · simp
    · simp [hne]

theorem components_drop_one {directory : Path} (h : directory.isAbsolute = true) :
    (Path.components directory).drop 1 = Path.names directory := by
  rw [Path.components_of_isAbsolute h]
  rfl

private theorem flatMap_slash_append (f : List Char → List Char) (names : List (List Char)) :
    (names.flatMap fun name ↦ '/' :: f name) ++ ['/']
      = '/' :: names.flatMap fun name ↦ f name ++ ['/'] := by
  induction names with
  | nil => rfl
  | cons name rest ih => rw [List.flatMap_cons, List.append_assoc, ih, List.flatMap_cons]; simp

/-- The URL of a directory has a slash after each of the directory's names. -/
theorem path_ofDirectoryPath {directory : ScriptLoader.Path} (h : directory.isAbsolute = true) :
    (ofDirectoryPath directory).path
      = '/' :: (Path.names directory).flatMap fun name ↦
          encode encodedInFileName name ++ ['/'] := by
  change withFinalSlash (encodePath directory) = _
  rw [encodePath, components_drop_one h]
  split
  next hnames => rw [hnames]; rfl
  next hne =>
    obtain ⟨init, last, hnames⟩ := List.eq_nil_or_concat _ |>.resolve_left hne
    rw [withFinalSlash, if_neg, flatMap_slash_append]
    -- the last name is not empty and has no slash
    intro hlast
    have hmem : last ∈ Path.names directory := by simp [hnames]
    have hencoded := isSkipped_encode (decode_encode_fileName last)
      (Path.isSkipped_of_mem_names hmem)
    have hnonempty : encode encodedInFileName last ≠ [] := fun hnil ↦ by
      rw [hnil] at hencoded
      cases hencoded
    rw [hnames, List.concat_eq_append, List.flatMap_append, List.flatMap_singleton,
      List.getLast?_append_of_ne_nil _ (by simp), List.getLast?_cons,
      List.getLast?_eq_some_getLast hnonempty, Option.getD_some] at hlast
    exact not_mem_slash_encode_fileName last (Option.some.inj hlast ▸ List.getLast_mem hnonempty)

theorem isFolder_ofDirectoryPath {directory : ScriptLoader.Path}
    (h : directory.isAbsolute = true) : IsFolder (ofDirectoryPath directory).path := by
  rw [path_ofDirectoryPath h, ← flatMap_slash_append]
  refine ⟨?_, List.getLast?_concat ..⟩
  rw [flatMap_slash_append]
  rfl

/-! ## Resolving an ordinary locator -/

/-- A relative path that a URL does not change the meaning of. -/
structure IsOrdinary (locator : ScriptLoader.Path) : Prop where
  plain : ∀ field ∈ fieldsAt '/' locator, IsPlain field
  /-- Nothing is taken away before the locator is read. -/
  clean : cleanInput locator = locator

instance (locator : ScriptLoader.Path) : Decidable (IsOrdinary locator) :=
  decidable_of_iff
    ((∀ field ∈ fieldsAt '/' locator, IsPlain field) ∧ cleanInput locator = locator)
    ⟨fun h ↦ ⟨h.1, h.2⟩, fun h ↦ ⟨h.plain, h.clean⟩⟩

theorem mem_field_of_mem (separator : Char) {c : Char} {cs : List Char} (h : c ∈ cs) :
    c = separator ∨ ∃ field ∈ fieldsAt separator cs, c ∈ field := by
  induction cs with
  | nil => cases h
  | cons d rest ih =>
    obtain ⟨first, more, hfields⟩ := List.exists_cons_of_ne_nil (fieldsAt_ne_nil separator rest)
    rw [hfields] at ih
    rw [fieldsAt, hfields]
    split_ifs with hd
    · rcases List.mem_cons.mp h with rfl | h
      · exact .inl hd
      · obtain heq | ⟨field, hfield, hmem⟩ := ih h
        · exact .inl heq
        · exact .inr ⟨field, List.mem_cons_of_mem _ hfield, hmem⟩
    · rcases List.mem_cons.mp h with rfl | h
      · exact .inr ⟨c :: first, List.mem_cons_self, List.mem_cons_self⟩
      · obtain heq | ⟨field, hfield, hmem⟩ := ih h
        · exact .inl heq
        · rcases List.mem_cons.mp hfield with rfl | hfield
          · exact .inr ⟨d :: field, List.mem_cons_self, List.mem_cons_of_mem _ hmem⟩
          · exact .inr ⟨field, List.mem_cons_of_mem _ hfield, hmem⟩

theorem IsOrdinary.not_mem (h : IsOrdinary locator) {c : Char} (hc : isSpecialChar c = true) :
    c ∉ locator := by
  intro hmem
  obtain rfl | ⟨field, hfield, hmem⟩ := mem_field_of_mem '/' hmem
  · exact absurd hc (by decide)
  · exact (h.plain field hfield).not_mem hc hmem

theorem IsOrdinary.exists_cons (h : IsOrdinary locator) :
    ∃ c rest, locator = c :: rest ∧ c ≠ '/' ∧ isSpecialChar c = false := by
  cases locator with
  | nil => exact absurd (h.plain [] (by simp [fieldsAt])).normal (by decide)
  | cons c rest =>
    refine ⟨c, rest, rfl, ?_, Bool.eq_false_iff.mpr fun hc ↦ h.not_mem hc List.mem_cons_self⟩
    rintro rfl
    have hempty : [] ∈ fieldsAt '/' ('/' :: rest) := by simp [fieldsAt]
    exact absurd (h.plain [] hempty).normal (by decide)

theorem IsOrdinary.isAbsolute (h : IsOrdinary locator) : locator.isAbsolute = false := by
  obtain ⟨c, rest, rfl, hc, -⟩ := h.exists_cons
  simpa [Path.isAbsolute] using hc

theorem spanScheme_eq_none {cs : List Char} (h : ':' ∉ cs) : spanScheme cs = none := by
  induction cs with
  | nil => rfl
  | cons c rest ih =>
    rw [List.mem_cons, not_or] at h
    rw [spanScheme, if_neg (Ne.symm h.1), ih h.2]
    split_ifs <;> rfl

theorem splitScheme_eq_none {cs : List Char} (h : ':' ∉ cs) : splitScheme cs = none := by
  rw [splitScheme.eq_def]
  split
  · rw [spanScheme_eq_none h, ite_self]
  · rfl

theorem not_startsWithDriveLetter {cs : List Char} (hcolon : ':' ∉ cs) (hbar : '|' ∉ cs) :
    startsWithDriveLetter cs = false := by
  match cs, hcolon, hbar with
  | [], _, _ | [_], _, _ => rfl
  | letter :: mark :: rest, hcolon, hbar =>
    have hletter : isDriveLetter [letter, mark] = false :=
      not_isDriveLetter (fun hmem ↦ hcolon (List.mem_append_left rest hmem))
        fun hmem ↦ hbar (List.mem_append_left rest hmem)
    simp only [startsWithDriveLetter, hletter, Bool.false_and]

theorem splitTail_eq_self {cs : List Char} (hquery : '?' ∉ cs) (hfragment : '#' ∉ cs) :
    splitTail cs = (cs, []) := by
  have hall : ∀ c ∈ cs, (c ≠ '?' && c ≠ '#') = true := by
    intro c hc
    have hne : c ≠ '?' ∧ c ≠ '#' :=
      ⟨fun heq ↦ hquery (heq ▸ hc), fun heq ↦ hfragment (heq ▸ hc)⟩
    simpa using hne
  rw [splitTail, List.span_eq_takeWhile_dropWhile, List.takeWhile_eq_self_iff.mpr hall,
    List.dropWhile_eq_nil_iff.mpr hall]

theorem segmentsOf_eq {cs : List Char} (h : '\\' ∉ cs) (rules : PathRules) :
    segmentsOf rules cs = fieldsAt '/' cs := by
  have hmap : (cs.map fun c ↦ if c = '\\' then '/' else c) = cs := by
    conv_rhs => rw [← List.map_id cs]
    refine List.map_congr_left fun c hc ↦ ?_
    have hne : c ≠ '\\' := fun heq ↦ h (heq ▸ hc)
    exact if_neg hne
  rw [segmentsOf, hmap, ite_self]

theorem IsFolder.popSegment (h : IsFolder path) (rules : PathRules) :
    popSegment rules path = path := by
  obtain ⟨init, rfl⟩ : ∃ init, path = init ++ ['/'] :=
    List.getLast?_eq_some_iff.mp h.last
  have hthrough : throughLastSlash (init ++ ['/']) = init ++ ['/'] := by
    simp [throughLastSlash]
  rw [Url.popSegment, hthrough, ite_self]

/-- An ordinary locator is resolved in the directory itself. -/
theorem IsOrdinary.join_eq (h : IsOrdinary locator) {directory : ScriptLoader.Path} :
    (ofDirectoryPath directory).join (String.ofList locator)
      = .ok (withExtendedPath .file (ofDirectoryPath directory)
          (popSegment SchemeKind.file.pathRules (ofDirectoryPath directory).path) locator) := by
  obtain ⟨c, rest, rfl, hslash, hspecial⟩ := h.exists_cons
  have hne {d : Char} (hd : isSpecialChar d = true) : c ≠ d := by
    rintro rfl
    rw [hspecial] at hd
    cases hd
  have hc : isSlash c = false := by
    simp [isSlash, hslash, hne (d := '\\') (by decide)]
  have hdrive : startsWithDriveLetter (c :: rest) = false :=
    not_startsWithDriveLetter (h.not_mem (by decide)) (h.not_mem (by decide))
  have hdirectory (base : Url) : parseFile (some base) (c :: rest)
      = .ok (parseFile.fromDirectory (some base) (c :: rest)) := by
    cases rest <;> simp [parseFile, hc]
  rw [join, String.toList_ofList, parseAgainst.eq_def, h.clean]
  dsimp only
  rw [splitScheme_eq_none (h.not_mem (by decide))]
  dsimp only
  split
  next heq => exact absurd (List.cons.inj heq).1 (hne (by decide))
  next =>
    have hpathless : (ofDirectoryPath directory).isPathless = false := rfl
    have hfile : (ofDirectoryPath directory).isFile = true := decide_eq_true rfl
    rw [hpathless, hfile, if_neg Bool.false_ne_true, if_pos rfl, hdirectory,
      parseFile.fromDirectory.eq_def]
    dsimp only
    split
    next heq => cases heq
    next heq => exact absurd (List.cons.inj heq).1 (hne (by decide))
    next heq => exact absurd (List.cons.inj heq).1 (hne (by decide))
    next => rw [if_neg (by simp [hdrive])]

/-- The segments of a name below a directory. -/
def segmentsBelow (directory locator : ScriptLoader.Path) : List (List Char) :=
  (Path.names directory).map (encode encodedInFileName)
    ++ (fieldsAt '/' locator).map (encode encodedInPath)

theorem segmentsBelow_of_isPlain (directory : ScriptLoader.Path) (h : IsOrdinary locator) :
    ∀ segment ∈ segmentsBelow directory locator,
      '/' ∉ segment ∧ Path.isSkipped segment = false := by
  intro segment hsegment
  rcases List.mem_append.mp hsegment with hmem | hmem
  · obtain ⟨name, hname, rfl⟩ := List.mem_map.mp hmem
    exact ⟨not_mem_slash_encode_fileName name, isSkipped_encode (decode_encode_fileName name)
      (Path.isSkipped_of_mem_names hname)⟩
  · obtain ⟨name, hname, rfl⟩ := List.mem_map.mp hmem
    have hplain := h.plain name hname
    obtain ⟨hskipped, -, hslash⟩ := Path.isNormal_iff.mp hplain.normal
    exact ⟨not_mem_encode (by decide) hslash, isSkipped_encode hplain.decode_encode hskipped⟩

/-- **An ordinary locator below a directory.** Its URL has the directory's names as segments and
after them its own. -/
theorem IsOrdinary.join (h : IsOrdinary locator) {directory : ScriptLoader.Path}
    (hdirectory : directory.isAbsolute = true) :
    (ofDirectoryPath directory).join (String.ofList locator)
      = .ok (file ('/' :: Path.joinFields (segmentsBelow directory locator))) := by
  have hfolder := isFolder_ofDirectoryPath hdirectory
  have hfields : fieldsAt '/' locator ≠ [] := fieldsAt_ne_nil '/' locator
  have hjoined : (ofDirectoryPath directory).path
        ++ Path.joinFields ((fieldsAt '/' locator).map (encode encodedInPath))
      = '/' :: Path.joinFields (segmentsBelow directory locator) := by
    rw [segmentsBelow, joinFields_append (by simpa using hfields), path_ofDirectoryPath hdirectory,
      List.flatMap_map, List.cons_append]
  have hsegments := segmentsBelow_of_isPlain directory h
  -- the path starts with just one slash
  have hhead : (Path.joinFields (segmentsBelow directory locator)).head? ≠ some '/' := by
    have habsolute := Path.isAbsolute_joinFields (fun field hfield ↦ (hsegments field hfield).1)
      fun field hfield ↦ (hsegments field (List.mem_of_head? hfield)).2
    simpa [Path.isAbsolute] using habsolute
  have hextended : (extendPath SchemeKind.file.pathRules ⟨(ofDirectoryPath directory).path, true⟩
      locator).path = '/' :: Path.joinFields (segmentsBelow directory locator) := by
    rw [extendPath, segmentsOf_eq (h.not_mem (by decide)),
      addSegments_of_isPlain hfields h.plain hfolder, hjoined, pathRules_file]
    refine congrArg (List.cons '/') ?_
    rw [List.dropWhile_cons_of_pos (by decide)]
    cases hpath : Path.joinFields (segmentsBelow directory locator) with
    | nil => rfl
    | cons c rest =>
      rw [hpath] at hhead
      exact List.dropWhile_cons_of_neg (by simpa using hhead)
  rw [h.join_eq, hfolder.popSegment, withExtendedPath,
    splitTail_eq_self (h.not_mem (by decide)) (h.not_mem (by decide))]
  dsimp only
  rw [hextended]
  rfl

/-! ## The path of the file -/

/-- Only a text with such a mark at its end ends like a drive letter. -/
theorem not_endsLikeDrive_encode {cs : List Char} (h : ∀ c ∈ cs.getLast?, c ≠ ':' ∧ c ≠ '|') :
    endsLikeDrive (Utf8.encode cs) = false := by
  rcases List.eq_nil_or_concat cs with rfl | ⟨init, last, rfl⟩
  · rfl
  rw [List.concat_eq_append] at h ⊢
  obtain ⟨hcolon, hbar⟩ := h last List.getLast?_concat
  rw [endsLikeDrive]
  split
  next mark letter _ _ hreverse =>
    have hmem : mark ∈ String.utf8EncodeChar last := by
      have hlast := congrArg List.head? hreverse
      have hsingle : Utf8.encode [last] = String.utf8EncodeChar last := List.flatMap_singleton ..
      have hne : String.utf8EncodeChar last ≠ [] := by
        rw [← List.length_pos_iff, String.length_utf8EncodeChar]
        exact Char.utf8Size_pos last
      rw [List.head?_reverse, Utf8.encode_append, hsingle,
        List.getLast?_append_of_ne_nil _ hne] at hlast
      exact List.mem_of_getLast? hlast
    have hmark {c : Char} (hc : c.toNat < 0x80) (hne : last ≠ c) :
        Char.ofNat mark.toNat ≠ c := fun heq ↦ by
      have hvalue : mark.toNat = c.toNat := by
        rw [← heq, Char.toNat_ofNat, if_pos]
        exact .inl (Nat.lt_trans mark.toNat_lt (by decide))
      refine hne (Char.toNat_inj.mp ?_)
      rw [(Utf8.encodeChar_of_mem hmem (by omega)).2, hvalue]
    simp [isDriveLetter, hmark (by decide) hcolon, hmark (by decide) hbar]
  next => rfl

/-- A local file at segments that are decoded to names has the path of these names; a text that
ends like a drive letter gets an empty one at its end. -/
theorem filePath?_of_decode {segments : List (List Char)} (hne : names ≠ [])
    (hfields : fieldsAt '/' (Path.joinFields segments) = segments)
    (hdecode : segments.map decode = names.map Utf8.encode) :
    (file ('/' :: Path.joinFields segments)).filePath? = some ('/' :: Path.joinFields
      (if endsLikeDrive (Utf8.encode ('/' :: Path.joinFields names)) then names ++ [[]]
        else names)) := by
  have hpath {fields : List (List Char)} (hfields : fields ≠ []) :
      (fields.map Utf8.encode).flatMap (0x2F :: ·)
        = Utf8.encode ('/' :: Path.joinFields fields) := by
    rw [flatMap_cons_eq _ (by simpa using hfields), Utf8.encode_cons, Utf8.encode_joinFields]
    rfl
  have hbytes : segments.flatMap (fun segment ↦ 0x2F :: decode segment)
      = Utf8.encode ('/' :: Path.joinFields names) := by
    rw [← hpath hne, ← hdecode, List.flatMap_map]
  have hclosed : Utf8.encode ('/' :: Path.joinFields names) ++ [0x2F]
      = Utf8.encode ('/' :: Path.joinFields (names ++ [[]])) := by
    rw [← hpath hne, ← hpath (by simp), List.map_append, List.flatMap_append]
    rfl
  have hsegments : (file ('/' :: Path.joinFields segments)).segments? = some segments :=
    congrArg some hfields
  rw [filePath?, filePathBytes?, hsegments, Option.bind_eq_bind, Option.bind_some]
  simp only [hbytes, hclosed]
  split_ifs <;> exact Utf8.decode?_encode _

/-- The path with the names of a directory and after them those of a locator. -/
def pathBelow (directory locator : ScriptLoader.Path) : ScriptLoader.Path :=
  '/' :: Path.joinFields (Path.names directory ++ fieldsAt '/' locator)

theorem fieldsAt_pathBelow (directory locator : ScriptLoader.Path) :
    fieldsAt '/' (pathBelow directory locator)
      = [] :: (Path.names directory ++ fieldsAt '/' locator) := by
  rw [pathBelow, fieldsAt, if_pos rfl, fieldsAt_joinFields]
  · simp [fieldsAt_ne_nil]
  · exact fun name hname ↦ (List.mem_append.mp hname).elim Path.not_mem_of_mem_names
      Path.not_mem_of_mem_fieldsAt

theorem components_pathBelow {directory : ScriptLoader.Path} (h : directory.isAbsolute = true)
    (locator : ScriptLoader.Path) :
    Path.components (pathBelow directory locator)
      = Path.components directory ++ Path.names locator := by
  have hnames : (Path.names directory).filter (!Path.isSkipped ·) = Path.names directory :=
    List.filter_eq_self.mpr fun name hname ↦ by
      rw [Path.isSkipped_of_mem_names hname, Bool.not_false]
  rw [Path.components_of_isAbsolute rfl, Path.names, fieldsAt_pathBelow,
    List.filter_cons_of_neg (by decide), List.filter_append, hnames,
    Path.components_of_isAbsolute h]
  rfl

/-- **The file of an ordinary locator** has the path below the directory. -/
theorem IsOrdinary.filePath?_eq (h : IsOrdinary locator) (directory : ScriptLoader.Path) :
    (file ('/' :: Path.joinFields (segmentsBelow directory locator))).filePath?
      = some (pathBelow directory locator) := by
  have hfields : fieldsAt '/' locator ≠ [] := fieldsAt_ne_nil '/' locator
  have hsegments := segmentsBelow_of_isPlain directory h
  have hdecode : (segmentsBelow directory locator).map decode
      = (Path.names directory ++ fieldsAt '/' locator).map Utf8.encode := by
    rw [segmentsBelow, List.map_append, List.map_append, List.map_map, List.map_map]
    congr 1
    · exact List.map_congr_left fun name _ ↦ decode_encode_fileName name
    · exact List.map_congr_left fun name hname ↦ (h.plain name hname).decode_encode
  have hdrive : endsLikeDrive (Utf8.encode (pathBelow directory locator)) = false := by
    refine not_endsLikeDrive_encode fun c hc ↦ ?_
    have hmem : c ∈ locator := by
      obtain ⟨d, rest, hlocator, -⟩ := h.exists_cons
      have hne : locator ≠ [] := hlocator ▸ List.cons_ne_nil d rest
      rw [pathBelow, joinFields_append hfields, Path.joinFields_fieldsAt, ← List.cons_append,
        List.getLast?_append_of_ne_nil _ hne] at hc
      exact List.mem_of_getLast? hc
    constructor <;> rintro rfl
    · exact h.not_mem (by decide) hmem
    · exact h.not_mem (by decide) hmem
  have hbelow : fieldsAt '/' (Path.joinFields (segmentsBelow directory locator))
      = segmentsBelow directory locator :=
    fieldsAt_joinFields (by simp [segmentsBelow, hfields]) fun segment hsegment ↦
      (hsegments segment hsegment).1
  rw [filePath?_of_decode (by simp [hfields]) hbelow hdecode, ← pathBelow, hdrive]
  rfl

/-- The file of an ordinary locator is below the directory, at the locator's names. -/
theorem IsOrdinary.exists_filePath? (h : IsOrdinary locator) {directory : ScriptLoader.Path}
    (hdirectory : directory.isAbsolute = true) :
    ∃ url path, (ofDirectoryPath directory).join (String.ofList locator) = .ok url ∧
      url.filePath? = some path ∧
      Path.components path = Path.components directory ++ Path.names locator :=
  ⟨_, _, h.join hdirectory, h.filePath?_eq directory, components_pathBelow hdirectory locator⟩

end ScriptLoader.Url
