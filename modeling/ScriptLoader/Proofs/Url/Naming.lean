import ScriptLoader.Proofs.Url.Joining

/-!
# Names against a URL

A plain name, resolved against a URL, takes the place of the last segment of its path. So two names
that are resolved against the same URL lie in the same directory, and are told apart by the URLs
they give. If one name cannot be resolved, no name can, and for the same reason.

Units that are made without a URL get such names, each with a number of its own.
-/

namespace ScriptLoader.Url

open Percent

variable {base url : Url} {cs name name' : List Char}

/-- A text that is read as one segment against any URL. -/
structure IsOneSegment (cs : List Char) : Prop where
  clean : cleanInput cs = cs
  nonempty : cs ≠ []
  special : ∀ c ∈ cs, isSpecialChar c = false
  slash : '/' ∉ cs

theorem IsOneSegment.not_mem (h : IsOneSegment cs) {c : Char} (hc : isSpecialChar c = true) :
    c ∉ cs := fun hmem ↦ by
  rw [h.special c hmem] at hc
  cases hc

/-- The path without its last segment, to which a segment is added. -/
def openPath (base : Url) : List Char :=
  let popped := popSegment (schemeKind base.scheme).pathRules base.path
  if base.isFile then popped else if popped.isEmpty then ['/'] else popped

/-- A single segment is added in the directory of the URL. -/
theorem IsOneSegment.join_eq (h : IsOneSegment cs) (base : Url) :
    base.join (String.ofList cs) = if base.isPathless then .error .relativeWithPathlessBase
      else .ok (withExtendedPath (schemeKind base.scheme) base (openPath base) cs) := by
  obtain ⟨c, rest, rfl⟩ := List.exists_cons_of_ne_nil h.nonempty
  have hne {d : Char} (hd : isSpecialChar d = true) : c ≠ d :=
    fun heq ↦ h.not_mem hd (heq ▸ List.mem_cons_self)
  have hc : isSlash c = false := by
    have hslash : c ≠ '/' := fun heq ↦ h.slash (heq ▸ List.mem_cons_self)
    simp [isSlash, hslash, hne (d := '\\') (by decide)]
  rw [join, String.toList_ofList, parseAgainst.eq_def, h.clean]
  dsimp only
  rw [splitScheme_eq_none (h.not_mem (by decide))]
  dsimp only
  split
  next heq => exact absurd (List.cons.inj heq).1 (hne (by decide))
  next =>
    refine if_congr Iff.rfl rfl ?_
    rw [openPath]
    -- URLs of files have rules of their own, for the sake of drive letters
    split
    next hfile =>
      have hdrive : startsWithDriveLetter (c :: rest) = false :=
        not_startsWithDriveLetter (h.not_mem (by decide)) (h.not_mem (by decide))
      have hdirectory : parseFile (some base) (c :: rest)
          = .ok (parseFile.fromDirectory (some base) (c :: rest)) := by
        cases rest <;> simp [parseFile, hc]
      rw [hdirectory, parseFile.fromDirectory.eq_def, isFile_iff.mp hfile]
      dsimp only
      split
      next heq => cases heq
      next heq => exact absurd (List.cons.inj heq).1 (hne (by decide))
      next heq => exact absurd (List.cons.inj heq).1 (hne (by decide))
      next => rw [if_neg (by simp [hdrive])]
    next hfile =>
      rw [parseRelative.eq_def]
      dsimp only
      split
      next heq => cases heq
      next heq => exact absurd (List.cons.inj heq).1 (hne (by decide))
      next heq => exact absurd (List.cons.inj heq).1 (hne (by decide))
      next heq =>
        obtain ⟨rfl, rfl⟩ := List.cons.inj heq
        rw [hc, if_neg Bool.false_ne_true]

/-! ## Names in a directory -/

theorem IsPlain.isOneSegment (h : IsPlain name) (hclean : cleanInput name = name) :
    IsOneSegment name where
  clean := hclean
  nonempty := by
    rintro rfl
    exact absurd h.normal (by decide)
  special := h.plain
  slash := (Path.isNormal_iff.mp h.normal).2.2

def folderPath (base : Url) : List Char :=
  let rules := (schemeKind base.scheme).pathRules
  let start := openPath base
  let before := if rules.isFile && isNormalDriveLetter (start.drop 1) then start ++ ['/'] else start
  if rules.isFile then '/' :: before.dropWhile (· = '/') else before

def named (base : Url) (name : List Char) : Url :=
  { base with
    path := folderPath base ++ encode encodedInPath name, query := none, fragment := none }

theorem openPath_ne_nil (h : base.isFile = false) : openPath base ≠ [] := by
  rw [openPath, h, if_neg Bool.false_ne_true]
  split
  next => exact List.cons_ne_nil _ _
  next hempty => simpa using hempty

theorem folderPath_ne_nil (base : Url) : folderPath base ≠ [] := by
  rw [folderPath]
  cases hfile : base.isFile with
  | true =>
    rw [isFile_iff.mp hfile]
    exact List.cons_ne_nil _ _
  | false =>
    have hkind : schemeKind base.scheme ≠ .file := fun hkind ↦ by
      rw [isFile_iff.mpr hkind] at hfile
      cases hfile
    rw [isFile_pathRules hkind, Bool.false_and, if_neg Bool.false_ne_true,
      if_neg Bool.false_ne_true]
    exact openPath_ne_nil hfile

theorem dropWhile_slash_append {path segment : List Char} (h : '/' ∉ segment) :
    (path ++ segment).dropWhile (· = '/') = path.dropWhile (· = '/') ++ segment := by
  induction path with
  | nil =>
    refine List.dropWhile_eq_self_iff.mpr fun hlt heq ↦ h ?_
    exact of_decide_eq_true heq ▸ List.getElem_mem hlt
  | cons c path ih =>
    rw [List.cons_append, List.dropWhile_cons, List.dropWhile_cons, ih]
    split <;> rfl

theorem IsPlain.extendPath_eq (h : IsPlain name) (rules : PathRules) (start : List Char) :
    (extendPath rules ⟨start, true⟩ name).path =
      (let before :=
        if rules.isFile && isNormalDriveLetter (start.drop 1) then start ++ ['/'] else start
      if rules.isFile then '/' :: before.dropWhile (· = '/') else before)
        ++ encode encodedInPath name := by
  obtain ⟨hskipped, -, hslash⟩ := Path.isNormal_iff.mp h.normal
  obtain ⟨hdouble, hsingle⟩ := h.not_dots
  have hencoded : '/' ∉ encode encodedInPath name := not_mem_encode (by decide) hslash
  have hempty : name.isEmpty = false := by
    cases name with
    | nil => cases hskipped
    | cons => rfl
  rw [extendPath, segmentsOf_eq (h.not_mem (by decide)), fieldsAt_of_not_mem hslash, addSegments,
    addSegment]
  simp only [hdouble, hsingle, h.not_isDriveLetter, hempty, Bool.and_false, Bool.false_eq_true,
    if_false, Bool.not_false, Bool.and_true, List.append_nil]
  cases rules.isFile with
  | false => rfl
  | true => simp only [if_true, dropWhile_slash_append hencoded, List.cons_append]

/-- **A plain name is resolved** in the directory of the URL, if anything can. -/
theorem IsPlain.join_eq (h : IsPlain name) (hclean : cleanInput name = name) (base : Url) :
    base.join (String.ofList name) = if base.isPathless then .error .relativeWithPathlessBase
      else .ok (base.named name) := by
  rw [(h.isOneSegment hclean).join_eq, withExtendedPath,
    splitTail_eq_self (h.not_mem (by decide)) (h.not_mem (by decide))]
  dsimp only
  rw [withTail.eq_def, h.extendPath_eq]
  rfl

/-! ## What names have in common -/

/-- Names are told apart by their URLs. -/
theorem IsPlain.named_inj (h : IsPlain name) (h' : IsPlain name')
    (heq : base.named name = base.named name') : name = name' := by
  have hencoded := List.append_cancel_left (congrArg Url.path heq)
  rw [← Utf8.encode_inj, ← h.decode_encode, ← h'.decode_encode, hencoded]

theorem throughLastSlash_append {path segment : List Char} (h : '/' ∉ segment) :
    throughLastSlash (path ++ segment) = throughLastSlash path := by
  have hall : ∀ c ∈ segment.reverse, decide (c ≠ '/') = true := by
    intro c hc
    simpa using fun heq : c = '/' ↦ h (heq ▸ List.mem_reverse.mp hc)
  rw [throughLastSlash, throughLastSlash, List.reverse_append,
    List.dropWhile_append_of_pos hall]

/-- A name is no drive letter, whatever stands before it. -/
theorem IsPlain.popSegment_append (h : IsPlain name) (rules : PathRules) (path : List Char) :
    popSegment rules (path ++ encode encodedInPath name) = throughLastSlash path := by
  have hcolon : ':' ∉ encode encodedInPath name :=
    not_mem_encode (by decide) (h.not_mem (by decide))
  have hslash : '/' ∉ encode encodedInPath name :=
    not_mem_encode (by decide) (Path.isNormal_iff.mp h.normal).2.2
  have hne : encode encodedInPath name ≠ [] := by
    intro hnil
    have hdecoded : Utf8.encode name = Utf8.encode [] := by
      rw [← h.decode_encode, hnil]
      rfl
    exact absurd (Utf8.encode_inj.mp hdecoded ▸ h.normal) (by decide)
  have hdrive :
      isNormalDriveLetter (afterLastSlash (path ++ encode encodedInPath name)) = false := by
    rw [isNormalDriveLetter, Bool.and_eq_false_iff]
    refine .inr (decide_eq_false fun hlast ↦ hcolon ?_)
    rw [afterLastSlash, List.getLast?_reverse, List.head?_takeWhile, Option.filter_eq_some_iff,
      List.head?_reverse, List.getLast?_append_of_ne_nil _ hne] at hlast
    exact List.mem_of_getLast? hlast.1
  rw [popSegment, hdrive, Bool.and_false, if_neg Bool.false_ne_true,
    throughLastSlash_append hslash]

theorem isOneSegment_dot : IsOneSegment ['.'] where
  clean := by decide
  nonempty := List.cons_ne_nil _ _
  special c hc := by
    rw [List.mem_singleton.mp hc]
    decide
  slash := by decide

theorem isPathless_named (base : Url) (name : List Char) :
    (base.named name).isPathless
      = (base.authority.isNone && (folderPath base).head? ≠ some '/') := by
  obtain ⟨c, rest, hpath⟩ := List.exists_cons_of_ne_nil base.folderPath_ne_nil
  rw [isPathless, named, hpath]
  rfl

theorem IsPlain.openPath_named (h : IsPlain name) (base : Url) :
    openPath (base.named name) = (if base.isFile then throughLastSlash (folderPath base)
      else if (throughLastSlash (folderPath base)).isEmpty then ['/']
      else throughLastSlash (folderPath base)) := by
  rw [openPath, named, h.popSegment_append]
  rfl

/-- **Names lie in the same directory.** -/
theorem IsPlain.directory_named (h : IsPlain name) (h' : IsPlain name') :
    (base.named name).directory = (base.named name').directory := by
  have hjoin (url : Url) : url.directory = _ := isOneSegment_dot.join_eq url
  rw [hjoin, hjoin, isPathless_named, isPathless_named, h.openPath_named, h'.openPath_named]
  rfl

/-! ## Numbered names -/

theorem cleanInput_eq_self (h : ∀ c ∈ cs, 0x20 < c.toNat) : cleanInput cs = cs := by
  have hkept {more : List Char} (hmore : ∀ c ∈ more, 0x20 < c.toNat) :
      more.dropWhile (fun c ↦ decide (c.toNat ≤ 0x20)) = more := by
    refine List.dropWhile_eq_self_iff.mpr fun hlt hdropped ↦ ?_
    exact absurd (of_decide_eq_true hdropped) (Nat.not_le.mpr (hmore _ (List.getElem_mem hlt)))
  rw [cleanInput, cleanInput.trimWith, hkept h, hkept (fun c hc ↦ h c (List.mem_reverse.mp hc)),
    List.reverse_reverse, List.filter_eq_self]
  intro c hc
  have hcontrol {d : Char} (hd : d.toNat ≤ 0x20) : c ≠ d :=
    fun heq ↦ absurd (heq ▸ h c hc) (Nat.not_lt.mpr hd)
  simp [hcontrol (d := '\t') (by decide), hcontrol (d := '\n') (by decide),
    hcontrol (d := '\r') (by decide)]

/-- The name of a unit that is made without a URL. -/
def anonymousName (number : Nat) : String := "(Anonymous" ++ toString number ++ ")"

theorem toList_anonymousName (number : Nat) :
    (anonymousName number).toList = "(Anonymous".toList ++ Nat.toDigits 10 number ++ [')'] := by
  have hdigits : (toString number).toList = Nat.toDigits 10 number := by
    rw [Nat.toString_eq_repr, Nat.toList_repr]
  rw [anonymousName, String.toList_append, String.toList_append, hdigits]
  rfl

theorem anonymousName_inj {number number' : Nat}
    (h : (anonymousName number).toList = (anonymousName number').toList) : number = number' := by
  rw [toList_anonymousName, toList_anonymousName, List.append_assoc, List.append_assoc] at h
  have hdigits := List.append_cancel_right (List.append_cancel_left h)
  rw [← Nat.ofDigitChars_ten_toDigits (n := number), hdigits, Nat.ofDigitChars_ten_toDigits]

theorem getLast?_named_anonymousName (base : Url) (number : Nat) :
    (base.named (anonymousName number).toList).path.getLast? = some ')' := by
  have hencoded (cs : List Char) : encode encodedInPath (cs ++ [')'])
      = encode encodedInPath cs ++ [')'] := List.flatMap_append
  rw [named, toList_anonymousName, hencoded, ← List.append_assoc, List.getLast?_concat]

/-- What numbered names are written with. -/
def isNameChar (c : Char) : Bool := c.isAlphanum || c = '(' || c = ')'

theorem isNameChar_of_mem {number : Nat} {c : Char} (h : c ∈ (anonymousName number).toList) :
    isNameChar c = true := by
  rw [toList_anonymousName] at h
  rcases List.mem_append.mp h with h | h
  · rcases List.mem_append.mp h with h | h
    · have hall : ∀ c ∈ "(Anonymous".toList, isNameChar c = true :=
        List.all_iff_forall_prop.mp (by decide)
      exact hall c h
    · have hdigit := Nat.isDigit_of_mem_toDigits (by decide) (by decide) h
      simp [isNameChar, Char.isAlphanum, hdigit]
  · rw [List.mem_singleton.mp h]
    decide

theorem toNat_of_isNameChar {c : Char} (h : isNameChar c = true) : 0x20 < c.toNat := by
  simp only [isNameChar, Char.isAlphanum, Char.isAlpha, Char.isUpper, Char.isLower, Char.isDigit,
    Bool.or_eq_true, Bool.and_eq_true, decide_eq_true_eq, ge_iff_le, UInt32.le_iff_toNat_le,
    Char.ext_iff, UInt32.ext_iff, Char.reduceVal, UInt32.reduceToNat] at h
  rw [Char.toNat]
  omega

theorem isPlain_anonymousName (number : Nat) : IsPlain (anonymousName number).toList := by
  have hnone {d : Char} (hd : isNameChar d = false) : d ∉ (anonymousName number).toList :=
    fun hmem ↦ by
      rw [isNameChar_of_mem hmem] at hd
      cases hd
  constructor
  · rw [Path.isNormal_iff]
    have hdot := hnone (d := '.') (by decide)
    refine ⟨?_, ?_, hnone (by decide)⟩
    · rw [Path.isSkipped, Bool.or_eq_false_iff]
      constructor <;> refine decide_eq_false fun heq ↦ ?_
      · rw [toList_anonymousName] at heq
        exact absurd (List.append_eq_nil_iff.mp heq).2 (List.cons_ne_nil _ _)
      · exact hdot (heq ▸ List.mem_cons_self)
    · intro hup
      exact hdot (hup ▸ List.mem_cons_self)
  · intro c hc
    have hall : ∀ d ∈ "\\?#%:|".toList, isNameChar d = false :=
      List.all_iff_forall_prop.mp (by decide)
    refine Bool.eq_false_iff.mpr fun hspecial ↦ ?_
    exact hnone (hall c (List.contains_iff_mem.mp hspecial)) hc

/-- **What numbered names come to**: one and the same error, or URLs that are told apart by the
number and lie in one directory. -/
theorem join_anonymousName (base : Url) (number : Nat) :
    base.join (anonymousName number) = if base.isPathless then .error .relativeWithPathlessBase
      else .ok (base.named (anonymousName number).toList) := by
  have hclean := cleanInput_eq_self fun c (hc : c ∈ (anonymousName number).toList) ↦
    toNat_of_isNameChar (isNameChar_of_mem hc)
  rw [← (isPlain_anonymousName number).join_eq hclean, String.ofList_toList]

end ScriptLoader.Url
