import ScriptLoader.Proofs.Url.Alphabet

/-!
# What paths are built

Whatever a path is extended by, the result is encoded. A path that starts with a slash goes on doing
so, since a step up stops at the root, and no segment of one dot is ever written: the dot that
serialization puts before two slashes cannot be mistaken for one of the path.
-/

namespace ScriptLoader.Url

/-! ## Encoded paths -/

/-- All characters are such as may stand in a path. -/
def IsEncoded (path : List Char) : Prop := ∀ c ∈ path, encodedInPath c = false

instance : DecidablePred IsEncoded := fun path ↦
  List.decidableBAll (encodedInPath · = false) path

theorem IsEncoded.append {path path' : List Char} (h : IsEncoded path) (h' : IsEncoded path') :
    IsEncoded (path ++ path') := List.forall_mem_append.mpr ⟨h, h'⟩

theorem IsEncoded.of_isPrefix {path path' : List Char} (h : IsEncoded path) (hle : path' <+: path) :
    IsEncoded path' := fun c hc ↦ h c (hle.subset hc)

theorem isEncoded_encode {set : Char → Bool} (hset : ∀ c, encodedInPath c = true → set c = true)
    (cs : List Char) : IsEncoded (Percent.encode set cs) := by
  intro c hc
  rcases Percent.mem_encode hc with htriple | ⟨hplain, -⟩
  · have hall : IsEncoded Percent.tripleChars := by decide
    exact hall c htriple
  · cases hencoded : encodedInPath c with
    | false => rfl
    | true => exact absurd (hset c hencoded) (by simp [hplain])

private theorem isEncoded_slash : IsEncoded ['/'] := by decide

theorem throughLastSlash_isPrefix (path : List Char) : throughLastSlash path <+: path := by
  rw [throughLastSlash, ← List.reverse_suffix, List.reverse_reverse]
  exact List.dropWhile_suffix _

theorem popSegment_isPrefix (rules : PathRules) (path : List Char) :
    popSegment rules path <+: path := by
  rw [popSegment]
  split
  · exact List.prefix_rfl
  · exact throughLastSlash_isPrefix path

theorem isEncoded_withFinalSlash {path : List Char} (h : IsEncoded path) :
    IsEncoded (withFinalSlash path) := by
  rw [withFinalSlash]
  split
  · exact h
  · exact h.append isEncoded_slash

theorem isEncoded_parentPath {rules : PathRules} {path : List Char} (h : IsEncoded path)
    (slash : Bool) : IsEncoded (parentPath rules path slash) := by
  have hdropped :
      IsEncoded (if path.getLast? = some '/' && mayDropFinalSlash path then path.dropLast
        else path) := by
    split
    · exact h.of_isPrefix (List.dropLast_prefix path)
    · exact h
  have hpopped := hdropped.of_isPrefix (popSegment_isPrefix rules _)
  rw [parentPath]
  split
  · exact isEncoded_withFinalSlash hpopped
  · exact hpopped

theorem isEncoded_addSegment {rules : PathRules} {progress : PathProgress}
    (h : IsEncoded progress.path) (segment : List Char) (slash : Bool) :
    IsEncoded (addSegment rules progress segment slash).path := by
  have hclosing : IsEncoded (if slash then ['/'] else []) := by cases slash <;> decide
  have hencoded : IsEncoded (Percent.encode encodedInPath segment) :=
    isEncoded_encode (fun _ ↦ id) segment
  have hbefore : IsEncoded (if rules.isFile && !segment.isEmpty &&
      isNormalDriveLetter (progress.path.drop 1) then progress.path ++ ['/']
    else progress.path) := by
    split
    · exact h.append isEncoded_slash
    · exact h
  rw [addSegment]
  generalize (if rules.isFile && !segment.isEmpty && isNormalDriveLetter (progress.path.drop 1) then
    progress.path ++ ['/'] else progress.path) = before at hbefore ⊢
  split
  · exact isEncoded_parentPath hbefore slash
  · split
    · exact isEncoded_withFinalSlash hbefore
    · split
      · have hletter := hencoded.of_isPrefix (List.take_prefix 1 _)
        have hcolon : IsEncoded [':'] := by decide
        exact (hbefore.append hletter).append (hcolon.append hclosing)
      · exact (hbefore.append hencoded).append hclosing

theorem isEncoded_addSegments (rules : PathRules) {progress : PathProgress}
    (h : IsEncoded progress.path) (segments : List (List Char)) :
    IsEncoded (addSegments rules progress segments).path := by
  induction progress, segments using addSegments.induct rules with
  | case1 progress => exact h
  | case2 progress segment => exact isEncoded_addSegment h segment false
  | case3 progress segment rest hrest ih =>
    rw [addSegments]
    · exact ih (isEncoded_addSegment h segment true)
    · exact hrest

theorem isEncoded_extendPath (rules : PathRules) (progress : PathProgress)
    (h : IsEncoded progress.path) (cs : List Char) :
    IsEncoded (extendPath rules progress cs).path := by
  have hresult := isEncoded_addSegments rules h (segmentsOf rules cs)
  rw [extendPath]
  split
  · exact isEncoded_slash.append fun c hc ↦ hresult c ((List.dropWhile_sublist _).subset hc)
  · exact hresult

/-! ## Rooted paths -/

/-- The start of a path whose first segment is a dot. -/
def dotStart : List Char := ['/', '.', '/']

/-- A path of another directory is obtained by descending and ascending: it still starts with a
slash, and with a dot only if the first one did. -/
structure LeadsTo (path path' : List Char) : Prop where
  slash : path'.head? = some '/'
  dotted : dotStart <+: path' → dotStart <+: path

/-- The path of a directory: it starts and ends with a slash. -/
structure IsFolder (path : List Char) : Prop where
  head : path.head? = some '/'
  last : path.getLast? = some '/'

namespace LeadsTo

variable {path path' path'' : List Char}

theorem trans (h : LeadsTo path path') (h' : LeadsTo path' path'') : LeadsTo path path'' :=
  ⟨h'.slash, fun hdot ↦ h.dotted (h'.dotted hdot)⟩

theorem of_isPrefix (hle : path' <+: path) (h : path'.head? = some '/') : LeadsTo path path' :=
  ⟨h, fun hdot ↦ hdot.trans hle⟩

end LeadsTo

theorem IsFolder.leadsTo {path : List Char} (h : IsFolder path) : LeadsTo path path :=
  ⟨h.head, id⟩

theorem isFolder_slash : IsFolder ['/'] := ⟨rfl, rfl⟩

theorem isFolder_throughLastSlash {path : List Char} (h : path.head? = some '/') :
    IsFolder (throughLastSlash path) := by
  obtain ⟨rest, rfl⟩ := List.head?_eq_some_iff.mp h
  have hmem : '/' ∈ ('/' :: rest).reverse := by simp
  obtain ⟨after, before, hsplit, hafter⟩ := List.eq_append_cons_of_mem hmem
  have hthrough : throughLastSlash ('/' :: rest) = ('/' :: before).reverse := by
    rw [throughLastSlash, hsplit, List.dropWhile_append_of_pos, List.dropWhile_cons_of_neg]
    · simp
    · exact fun c hc ↦ decide_eq_true fun heq ↦ hafter (heq ▸ hc)
  have hle := throughLastSlash_isPrefix ('/' :: rest)
  rw [hthrough] at hle ⊢
  refine ⟨?_, by rw [List.getLast?_reverse]; rfl⟩
  have hne : ('/' :: before).reverse ≠ [] := by simp
  obtain ⟨c, cs, hcons⟩ := List.exists_cons_of_ne_nil hne
  rw [hcons, List.cons_prefix_cons] at hle
  rw [hcons, hle.1, List.head?_cons]

theorem withFinalSlash_of_isFolder {path : List Char} (h : IsFolder path) :
    withFinalSlash path = path := if_pos h.last

section

variable {rules : PathRules} (hrules : rules.isFile = false)

include hrules

theorem popSegment_eq (path : List Char) : popSegment rules path = throughLastSlash path := by
  rw [popSegment, hrules, Bool.false_and]
  rfl

theorem isFolder_parentPath {path : List Char} (h : IsFolder path) (slash : Bool) :
    IsFolder (parentPath rules path slash) ∧ LeadsTo path (parentPath rules path slash) := by
  have hstart : ∃ start, start <+: path ∧ start.head? = some '/' ∧
      (if path.getLast? = some '/' && mayDropFinalSlash path then path.dropLast else path)
        = start := by
    refine ⟨_, ?_, ?_, rfl⟩
    · split
      · exact List.dropLast_prefix path
      · exact List.prefix_rfl
    · split
      next hdrop =>
        simp only [mayDropFinalSlash, Bool.and_eq_true, List.contains_iff_mem] at hdrop
        obtain ⟨c, cs, hcons⟩ := List.exists_cons_of_ne_nil (List.ne_nil_of_mem hdrop.2.1)
        have hle := List.dropLast_prefix path
        obtain ⟨rest, rfl⟩ := List.head?_eq_some_iff.mp h.head
        rw [hcons, List.cons_prefix_cons] at hle
        rw [hcons, hle.1, List.head?_cons]
      next => exact h.head
  obtain ⟨start, hle, hhead, heq⟩ := hstart
  have hfolder := isFolder_throughLastSlash hhead
  have hparent : parentPath rules path slash = throughLastSlash start := by
    rw [parentPath, heq, popSegment_eq hrules, withFinalSlash_of_isFolder hfolder, ite_self]
  rw [hparent]
  exact ⟨hfolder, .of_isPrefix ((throughLastSlash_isPrefix start).trans hle) hfolder.head⟩

omit hrules in
theorem leadsTo_append {path segment : List Char} (h : IsFolder path) (hslash : '/' ∉ segment)
    (hdot : segment ≠ ['.']) (slash : Bool) :
    LeadsTo path (path ++ segment ++ if slash then ['/'] else []) := by
  obtain ⟨rest, rfl⟩ := List.head?_eq_some_iff.mp h.head
  refine ⟨rfl, fun hstart ↦ ?_⟩
  -- a path of three characters or more decides by itself
  rcases rest with _ | ⟨second, _ | ⟨third, rest⟩⟩
  · rcases segment with _ | ⟨first, _ | ⟨other, segment⟩⟩
    · cases slash <;> revert hstart <;> decide
    · simp only [dotStart, List.cons_append, List.nil_append, List.cons_prefix_cons] at hstart
      exact absurd (congrArg (· :: []) hstart.2.1.symm) hdot
    · simp only [dotStart, List.cons_append, List.nil_append, List.cons_prefix_cons] at hstart
      exact absurd (hstart.2.2.1 ▸ List.mem_cons_of_mem _ List.mem_cons_self) hslash
  · have hsecond : second = '/' := Option.some.inj h.last
    simp only [dotStart, List.cons_append, List.cons_prefix_cons] at hstart
    exact absurd (hstart.2.1.trans hsecond) (by decide)
  · simp only [dotStart, List.cons_append, List.cons_prefix_cons] at hstart ⊢
    exact ⟨trivial, hstart.2.1, hstart.2.2.1, List.nil_prefix⟩

/-- A segment is added under the rules of a URL that is not a file. -/
theorem leadsTo_addSegment {progress : PathProgress} (h : IsFolder progress.path)
    {segment : List Char} (hslash : '/' ∉ segment) (slash : Bool) :
    LeadsTo progress.path (addSegment rules progress segment slash).path ∧
      (slash = true → IsFolder (addSegment rules progress segment slash).path) := by
  rw [addSegment, hrules]
  simp only [Bool.false_and, Bool.false_eq_true, if_false]
  split
  · exact ⟨(isFolder_parentPath hrules h slash).2, fun _ ↦ (isFolder_parentPath hrules h slash).1⟩
  · split
    · dsimp only
      rw [withFinalSlash_of_isFolder h]
      exact ⟨h.leadsTo, fun _ ↦ h⟩
    next hsingle =>
      have hencoded : '/' ∉ Percent.encode encodedInPath segment := fun hmem ↦
        (Percent.mem_encode hmem).elim (by decide) fun hplain ↦ hslash hplain.2
      have hdot : Percent.encode encodedInPath segment ≠ ['.'] := fun heq ↦
        hsingle (heq ▸ by decide)
      have hleads := leadsTo_append h hencoded hdot slash
      refine ⟨hleads, fun htrue ↦ ⟨hleads.slash, ?_⟩⟩
      rw [htrue, if_pos rfl, List.getLast?_append]
      rfl

theorem leadsTo_addSegments (progress : PathProgress) (h : IsFolder progress.path)
    {segments : List (List Char)} (hsegments : ∀ segment ∈ segments, '/' ∉ segment) :
    LeadsTo progress.path (addSegments rules progress segments).path := by
  induction progress, segments using addSegments.induct rules with
  | case1 progress => exact h.leadsTo
  | case2 progress segment =>
    exact (leadsTo_addSegment hrules h (hsegments segment List.mem_cons_self) false).1
  | case3 progress segment rest hrest ih =>
    obtain ⟨hleads, hfolder⟩ :=
      leadsTo_addSegment hrules h (hsegments segment List.mem_cons_self) true
    rw [addSegments]
    · exact hleads.trans (ih (hfolder rfl) fun other hother ↦
        hsegments other (List.mem_cons_of_mem _ hother))
    · exact hrest

/-- **A text leads from one directory to another path below the root.** -/
theorem leadsTo_extendPath {path : List Char} (h : IsFolder path) (keepsHost : Bool)
    (cs : List Char) : LeadsTo path (extendPath rules ⟨path, keepsHost⟩ cs).path := by
  rw [extendPath, hrules]
  refine leadsTo_addSegments hrules ⟨path, keepsHost⟩ h fun segment hsegment hmem ↦ ?_
  exact (mem_of_mem_fieldsAt hsegment hmem).2 rfl

end

theorem segmentsOf_ne_nil (rules : PathRules) (cs : List Char) : segmentsOf rules cs ≠ [] := by
  rw [segmentsOf]
  generalize (if rules.backslashes then _ else cs) = cs
  cases cs with
  | nil => simp [fieldsAt]
  | cons c rest =>
    rw [fieldsAt]
    split
    · simp
    · split <;> simp

/-- A slash at the start of a text leads to the root. -/
theorem extendPath_slash (rules : PathRules) (cs : List Char) :
    extendPath rules ⟨[], true⟩ ('/' :: cs) = extendPath rules ⟨['/'], true⟩ cs := by
  have hsegments : segmentsOf rules ('/' :: cs) = [] :: segmentsOf rules cs := by
    rw [segmentsOf, segmentsOf]
    cases rules.backslashes <;> rfl
  have hfirst : addSegment rules ⟨[], true⟩ [] true = ⟨['/'], true⟩ := by
    rw [addSegment]
    cases rules.isFile <;> rfl
  obtain ⟨segment, rest, heq⟩ := List.exists_cons_of_ne_nil (segmentsOf_ne_nil rules cs)
  have hadd : addSegments rules ⟨[], true⟩ (segmentsOf rules ('/' :: cs))
      = addSegments rules ⟨['/'], true⟩ (segmentsOf rules cs) := by
    rw [hsegments, heq, addSegments, hfirst]
    exact fun h ↦ by cases h
  rw [extendPath, hadd]
  rfl

end ScriptLoader.Url
