import Mathlib
import ScriptLoader.Proofs.Url.Paths
import ScriptLoader.Url.FilePath

/-!
# Well-formed URLs

A URL that has been parsed, or resolved against such a URL, or made from the path of a file, is well
formed: each of its parts is written in characters that do not end the part. A web or file URL has
an authority, and the path of a URL without one does not start with a dot, so what serialization
puts before it is not ambiguous.
-/

namespace ScriptLoader

/-- User information and host have no delimiters of a URL in them. -/
structure Authority.WellFormed (authority : Authority) : Prop where
  userinfo : ∀ c ∈ authority.userinfo, c ∉ " /?#@".toList
  host : Url.IsHost authority.host

namespace Url

def isSchemeChar (c : Char) : Bool := c.isAlphanum || c = '+' || c = '-' || c = '.'

structure IsScheme (scheme : List Char) : Prop where
  head : ∃ c ∈ scheme.head?, c.isAlpha = true
  chars : ∀ c ∈ scheme, isSchemeChar c = true

/-- The path of a URL that can be resolved against. -/
structure IsHierarchical (path : List Char) : Prop where
  encoded : IsEncoded path
  slash : path = [] ∨ path.head? = some '/'

/-- Each part of the URL is written as parsing leaves it. -/
structure WellFormed (url : Url) : Prop where
  scheme : IsScheme url.scheme
  authority : ∀ authority ∈ url.authority, authority.WellFormed
  special : schemeKind url.scheme ≠ .other → url.authority.isSome = true
  hierarchical : url.isPathless = false → IsHierarchical url.path
  path : ∀ c ∈ url.path, c ≠ '?' ∧ c ≠ '#'
  undotted : url.authority = none → ¬dotStart <+: url.path
  query : ∀ query ∈ url.query, '#' ∉ query

/-! ## Schemes -/

private theorem toLower_cases (c : Char) : c.toLower = c ∨ c.toLower.isAlpha = true := by
  rw [Char.toLower]
  split
  next h =>
    refine .inr ?_
    simp only [ge_iff_le, UInt32.le_iff_toNat_le] at h
    have h65 : 'A'.val.toNat = 65 := rfl
    have h90 : 'Z'.val.toNat = 90 := rfl
    have h32 : ('a'.val - 'A'.val).toNat = 32 := rfl
    have hsum : (c.val + ('a'.val - 'A'.val)).toNat = c.val.toNat + 32 := by
      rw [UInt32.toNat_add, h32, Nat.mod_eq_of_lt (by omega)]
    have h97 : 'a'.val.toNat = 97 := rfl
    have h122 : 'z'.val.toNat = 122 := rfl
    simp only [Char.isAlpha, Char.isLower, Bool.or_eq_true, Bool.and_eq_true, decide_eq_true_eq,
      ge_iff_le, UInt32.le_iff_toNat_le, hsum]
    omega
  next => exact .inl rfl

private theorem isSchemeChar_of_isAlpha {c : Char} (h : c.isAlpha = true) :
    isSchemeChar c = true := by
  rw [isSchemeChar, Char.isAlphanum, h]
  rfl

theorem isSchemeChar_toLower {c : Char} (h : isSchemeChar c = true) :
    isSchemeChar c.toLower = true := by
  rcases toLower_cases c with heq | halpha
  · rwa [heq]
  · exact isSchemeChar_of_isAlpha halpha

private theorem spanScheme_cons {c : Char} (hc : isSchemeChar c = true) (cs : List Char) :
    spanScheme (c :: cs)
      = (spanScheme cs).map fun (scheme, rest) ↦ (c.toLower :: scheme, rest) := by
  have hcolon : c ≠ ':' := by
    rintro rfl
    exact absurd hc (by decide)
  rw [spanScheme, if_neg hcolon]
  exact if_pos hc

theorem isSchemeChar_of_spanScheme {cs scheme rest : List Char}
    (h : spanScheme cs = some (scheme, rest)) : ∀ c ∈ scheme, isSchemeChar c = true := by
  induction cs generalizing scheme with
  | nil => cases h
  | cons c cs ih =>
    rw [spanScheme] at h
    split at h
    · obtain ⟨rfl, rfl⟩ := Prod.mk.inj (Option.some.inj h)
      exact List.forall_mem_nil _
    · split at h
      next hc =>
        obtain ⟨⟨name, after⟩, hspan, heq⟩ := Option.map_eq_some_iff.mp h
        obtain ⟨rfl, rfl⟩ := Prod.mk.inj heq
        exact List.forall_mem_cons.mpr ⟨isSchemeChar_toLower hc, ih hspan⟩
      next => cases h

theorem isScheme_of_splitScheme {cs scheme rest : List Char}
    (h : splitScheme cs = some (scheme, rest)) : IsScheme scheme := by
  rw [splitScheme.eq_def] at h
  split at h
  case h_2 => cases h
  case h_1 c cs =>
    split at h
    next halpha =>
      refine ⟨?_, isSchemeChar_of_spanScheme h⟩
      rw [spanScheme_cons (isSchemeChar_of_isAlpha halpha)] at h
      obtain ⟨⟨name, after⟩, -, heq⟩ := Option.map_eq_some_iff.mp h
      obtain ⟨rfl, rfl⟩ := Prod.mk.inj heq
      refine ⟨_, rfl, ?_⟩
      rcases toLower_cases c with heq | hlower
      · rwa [heq]
      · exact hlower
    next => cases h

theorem spanScheme_append {scheme rest : List Char} (h : ∀ c ∈ scheme, isSchemeChar c = true) :
    ∃ name, spanScheme (scheme ++ ':' :: rest) = some (name, rest) := by
  induction scheme with
  | nil => exact ⟨[], rfl⟩
  | cons c scheme ih =>
    obtain ⟨hc, hrest⟩ := List.forall_mem_cons.mp h
    obtain ⟨name, hname⟩ := ih hrest
    exact ⟨c.toLower :: name, by rw [List.cons_append, spanScheme_cons hc, hname]; rfl⟩

/-! ## Query and fragment -/

theorem wellFormed_withTail {url : Url} (h : url.WellFormed) (special : Bool) (tail : List Char) :
    (withTail special url tail).WellFormed := by
  have hkeep {query fragment : Option (List Char)} (hquery : ∀ q ∈ query, '#' ∉ q) :
      { url with query, fragment }.WellFormed :=
    ⟨h.scheme, h.authority, h.special, h.hierarchical, h.path, h.undotted, hquery⟩
  rw [withTail.eq_def]
  split
  · exact hkeep fun q hq ↦ absurd hq (by simp)
  · refine hkeep fun q hq ↦ ?_
    obtain rfl := Option.some.inj hq
    intro hmem
    have hset : ∀ c ∈ Percent.tripleChars, encodedInQuery special c = false :=
      List.all_iff_forall_prop.mp (by cases special <;> decide)
    have := Percent.eq_false_of_mem_encode hset hmem
    cases special <;> exact absurd this (by decide)
  · exact hkeep fun q hq ↦ absurd hq (by simp)

theorem wellFormed_withFragment {url : Url} (h : url.WellFormed) (fragment : Option (List Char)) :
    { url with fragment }.WellFormed :=
  ⟨h.scheme, h.authority, h.special, h.hierarchical, h.path, h.undotted, h.query⟩

/-! ## Authorities -/

private theorem wellFormed_encodeUserinfo (cs : List Char) :
    ∀ c ∈ encodeUserinfo cs, c ∉ " /?#@".toList := by
  have hencode (text : List Char) :
      ∀ c ∈ Percent.encode encodedInUserinfo text, c ∉ " /?#@".toList := by
    intro c hc hmem
    have hset : ∀ c ∈ Percent.tripleChars, encodedInUserinfo c = false :=
      List.all_iff_forall_prop.mp (by decide)
    have hall : ∀ c ∈ " /?#@".toList, encodedInUserinfo c = true :=
      List.all_iff_forall_prop.mp (by decide)
    have := Percent.eq_false_of_mem_encode hset hc
    rw [hall c hmem] at this
    cases this
  rw [encodeUserinfo]
  split
  · exact hencode _
  · exact hencode _
  · exact List.forall_mem_append.mpr
      ⟨hencode _, List.forall_mem_cons.mpr ⟨by decide, hencode _⟩⟩

/-- What a sequence of two steps yields, the second step yields from what the first does. -/
theorem exists_of_bind_eq_ok {α β : Type} {first : Except UrlError α}
    {second : α → Except UrlError β} {b : β} (h : (first >>= second) = .ok b) :
    ∃ a, first = .ok a ∧ second a = .ok b := by
  cases first with
  | error e => cases h
  | ok a => exact ⟨a, rfl, h⟩

private theorem wellFormed_readHost {kind : SchemeKind} {userinfo body tail rest : List Char}
    {authority : Authority} (huser : ∀ c ∈ userinfo, c ∉ " /?#@".toList)
    (h : parseAuthority.readHost kind userinfo body tail = .ok (authority, rest)) :
    authority.WellFormed := by
  have hmade {host after : List Char} {port : Option Nat} (hhost : IsHost host)
      (heq : (Except.ok (⟨userinfo, host, port⟩, after) : Except UrlError _)
        = .ok (authority, rest)) : authority.WellFormed := by
    obtain ⟨rfl, -⟩ := Prod.mk.inj (Except.ok.inj heq)
    exact ⟨huser, hhost⟩
  rw [parseAuthority.readHost.eq_def] at h
  rcases spanHost false body with ⟨name, portPart⟩
  cases kind with
  | other =>
    obtain ⟨host, hhost, h⟩ := exists_of_bind_eq_ok h
    dsimp only at h
    split at h
    · cases h
    · obtain ⟨port, -, h⟩ := exists_of_bind_eq_ok h
      split at h
      · cases h
      · exact hmade (isHost_parseRawHost hhost) h
  | file | web =>
    dsimp only at h
    split at h
    · cases h
    · obtain ⟨host, hhost, h⟩ := exists_of_bind_eq_ok h
      obtain ⟨port, -, h⟩ := exists_of_bind_eq_ok h
      exact hmade (isHost_parseHost hhost) h

theorem wellFormed_parseAuthority {kind : SchemeKind} {cs rest : List Char} {authority : Authority}
    (h : parseAuthority kind cs = .ok (authority, rest)) : authority.WellFormed := by
  rw [parseAuthority] at h
  dsimp only at h
  split at h
  · split at h
    · exact wellFormed_readHost (List.forall_mem_nil _) h
    · cases h
  · exact wellFormed_readHost (wellFormed_encodeUserinfo _) h
  · exact wellFormed_readHost (List.forall_mem_nil _) h

/-! ## Paths -/

theorem isHierarchical_nil : IsHierarchical [] := ⟨List.forall_mem_nil _, .inl rfl⟩

private theorem delimits_of_isEncoded {path : List Char} (h : IsEncoded path) {c : Char}
    (hc : c ∈ path) : c ≠ '?' ∧ c ≠ '#' := by
  constructor <;> rintro rfl <;> exact absurd (h _ hc) (by decide)

theorem WellFormed.withPath {url : Url} (h : url.WellFormed) {path : List Char}
    (hpath : IsHierarchical path) (hundotted : url.authority = none → ¬dotStart <+: path) :
    { url with path }.WellFormed :=
  ⟨h.scheme, h.authority, h.special, fun _ ↦ hpath, fun _ ↦ delimits_of_isEncoded hpath.encoded,
    hundotted, h.query⟩

/-- The path of a file is always rooted. -/
theorem isHierarchical_extendPath_file {rules : PathRules} (hrules : rules.isFile = true)
    {path : List Char} (h : IsEncoded path) (cs : List Char) :
    IsHierarchical (extendPath rules ⟨path, true⟩ cs).path := by
  refine ⟨isEncoded_extendPath rules ⟨path, true⟩ h cs, .inr ?_⟩
  rw [extendPath, hrules]
  rfl

theorem isHierarchical_extendPath {rules : PathRules} (hrules : rules.isFile = false)
    {path : List Char} (h : IsEncoded path) (hfolder : IsFolder path) (cs : List Char) :
    IsHierarchical (extendPath rules ⟨path, true⟩ cs).path :=
  ⟨isEncoded_extendPath rules ⟨path, true⟩ h cs,
    .inr (leadsTo_extendPath hrules hfolder true cs).slash⟩

theorem isFile_pathRules {kind : SchemeKind} (h : kind ≠ .file) : kind.pathRules.isFile = false :=
  decide_eq_false h

theorem wellFormed_withExtendedPath {kind : SchemeKind} (hkind : kind ≠ .file) {url : Url}
    (h : url.WellFormed) {start : List Char} (hstart : IsEncoded start) (hfolder : IsFolder start)
    (hundotted : url.authority = none → ¬dotStart <+: start) (cs : List Char) :
    (withExtendedPath kind url start cs).WellFormed :=
  wellFormed_withTail (h.withPath
    (isHierarchical_extendPath (isFile_pathRules hkind) hstart hfolder _)
    fun hnone hdot ↦ hundotted hnone
      ((leadsTo_extendPath (isFile_pathRules hkind) hfolder true _).dotted hdot)) _ _

theorem wellFormed_withExtendedPath_file {url : Url} (h : url.WellFormed)
    (hauthority : url.authority.isSome = true) {start : List Char} (hstart : IsEncoded start)
    (cs : List Char) : (withExtendedPath .file url start cs).WellFormed :=
  wellFormed_withTail (h.withPath
    (isHierarchical_extendPath_file rfl hstart _)
    fun hnone ↦ absurd hauthority (by simp [hnone])) _ _

/-! ## Paths in one piece -/

theorem splitTail_isPrefix {cs body tail : List Char} (h : splitTail cs = (body, tail)) :
    body <+: cs := by
  rw [splitTail, List.span_eq_takeWhile_dropWhile] at h
  rw [← (Prod.mk.inj h).1]
  exact List.takeWhile_prefix _

theorem delimits_of_splitTail {cs body tail : List Char} (h : splitTail cs = (body, tail)) :
    ∀ c ∈ body, c ≠ '?' ∧ c ≠ '#' := by
  rw [splitTail, List.span_eq_takeWhile_dropWhile] at h
  rw [← (Prod.mk.inj h).1]
  intro c hc
  simpa using List.all_eq_true.mp List.all_takeWhile c hc

/-- Encoding does not put a slash at the start of a text. -/
theorem head?_of_encode {set : Char → Bool} {cs : List Char}
    (h : (Percent.encode set cs).head? = some '/') : cs.head? = some '/' := by
  cases cs with
  | nil => cases h
  | cons c rest =>
    rw [Percent.encode, List.flatMap_cons, Percent.encodeChar] at h
    split at h
    · have hne : String.utf8EncodeChar c ≠ [] := by
        rw [← List.length_pos_iff, String.length_utf8EncodeChar]
        exact Char.utf8Size_pos c
      obtain ⟨byte, bytes, heq⟩ := List.exists_cons_of_ne_nil hne
      rw [heq] at h
      cases h
    · exact h

/-! ## The kinds of URL -/

theorem schemeKind_eq_file_iff {scheme : List Char} :
    schemeKind scheme = .file ↔ scheme = "file".toList := by
  constructor
  · intro h
    rw [schemeKind.eq_def] at h
    split at h
    next heq => rw [← heq, String.toList_ofList]
    all_goals cases h
  · rintro rfl
    rfl

theorem isFile_iff {url : Url} : url.isFile = true ↔ schemeKind url.scheme = .file := by
  rw [isFile, decide_eq_true_eq, schemeKind_eq_file_iff]

theorem wellFormed_parseAfterSlashes {scheme cs : List Char} {url : Url} (hscheme : IsScheme scheme)
    (hkind : schemeKind scheme ≠ .file) (h : parseAfterSlashes scheme cs = .ok url) :
    url.WellFormed := by
  rw [parseAfterSlashes] at h
  obtain ⟨⟨authority, rest⟩, hauthority, h⟩ := exists_of_bind_eq_ok h
  rcases hsplit : splitTail rest with ⟨body, tail⟩
  simp only [hsplit] at h
  obtain rfl := Except.ok.inj h
  have hmade {path : List Char} (hpath : IsHierarchical path) :
      (⟨scheme, some authority, path, none, none⟩ : Url).WellFormed :=
    ⟨hscheme, fun _ hmem ↦ Option.some.inj hmem ▸ wellFormed_parseAuthority hauthority,
      fun _ ↦ rfl, fun _ ↦ hpath, fun _ ↦ delimits_of_isEncoded hpath.encoded,
      fun hnone ↦ absurd hnone (by simp), fun _ hquery ↦ absurd hquery (by simp)⟩
  have hroot (body : List Char) :
      IsHierarchical (extendPath (schemeKind scheme).pathRules ⟨['/'], true⟩ body).path :=
    isHierarchical_extendPath (isFile_pathRules hkind) (by decide) isFolder_slash body
  refine wellFormed_withTail (hmade ?_) _ _
  split
  · exact hroot _
  · rcases body with _ | ⟨c, more⟩
    · exact isHierarchical_nil
    · by_cases hc : c = '/'
      · simp only [hc, if_true]
        rw [extendPath_slash]
        exact hroot _
      · simp only [hc, if_false]
        exact hroot _

theorem wellFormed_parseOther {scheme cs : List Char} {url : Url} (hscheme : IsScheme scheme)
    (hkind : schemeKind scheme = .other) (h : parseOther scheme cs = .ok url) :
    url.WellFormed := by
  have hmade {path : List Char} (hpath : IsHierarchical path) (hdot : ¬dotStart <+: path) :
      (⟨scheme, none, path, none, none⟩ : Url).WellFormed :=
    ⟨hscheme, fun _ hmem ↦ absurd hmem (by simp), fun hspecial ↦ absurd hkind hspecial,
      fun _ ↦ hpath, fun _ ↦ delimits_of_isEncoded hpath.encoded, fun _ ↦ hdot,
      fun _ hquery ↦ absurd hquery (by simp)⟩
  rw [parseOther.eq_def] at h
  split at h
  · exact wellFormed_parseAfterSlashes hscheme (by simp [hkind]) h
  · obtain rfl := Except.ok.inj h
    have hrules : SchemeKind.other.pathRules.isFile = false := rfl
    refine wellFormed_withTail (hmade (isHierarchical_extendPath hrules (by decide)
      isFolder_slash _) fun hdot ↦ ?_) _ _
    exact absurd ((leadsTo_extendPath hrules isFolder_slash true _).dotted hdot) (by decide)
  next hroot =>
    rcases hsplit : splitTail cs with ⟨body, tail⟩
    rw [hsplit] at h
    obtain rfl := Except.ok.inj h
    have hhead : (Percent.encode (fun c ↦ c.toNat < 0x20 || c.toNat = 0x7F) body).head?
        ≠ some '/' := fun hslash ↦ by
      obtain ⟨rest, hrest⟩ := List.head?_eq_some_iff.mp (head?_of_encode hslash)
      obtain ⟨more, hmore⟩ := (splitTail_isPrefix hsplit)
      exact hroot (rest ++ more) (by rw [← hmore, hrest, List.cons_append])
    -- a path in one piece is not resolved against
    refine wellFormed_withTail ⟨hscheme, fun _ hmem ↦ absurd hmem (by simp),
      fun hspecial ↦ absurd hkind hspecial, fun hpathless ↦ ?_, fun c hc ↦ ?_, fun _ hdot ↦ ?_,
      fun _ hquery ↦ absurd hquery (by simp)⟩ _ _
    · exact absurd hpathless (by simp [isPathless, hhead])
    · rcases Percent.mem_encode hc with htriple | ⟨-, hc⟩
      · have hall : ∀ c ∈ Percent.tripleChars, c ≠ '?' ∧ c ≠ '#' :=
          List.all_iff_forall_prop.mp (by decide)
        exact hall c htriple
      · exact delimits_of_splitTail hsplit c hc
    · obtain ⟨rest, hrest⟩ := hdot
      exact hhead (congrArg List.head? hrest).symm

/-- A reference that is resolved leaves the parts of the base that it keeps as they are. -/
theorem wellFormed_parseRelative {base url : Url} {cs : List Char} (hbase : base.WellFormed)
    (hkind : schemeKind base.scheme ≠ .file) (hpathless : base.isPathless = false)
    (h : parseRelative base cs = .ok url) : url.WellFormed := by
  have hpath := hbase.hierarchical hpathless
  have hroot (cs : List Char) :
      (withExtendedPath (schemeKind base.scheme) base ['/'] cs).WellFormed :=
    wellFormed_withExtendedPath hkind hbase (by decide) isFolder_slash (fun _ ↦ by decide) cs
  rw [parseRelative.eq_def] at h
  dsimp only at h
  split at h
  · obtain rfl := Except.ok.inj h
    exact wellFormed_withFragment hbase none
  · obtain rfl := Except.ok.inj h
    exact wellFormed_withTail hbase _ _
  · obtain rfl := Except.ok.inj h
    exact wellFormed_withFragment hbase _
  · split at h
    · split at h
      · split at h
        · split at h
          · exact wellFormed_parseAfterSlashes hbase.scheme hkind h
          · exact wellFormed_parseAfterSlashes hbase.scheme hkind h
        · obtain rfl := Except.ok.inj h
          exact hroot _
      · obtain rfl := Except.ok.inj h
        exact hroot _
    · obtain rfl := Except.ok.inj h
      rw [popSegment_eq (isFile_pathRules hkind)]
      rcases hpath.slash with hnil | hslash
      · rw [hnil]
        exact hroot _
      · have hfolder := isFolder_throughLastSlash hslash
        have hne : (throughLastSlash base.path).isEmpty = false := by
          rw [List.isEmpty_eq_false_iff]
          intro hnil
          exact absurd hfolder.head (by simp [hnil])
        rw [hne, if_neg (by decide)]
        exact wellFormed_withExtendedPath hkind hbase
          (hpath.encoded.of_isPrefix (throughLastSlash_isPrefix _)) hfolder
          (fun hnone hdot ↦ hbase.undotted hnone (hdot.trans (throughLastSlash_isPrefix _))) _

/-! ## Files -/

theorem isScheme_file : IsScheme "file".toList :=
  ⟨⟨'f', rfl, rfl⟩, List.all_iff_forall_prop.mp (by decide)⟩

theorem wellFormed_file {host path : List Char} (hhost : IsHost host)
    (hpath : IsHierarchical path) :
    (⟨"file".toList, some ⟨[], host, none⟩, path, none, none⟩ : Url).WellFormed :=
  ⟨isScheme_file, fun _ hmem ↦ Option.some.inj hmem ▸ ⟨List.forall_mem_nil _, hhost⟩,
    fun _ ↦ rfl, fun _ ↦ hpath, fun _ ↦ delimits_of_isEncoded hpath.encoded,
    fun hnone ↦ absurd hnone (by simp), fun _ hquery ↦ absurd hquery (by simp)⟩

theorem isHost_nil : IsHost [] := .name (List.forall_mem_nil _)

theorem wellFormed_local {start : List Char} (hstart : IsEncoded start) (cs : List Char) :
    (withExtendedPath .file (Url.file []) start cs).WellFormed :=
  wellFormed_withExtendedPath_file (wellFormed_file isHost_nil isHierarchical_nil) rfl hstart cs

theorem wellFormed_parseFileHost {cs : List Char} {url : Url} (h : parseFileHost cs = .ok url) :
    url.WellFormed := by
  have hroot (cs : List Char) : (withExtendedPath .file (Url.file []) ['/'] cs).WellFormed :=
    wellFormed_local (by decide) cs
  rw [parseFileHost] at h
  dsimp only at h
  split at h
  · obtain rfl := Except.ok.inj h
    exact hroot _
  · split at h
    · obtain rfl := Except.ok.inj h
      exact hroot _
    · obtain ⟨host, hhost, h⟩ := exists_of_bind_eq_ok h
      split at h
      · obtain rfl := Except.ok.inj h
        exact hroot _
      · obtain rfl := Except.ok.inj h
        have hkept (keeps : Bool) : IsHost (if keeps then host else []) := by
          cases keeps
          · exact isHost_nil
          · exact isHost_parseHost hhost
        have hroot : IsEncoded ['/'] := by decide
        exact wellFormed_withTail
          (wellFormed_file (hkept _) (isHierarchical_extendPath_file rfl hroot _)) _ _

private theorem isEncoded_firstSegment {url : Url} (h : IsEncoded url.path) :
    IsEncoded ((url.segments?.bind List.head?).getD []) := by
  intro c hc
  obtain ⟨segment, hsegment, hc⟩ : ∃ segment ∈ url.segments?.bind List.head?, c ∈ segment := by
    cases hfirst : url.segments?.bind List.head? with
    | none =>
      rw [hfirst] at hc
      cases hc
    | some segment =>
      rw [hfirst] at hc
      exact ⟨segment, rfl, hc⟩
  obtain ⟨segments, hsegments, hhead⟩ := Option.bind_eq_some_iff.mp hsegment
  rw [segments?] at hsegments
  split at hsegments
  next rest hpath =>
    obtain rfl := Option.some.inj hsegments
    have hmem := (mem_of_mem_fieldsAt (List.mem_of_mem_head? hhead) hc).1
    exact h c (hpath ▸ List.mem_cons_of_mem _ hmem)
  next => cases hsegments

theorem wellFormed_parseFile {base : Option Url} {cs : List Char} {url : Url}
    (hbase : ∀ b ∈ base, b.WellFormed ∧ b.isFile = true) (h : parseFile base cs = .ok url) :
    url.WellFormed := by
  have hsome {b : Url} (hb : b ∈ base) : b.authority.isSome = true := by
    refine (hbase b hb).1.special ?_
    rw [isFile_iff.mp (hbase b hb).2]
    decide
  have hencoded {b : Url} (hb : b ∈ base) : IsEncoded b.path :=
    ((hbase b hb).1.hierarchical (by rw [isPathless, ← Option.not_isSome, hsome hb]; rfl)).encoded
  have hfromRoot (rest : List Char) : (parseFile.fromRoot base rest).WellFormed := by
    rw [parseFile.fromRoot.eq_def]
    cases base with
    | none => exact wellFormed_local (List.forall_mem_nil _) _
    | some b =>
      dsimp only
      split
      · exact wellFormed_local (List.forall_mem_nil _) _
      · split
        · exact wellFormed_local (List.forall_mem_cons.mpr
            ⟨by decide, isEncoded_firstSegment (hencoded rfl)⟩) _
        · have hauthority : b.authority.isSome = true := hsome rfl
          have hfile : { Url.file [] with authority := b.authority }.WellFormed :=
            ⟨isScheme_file, (hbase b rfl).1.authority, fun _ ↦ hauthority,
              fun _ ↦ isHierarchical_nil, List.forall_mem_nil _,
              fun _ hdot ↦ absurd hdot (show ¬dotStart <+: [] by decide),
              fun _ hquery ↦ absurd hquery (by simp [Url.file])⟩
          exact wellFormed_withExtendedPath_file hfile hauthority (List.forall_mem_nil _) _
  have hfromDirectory (cs : List Char) : (parseFile.fromDirectory base cs).WellFormed := by
    rw [parseFile.fromDirectory.eq_def]
    cases base with
    | none => exact wellFormed_local (by decide) _
    | some b =>
      have hb := (hbase b rfl).1
      dsimp only
      split
      · exact wellFormed_withFragment hb none
      · exact wellFormed_withTail hb _ _
      · exact wellFormed_withFragment hb _
      · split
        · exact wellFormed_local (by decide) _
        · exact wellFormed_withExtendedPath_file hb (hsome rfl)
            ((hencoded rfl).of_isPrefix (popSegment_isPrefix _ _)) _
  rw [parseFile.eq_def] at h
  split at h
  · split at h
    · exact wellFormed_parseFileHost h
    · split at h
      · exact Except.ok.inj h ▸ hfromRoot _
      · exact Except.ok.inj h ▸ hfromDirectory _
  · split at h
    · exact Except.ok.inj h ▸ hfromRoot _
    · exact Except.ok.inj h ▸ hfromDirectory _
  · exact Except.ok.inj h ▸ hfromDirectory _

/-! ## Where URLs come from -/

theorem wellFormed_parseWithScheme {base : Option Url} {scheme cs : List Char} {url : Url}
    (hbase : ∀ b ∈ base, b.WellFormed) (hscheme : IsScheme scheme)
    (h : parseWithScheme base scheme cs = .ok url) : url.WellFormed := by
  rw [parseWithScheme] at h
  split at h
  next =>
    refine wellFormed_parseFile (fun b hb ↦ ?_) h
    obtain ⟨hb, hfile⟩ := Option.mem_filter_iff.mp hb
    exact ⟨hbase b hb, hfile⟩
  next hkind => exact wellFormed_parseOther hscheme hkind h
  next hkind =>
    split at h
    next b hb =>
      obtain ⟨hb, hsame⟩ := Option.filter_eq_some_iff.mp hb
      simp only [Bool.and_eq_true, decide_eq_true_eq] at hsame
      rw [← hsame.1] at hkind
      have hsome := (hbase b hb).special (by simp [hkind])
      refine wellFormed_parseRelative (hbase b hb) (by simp [hkind]) ?_ h
      rw [isPathless, ← Option.not_isSome, hsome]
      rfl
    next => exact wellFormed_parseAfterSlashes hscheme (by simp [hkind]) h

/-- **Parsing keeps URLs well formed.** -/
theorem wellFormed_parseAgainst {base : Option Url} {text : List Char} {url : Url}
    (hbase : ∀ b ∈ base, b.WellFormed) (h : parseAgainst base text = .ok url) :
    url.WellFormed := by
  rw [parseAgainst.eq_def] at h
  dsimp only at h
  split at h
  next scheme rest hscheme =>
    exact wellFormed_parseWithScheme hbase (isScheme_of_splitScheme hscheme) h
  next =>
    split at h
    · cases h
    next b =>
      split at h
      · obtain rfl := Except.ok.inj h
        exact wellFormed_withFragment (hbase b rfl) _
      · split at h
        · cases h
        next hpathless =>
          split at h
          next hfile => exact wellFormed_parseFile (fun _ hmem ↦
              Option.some.inj hmem ▸ ⟨hbase b rfl, hfile⟩) h
          next hfile =>
            refine wellFormed_parseRelative (hbase b rfl) ?_ (by simpa using hpathless) h
            exact fun hkind ↦ hfile (isFile_iff.mpr hkind)

/-- The URLs that there are: those that are parsed, those that are resolved against others, and
those that are made from paths. -/
inductive Arises : Url → Prop
  | parse {text : String} {url : Url} (h : Url.parse text = .ok url) : Arises url
  | join {base url : Url} {reference : String} (hbase : Arises base)
    (h : base.join reference = .ok url) : Arises url
  | ofFilePath (path : Path) : Arises (ofFilePath path)
  | ofDirectoryPath (path : Path) : Arises (ofDirectoryPath path)

theorem isHierarchical_encodePath (path : Path) : IsHierarchical (encodePath path) := by
  rw [encodePath.eq_def]
  rcases (Path.components path).drop 1 with _ | ⟨name, names⟩
  · exact ⟨by decide, .inr rfl⟩
  · refine ⟨fun c hc ↦ ?_, .inr rfl⟩
    obtain ⟨name, -, hc⟩ := List.mem_flatMap.mp hc
    rcases List.mem_cons.mp hc with rfl | hc
    · decide
    · exact isEncoded_encode (fun c hc ↦ by simp [encodedInFileName, hc]) name c hc

theorem Arises.wellFormed {url : Url} (h : url.Arises) : url.WellFormed := by
  induction h with
  | parse h => exact wellFormed_parseAgainst (fun _ hmem ↦ absurd hmem (by simp)) h
  | join hbase h ih => exact wellFormed_parseAgainst (fun _ hmem ↦ Option.some.inj hmem ▸ ih) h
  | ofFilePath path => exact wellFormed_file isHost_nil (isHierarchical_encodePath path)
  | ofDirectoryPath path =>
    have hpath := isHierarchical_encodePath path
    refine wellFormed_file isHost_nil ⟨isEncoded_withFinalSlash hpath.encoded, .inr ?_⟩
    rw [withFinalSlash]
    split
    next hlast =>
      exact hpath.slash.resolve_left fun hnil ↦ absurd hlast (by simp [hnil])
    next =>
      rcases hpath.slash with hnil | hslash
      · rw [hnil]
        rfl
      · rw [List.head?_append, hslash]
        rfl

end Url

end ScriptLoader
