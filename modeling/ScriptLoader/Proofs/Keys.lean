import ScriptLoader.Loader.Platform
import ScriptLoader.Proofs.Url.Text

/-!
# What keys tell apart

A loader asks for a reference once for each key, so references with the same key should lead to the
same lookup. The key of a local reference is the text of a directory, a space and the locator. No
directory has a space in its text, so both can be read off the key, and well-formed directories with
the same text are the same. The key of any other reference is the locator alone.

## Where keys fall short

A locator on the include paths may itself be a URL. One such as `file:x` is resolved against a
directory of the same scheme, which its key does not mention; and one with a space in it can be the
key of a local reference.
-/

namespace ScriptLoader

namespace Url

/-- Whether a locator depends on the base although it has a scheme: the scheme is the base's own, it
has rules for files or the web, and fewer than two slashes follow it. -/
def IsRelativeTo (base : Url) (locator : String) : Prop :=
  ∃ rest, splitScheme (cleanInput locator.toList) = some (base.scheme, rest) ∧
    schemeKind base.scheme ≠ .other ∧ (rest.takeWhile isSlash).length < 2

private theorem exists_of_two_le_length {cs : List Char}
    (h : 2 ≤ (cs.takeWhile isSlash).length) :
    ∃ c d rest, cs = c :: d :: rest ∧ isSlash c = true ∧ isSlash d = true := by
  rcases cs with _ | ⟨c, cs⟩
  · exact absurd h (by decide)
  · by_cases hc : isSlash c = true
    · rw [List.takeWhile_cons_of_pos hc] at h
      rcases cs with _ | ⟨d, rest⟩
      · exact absurd h (by simp)
      · by_cases hd : isSlash d = true
        · exact ⟨c, d, rest, rfl, hc, hd⟩
        · rw [List.takeWhile_cons_of_neg hd] at h
          exact absurd h (by simp)
    · rw [List.takeWhile_cons_of_neg hc] at h
      exact absurd h (by simp)

theorem join_eq_parse {base : Url} {locator : String} {parts : List Char × List Char}
    (hscheme : splitScheme (cleanInput locator.toList) = some parts)
    (habsolute : ¬base.IsRelativeTo locator) : base.join locator = parse locator := by
  obtain ⟨scheme, rest⟩ := parts
  have hshort (hsame : base.scheme = scheme) (hkind : schemeKind scheme ≠ .other) :
      2 ≤ (rest.takeWhile isSlash).length := by
    refine Nat.le_of_not_lt fun hlt ↦ habsolute ⟨rest, ?_, ?_, hlt⟩
    · rw [hscheme, hsame]
    · rwa [hsame]
  rw [join, parse, parseAgainst.eq_def, parseAgainst.eq_def]
  dsimp only
  rw [hscheme]
  dsimp only
  rw [parseWithScheme, parseWithScheme]
  cases hkind : schemeKind scheme with
  | other => rfl
  | web port =>
    dsimp only
    have hnone : (some base).filter (fun base ↦ base.scheme = scheme &&
        (rest.takeWhile isSlash).length < 2) = none := by
      refine Option.filter_eq_none_iff.mpr fun b hb hsame ↦ ?_
      obtain rfl := Option.some.inj hb
      simp only [Bool.and_eq_true, decide_eq_true_eq] at hsame
      exact absurd hsame.2 (Nat.not_lt.mpr (hshort hsame.1 (by simp [hkind])))
    rw [hnone]
    rfl
  | file =>
    dsimp only
    by_cases hfile : base.isFile = true
    · -- two slashes come first, so the base is not looked at
      have hlong := hshort
        ((schemeKind_eq_file_iff.mp (isFile_iff.mp hfile)).trans
          (schemeKind_eq_file_iff.mp hkind).symm) (by simp [hkind])
      obtain ⟨c, d, more, rfl, hc, hd⟩ := exists_of_two_le_length hlong
      have hhost (base : Option Url) : parseFile base (c :: d :: more) = parseFileHost more := by
        rw [parseFile, hc, hd]
        rfl
      rw [hhost, hhost]
    · have hnone : (some base).filter isFile = none :=
        Option.filter_eq_none_iff.mpr fun b hb ↦ Option.some.inj hb ▸ hfile
      rw [hnone]
      rfl

private theorem lt_toNat_of_isSchemeChar {c : Char} (h : isSchemeChar c = true) :
    0x20 < c.toNat := by
  have hval : c.toNat = c.val.toNat := rfl
  simp only [isSchemeChar, Char.isAlphanum, Char.isAlpha, Char.isUpper, Char.isLower, Char.isDigit,
    Bool.or_eq_true, Bool.and_eq_true, decide_eq_true_eq, ge_iff_le, UInt32.le_iff_toNat_le] at h
  rcases h with ((h | rfl) | rfl) | rfl
  · have h65 : 'A'.val.toNat = 65 := rfl
    have h97 : 'a'.val.toNat = 97 := rfl
    have h48 : '0'.val.toNat = 48 := rfl
    omega
  all_goals decide

/-- Cleaning a text leaves the scheme at its start alone. -/
private theorem exists_cleanInput {scheme : List Char} (h : IsScheme scheme) (rest : List Char) :
    ∃ rest', cleanInput (scheme ++ ':' :: rest) = scheme ++ ':' :: rest' := by
  let drop (c : Char) : Bool := c.toNat ≤ 0x20
  let keep (c : Char) : Bool := c ≠ '\t' && c ≠ '\n' && c ≠ '\r'
  have hkept {c : Char} (hc : c ∈ scheme) : drop c = false :=
    decide_eq_false (Nat.not_le.mpr (lt_toNat_of_isSchemeChar (h.chars c hc)))
  obtain ⟨c, hc, -⟩ := h.head
  obtain ⟨more, hmore⟩ := List.head?_eq_some_iff.mp hc
  have hstart : (scheme ++ ':' :: rest).dropWhile drop = scheme ++ ':' :: rest := by
    have := hkept (List.mem_of_mem_head? hc)
    rw [hmore, List.cons_append, List.dropWhile_cons_of_neg (by simp [this])]
  have hend : ((scheme ++ ':' :: rest).reverse.dropWhile drop).reverse
      = scheme ++ ':' :: (rest.reverse.dropWhile drop).reverse := by
    have hcolon : (':' :: scheme.reverse).dropWhile drop = ':' :: scheme.reverse :=
      List.dropWhile_cons_of_neg (by decide)
    rw [List.reverse_append, List.reverse_cons, List.append_assoc, List.singleton_append,
      List.dropWhile_append, hcolon]
    split
    next hempty => rw [List.isEmpty_iff.mp hempty]; simp
    next => simp
  have hfilter : scheme.filter keep = scheme := by
    refine List.filter_eq_self.mpr fun c hc ↦ ?_
    have hlt := lt_toNat_of_isSchemeChar (h.chars c hc)
    simp only [keep, Bool.and_eq_true, decide_eq_true_eq]
    refine ⟨⟨?_, ?_⟩, ?_⟩ <;> rintro rfl <;> exact absurd hlt (by decide)
  refine ⟨(rest.reverse.dropWhile drop).reverse.filter keep, ?_⟩
  rw [cleanInput, cleanInput.trimWith, hstart, hend, List.filter_append, hfilter]
  rfl

/-- The text of a well-formed URL is read as one, whatever follows it. -/
theorem WellFormed.isSome_splitScheme {url : Url} (h : url.WellFormed) (more : List Char) :
    (splitScheme (cleanInput (url.serialize ++ more))).isSome = true := by
  rw [serialize_eq, List.append_assoc, List.cons_append]
  obtain ⟨rest, hrest⟩ := exists_cleanInput h.scheme _
  obtain ⟨c, hc, halpha⟩ := h.scheme.head
  obtain ⟨chars, hchars⟩ := List.head?_eq_some_iff.mp hc
  obtain ⟨name, hname⟩ : ∃ name, spanScheme (url.scheme ++ ':' :: rest) = some (name, rest) :=
    spanScheme_append h.scheme.chars
  rw [hchars, List.cons_append] at hrest hname
  rw [hchars, List.cons_append, hrest, List.cons_append, splitScheme, if_pos halpha, hname]
  rfl

end Url

/-- Whether a reference on the include paths could be the key of a local one: it starts with a
scheme, and a space is in it. -/
def Reference.IsAmbiguous (r : Reference) : Prop :=
  r.isLocal = false ∧ (Url.splitScheme (Url.cleanInput r.locator.toList)).isSome = true ∧
    ' ' ∈ r.locator.toList

namespace Reference

variable {context context' : Url} {q r : Reference}

private theorem toList_key_of_isLocal (h : q.isLocal = true) :
    (q.key context.text).toList = context.serialize ++ ' ' :: q.locator.toList := by
  rw [key, if_pos h, String.toList_append, String.toList_append, Url.text, String.toList_ofList,
    List.append_assoc]
  rfl

private theorem key_of_not_isLocal (h : q.isLocal = false) : q.key context.text = q.locator := by
  rw [key, h]
  rfl

/-- A local reference has the key of another one only if that is ambiguous. -/
private theorem isAmbiguous_of_key_eq (hcontext : context.WellFormed) (hq : q.isLocal = true)
    (hr : r.isLocal = false) (hkey : q.key context.text = r.key context'.text) :
    r.IsAmbiguous := by
  have htext : r.locator.toList = context.serialize ++ ' ' :: q.locator.toList := by
    rw [← toList_key_of_isLocal hq, hkey, key_of_not_isLocal hr]
  refine ⟨hr, ?_, ?_⟩
  · rw [htext]
    exact hcontext.isSome_splitScheme _
  · rw [htext]
    simp

/-- **A key names a reference.** The key determines the reference and, of a local one, also the
directory, unless the reference is ambiguous. -/
theorem eq_of_key_eq (hcontext : context.IsDirectory) (hcontext' : context'.IsDirectory)
    (hshape : q.isLocal = r.isLocal ∨ ¬q.IsAmbiguous ∧ ¬r.IsAmbiguous)
    (hkey : q.key context.text = r.key context'.text) :
    q = r ∧ (q.isLocal = true → context = context') := by
  have hwell := hcontext.arises.wellFormed
  have hwell' := hcontext'.arises.wellFormed
  have hsame : q.isLocal = r.isLocal := by
    refine hshape.elim id fun ⟨hclear, hclear'⟩ ↦ ?_
    cases hq : q.isLocal <;> cases hr : r.isLocal
    · rfl
    · exact absurd (isAmbiguous_of_key_eq hwell' hr hq hkey.symm) hclear
    · exact absurd (isAmbiguous_of_key_eq hwell hq hr hkey) hclear'
    · rfl
  obtain ⟨locator, isLocal⟩ := q
  obtain ⟨locator', isLocal'⟩ := r
  obtain rfl : isLocal = isLocal' := hsame
  cases isLocal with
  | false =>
    rw [key_of_not_isLocal rfl, key_of_not_isLocal rfl] at hkey
    exact ⟨by rw [show locator = locator' from hkey], fun h ↦ by cases h⟩
  | true =>
    have htext := congrArg String.toList hkey
    rw [toList_key_of_isLocal rfl, toList_key_of_isLocal rfl] at htext
    have hfree {context : Url} (h : context.IsDirectory) :
        ∀ c ∈ context.serialize, (c == ' ') = false := fun c hc ↦ by
      rw [beq_eq_false_iff_ne]
      rintro rfl
      exact h.not_mem_space hc
    obtain ⟨hserialize, hrest⟩ := append_inj_of_stops (· == ' ') htext (hfree hcontext)
      (hfree hcontext') (by simp) (by simp)
    have hlocator : locator = locator' := String.toList_injective (List.cons.inj hrest).2
    exact ⟨by rw [hlocator], fun _ ↦ hwell.text_inj hwell' (congrArg String.ofList hserialize)⟩

end Reference

/-- **References with the same key lead to the same lookup**, whoever asks: a request for the same
URL, or a search for the same locator. What is left out is a reference on the include paths that is
a URL relative to the directory it is asked from, and one that can be the key of a local
reference. -/
theorem Operation.request_eq_of_key_eq {s t : Operation} {q r : Reference}
    (hs : s.context.IsDirectory) (ht : t.context.IsDirectory)
    (hsubstitutions : s.substitutions = t.substitutions)
    (hq : q.isLocal = false → ¬s.context.IsRelativeTo q.locator)
    (hr : r.isLocal = false → ¬t.context.IsRelativeTo r.locator)
    (hshape : q.isLocal = r.isLocal ∨ ¬q.IsAmbiguous ∧ ¬r.IsAmbiguous)
    (hkey : q.key s.context.text = r.key t.context.text) : s.request q = t.request r := by
  obtain ⟨rfl, hcontext⟩ := Reference.eq_of_key_eq hs ht hshape hkey
  rw [request, request, hsubstitutions]
  cases hlocal : q.isLocal with
  | true => rw [hcontext hlocal]
  | false =>
    rw [Bool.false_or]
    split
    next hparsed =>
      -- the locator is a URL, and both directories resolve it to itself
      cases hscheme : Url.splitScheme (Url.cleanInput q.locator.toList) with
      | none =>
        rw [Url.parse, Url.parseAgainst.eq_def] at hparsed
        dsimp only at hparsed
        rw [hscheme] at hparsed
        cases hparsed
      | some parts =>
        rw [Url.join_eq_parse hscheme (hq hlocal), Url.join_eq_parse hscheme (hr hlocal)]
    next => rfl

def fileSearcher (path : String) : Operation where
  kind := .searcher
  serial := 0
  context := .file path.toList
  substitutions := {}

theorem request_eq_of_key_eq_search :
    (fileSearcher "/app/").request ⟨"util.j", false⟩
        = (fileSearcher "/lib/").request ⟨"util.j", false⟩ ∧
      (fileSearcher "/app/").context ≠ (fileSearcher "/lib/").context := by
  have hrelative (base : Url) : ¬base.IsRelativeTo "util.j" := by
    rintro ⟨rest, hscheme, -⟩
    have hnone : Url.splitScheme (Url.cleanInput "util.j".toList) = none := by decide
    rw [hnone] at hscheme
    cases hscheme
  have happ : (fileSearcher "/app/").context.IsDirectory :=
    ⟨Url.ofFilePath "/app/a.j".toList, .ofFilePath _, by decide +kernel⟩
  have hlib : (fileSearcher "/lib/").context.IsDirectory :=
    ⟨Url.ofFilePath "/lib/b.j".toList, .ofFilePath _, by decide +kernel⟩
  have hkey (context : Url) : Reference.key ⟨"util.j", false⟩ context.text = "util.j" := rfl
  exact ⟨Operation.request_eq_of_key_eq happ hlib rfl (fun _ ↦ hrelative _) (fun _ ↦ hrelative _)
    (.inl rfl) ((hkey _).trans (hkey _).symm), by decide⟩

/-- A reference that is a URL relative to two directories leads to a file of each. -/
example :
    let r : Reference := ⟨"file:util.j", false⟩
    r.key (fileSearcher "/app/").context.text = r.key (fileSearcher "/lib/").context.text ∧
      (fileSearcher "/app/").request r = .ok (.resolve (.file "/app/util.j".toList) {}) ∧
      (fileSearcher "/lib/").request r = .ok (.resolve (.file "/lib/util.j".toList) {}) := by
  decide +kernel

end ScriptLoader
