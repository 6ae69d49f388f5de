import ScriptLoader.Proofs.Url.WellFormed

/-!
# The text of a URL

The text of a well-formed URL can be cut into its parts again: each part ends before the first
character that it cannot hold. So two URLs with the same text are the same.
-/

namespace ScriptLoader

/-- A text is cut where it stops. -/
private theorem takeWhile_append_of_stops {stop : Char → Bool} {part rest : List Char}
    (hpart : ∀ c ∈ part, stop c = false) (hrest : ∀ c ∈ rest.head?, stop c = true) :
    (part ++ rest).takeWhile (!stop ·) = part := by
  rw [List.takeWhile_append_of_pos fun c hc ↦ by rw [hpart c hc]; rfl]
  cases rest with
  | nil => simp
  | cons c rest =>
    have hc := hrest c rfl
    rw [List.takeWhile_cons_of_neg (by simp [hc]), List.append_nil]

theorem append_inj_of_stops (stop : Char → Bool) {part part' rest rest' : List Char}
    (h : part ++ rest = part' ++ rest') (hpart : ∀ c ∈ part, stop c = false)
    (hpart' : ∀ c ∈ part', stop c = false) (hrest : ∀ c ∈ rest.head?, stop c = true)
    (hrest' : ∀ c ∈ rest'.head?, stop c = true) : part = part' ∧ rest = rest' := by
  have hsame : part = part' := by
    rw [← takeWhile_append_of_stops hpart hrest, h, takeWhile_append_of_stops hpart' hrest']
  subst hsame
  exact ⟨rfl, List.append_cancel_left h⟩

/-! ## Parts that may be missing -/

/-- A part that follows its mark, when it is there. -/
def marked (mark : Char) : Option (List Char) → List Char
  | none => []
  | some part => mark :: part

theorem head?_marked {mark : Char} {part : Option (List Char)} :
    ∀ c ∈ (marked mark part).head?, c = mark := by
  cases part with
  | none => exact fun c hc ↦ absurd hc (by simp [marked])
  | some part => exact fun c hc ↦ (Option.some.inj hc).symm

theorem marked_inj {mark : Char} {part part' : Option (List Char)}
    (h : marked mark part = marked mark part') : part = part' := by
  cases part <;> cases part' <;> simp_all [marked]

/-! ## Authorities -/

namespace Authority

def portText (port : Option Nat) : List Char := marked ':' (port.map (Nat.toDigits 10))

theorem serialize_eq (a : Authority) :
    a.serialize =
      (if a.userinfo.isEmpty then [] else a.userinfo ++ ['@']) ++ a.host ++ portText a.port := by
  rw [serialize]
  cases a.port <;> rfl

private theorem mem_portText {port : Option Nat} {c : Char} (h : c ∈ portText port) :
    c ∉ " /?#@[]".toList := by
  cases port with
  | none => cases h
  | some n =>
    rcases List.mem_cons.mp h with rfl | h
    · decide
    · have hdigit := Nat.isDigit_of_mem_toDigits (by decide) (by decide) h
      intro hmem
      have hall : ∀ c ∈ " /?#@[]".toList, c.isDigit = false :=
        List.all_iff_forall_prop.mp (by decide)
      exact absurd hdigit (by simp [hall c hmem])

theorem portText_inj {port port' : Option Nat} (h : portText port = portText port') :
    port = port' := by
  have hdigits := marked_inj h
  refine Option.map_injective (fun n n' hn ↦ ?_) hdigits
  rw [← Nat.ofDigitChars_ten_toDigits (n := n), hn, Nat.ofDigitChars_ten_toDigits]

private theorem mem_host {host : List Char} (h : Url.IsHost host) {c : Char} (hc : c ∈ host) :
    c ∉ " /?#@".toList := by
  have hplain {c : Char} (hc : Url.isHostChar c = true) : c ∉ " /?#@".toList := fun hmem ↦ by
    have hall : ∀ c ∈ " /?#@".toList, Url.isHostChar c = false :=
      List.all_iff_forall_prop.mp (by decide)
    exact absurd hc (by simp [hall c hmem])
  cases h with
  | name h => exact hplain (h c hc)
  | bracketed h =>
    simp only [List.cons_append, List.mem_cons, List.mem_append, List.not_mem_nil, or_false] at hc
    rcases hc with rfl | hc | rfl
    · decide
    · rcases h c hc with hc | rfl
      · exact hplain hc
      · decide
    · decide

/-- A host and a port are told apart: the colon of the port is the first outside brackets. -/
private theorem host_inj {host host' : List Char} {port port' : Option Nat}
    (hhost : Url.IsHost host) (hhost' : Url.IsHost host')
    (h : host ++ portText port = host' ++ portText port') :
    host = host' ∧ port = port' := by
  have hname {host pieces : List Char} {port port' : Option Nat}
      (hname : ∀ c ∈ host, Url.isHostChar c = true)
      (h : host ++ portText port = '[' :: pieces ++ [']'] ++ portText port') : False := by
    have hmem : '[' ∈ host ++ portText port := by rw [h]; simp
    rcases List.mem_append.mp hmem with hmem | hmem
    · exact absurd (hname _ hmem) (by decide)
    · exact mem_portText hmem (by decide)
  cases hhost with
  | name hplain =>
    cases hhost' with
    | name hplain' =>
      have hfree {host : List Char} (hplain : ∀ c ∈ host, Url.isHostChar c = true) :
          ∀ c ∈ host, (c == ':') = false := fun c hc ↦ by
        rw [beq_eq_false_iff_ne]
        rintro rfl
        exact absurd (hplain _ hc) (by decide)
      obtain ⟨heq, hport⟩ := append_inj_of_stops (· == ':') h (hfree hplain) (hfree hplain')
        (fun c hc ↦ beq_iff_eq.mpr (head?_marked c hc))
        (fun c hc ↦ beq_iff_eq.mpr (head?_marked c hc))
      exact ⟨heq, portText_inj hport⟩
    | bracketed => exact (hname hplain h).elim
  | bracketed hpieces =>
    cases hhost' with
    | name hplain' => exact (hname hplain' h.symm).elim
    | bracketed hpieces' =>
      have hfree {pieces : List Char} (h : ∀ c ∈ pieces, Url.isHostChar c = true ∨ c = ':') :
          ∀ c ∈ pieces, (c == ']') = false := fun c hc ↦ by
        rw [beq_eq_false_iff_ne]
        rintro rfl
        exact (h _ hc).elim (by decide) (by decide)
      simp only [List.cons_append, List.append_assoc, List.nil_append, List.cons.injEq,
        true_and] at h
      obtain ⟨heq, hrest⟩ := append_inj_of_stops (· == ']') h (hfree hpieces) (hfree hpieces')
        (by simp) (by simp)
      exact ⟨by rw [heq], portText_inj (List.cons.inj hrest).2⟩

theorem WellFormed.mem_serialize {a : Authority} (h : a.WellFormed) {c : Char}
    (hc : c ∈ a.serialize) : c ∉ " /?#".toList := by
  have hsub : ∀ {c}, c ∉ " /?#@".toList → c ∉ " /?#".toList := fun hnot hmem ↦
    hnot (List.mem_append_left ['@'] hmem)
  rw [serialize_eq, List.mem_append, List.mem_append] at hc
  rcases hc with (hc | hc) | hc
  · split at hc
    · cases hc
    · rcases List.mem_append.mp hc with hc | hc
      · exact hsub (h.userinfo c hc)
      · obtain rfl := List.mem_singleton.mp hc
        decide
  · exact hsub (mem_host h.host hc)
  · exact fun hmem ↦ mem_portText hc (List.mem_append_left "@[]".toList hmem)

theorem WellFormed.serialize_inj {a a' : Authority} (h : a.WellFormed) (h' : a'.WellFormed)
    (heq : a.serialize = a'.serialize) : a = a' := by
  obtain ⟨userinfo, host, port⟩ := a
  obtain ⟨userinfo', host', port'⟩ := a'
  have hfree {host : List Char} (h : Url.IsHost host) (port : Option Nat) :
      '@' ∉ host ++ portText port := fun hmem ↦
    (List.mem_append.mp hmem).elim (fun hc ↦ mem_host h hc (by decide))
      fun hc ↦ mem_portText hc (by decide)
  rw [serialize_eq, serialize_eq, List.append_assoc, List.append_assoc] at heq
  dsimp only at heq
  split at heq <;> split at heq
  next hnone hnone' =>
    rw [List.isEmpty_iff] at hnone hnone'
    obtain ⟨rfl, rfl⟩ := host_inj h.host h'.host heq
    rw [hnone, hnone']
  next =>
    refine absurd ?_ (hfree h.host port)
    rw [List.nil_append] at heq
    rw [heq]
    simp
  next =>
    refine absurd ?_ (hfree h'.host port')
    rw [List.nil_append] at heq
    rw [← heq]
    simp
  next =>
    have hstop {userinfo : List Char} (h : ∀ c ∈ userinfo, c ∉ " /?#@".toList) :
        ∀ c ∈ userinfo, (c == '@') = false := fun c hc ↦ by
      rw [beq_eq_false_iff_ne]
      rintro rfl
      exact h _ hc (by decide)
    simp only [List.append_assoc, List.cons_append, List.nil_append] at heq
    obtain ⟨rfl, hrest⟩ := append_inj_of_stops (· == '@') heq (hstop h.userinfo)
      (hstop h'.userinfo) (by simp) (by simp)
    obtain ⟨rfl, rfl⟩ := host_inj h.host h'.host (List.cons.inj hrest).2
    rfl

end Authority

/-! ## URLs -/

namespace Url

/-- What stands before the path. -/
def front (url : Url) : List Char :=
  match url.authority with
  | some authority => '/' :: '/' :: authority.serialize
  | none => if url.path.take 2 = ['/', '/'] then ['/', '.'] else []

theorem serialize_eq (url : Url) :
    url.serialize = url.scheme ++ ':' ::
      ((url.front ++ url.path) ++ marked '?' url.query ++ marked '#' url.fragment) := by
  rw [serialize, front]
  cases url.query <;> cases url.fragment <;> rfl

theorem WellFormed.mem_front {url : Url} (h : url.WellFormed) {c : Char} (hc : c ∈ url.front) :
    c ∉ " ?#".toList := by
  rw [front] at hc
  split at hc
  next authority hauthority =>
    rcases List.mem_cons.mp hc with rfl | hc
    · decide
    · rcases List.mem_cons.mp hc with rfl | hc
      · decide
      · have hnot := (h.authority authority hauthority).mem_serialize hc
        simp only [String.reduceToList, List.mem_cons, not_or] at hnot ⊢
        exact ⟨hnot.1, hnot.2.2⟩
  next =>
    split at hc
    · have hall : ∀ c ∈ ['/', '.'], c ∉ " ?#".toList :=
        List.all_iff_forall_prop.mp (by decide)
      exact hall c hc
    · cases hc

/-- A URL with an authority is told from one without: only the first has two slashes before its
path. -/
private theorem front_append_ne {url url' : Url} {authority : Authority}
    (hsome : url.authority = some authority) (hnone : url'.authority = none) :
    url.front ++ url.path ≠ url'.front ++ url'.path := by
  intro h
  rw [front, front, hsome, hnone] at h
  dsimp only at h
  split at h
  · cases h
  next hslashes => exact hslashes (by rw [List.nil_append] at h; rw [← h]; rfl)

private theorem path_eq_of_front_append_eq {url url' : Url} (h : url.WellFormed)
    (h' : url'.WellFormed) (heq : url.front ++ url.path = url'.front ++ url'.path) :
    url.authority = url'.authority ∧ url.path = url'.path := by
  cases hauthority : url.authority with
  | some authority =>
    cases hauthority' : url'.authority with
    | none => exact absurd heq (front_append_ne hauthority hauthority')
    | some authority' =>
      have ha := h.authority authority hauthority
      have ha' := h'.authority authority' hauthority'
      have hpath {url : Url} {authority : Authority} (h : url.WellFormed)
          (hsome : url.authority = some authority) : ∀ c ∈ url.path.head?, (c == '/') = true := by
        have hslash := (h.hierarchical (by rw [isPathless, hsome]; rfl)).slash
        intro c hc
        rcases hslash with hnil | hslash
        · rw [hnil] at hc
          cases hc
        · rw [hslash] at hc
          exact beq_iff_eq.mpr (Option.some.inj hc).symm
      have hfree {authority : Authority} (h : authority.WellFormed) :
          ∀ c ∈ authority.serialize, (c == '/') = false := fun c hc ↦ by
        rw [beq_eq_false_iff_ne]
        rintro rfl
        exact h.mem_serialize hc (by decide)
      rw [front, front, hauthority, hauthority'] at heq
      simp only [List.cons_append, List.cons.injEq, true_and] at heq
      obtain ⟨hsame, hrest⟩ := append_inj_of_stops (· == '/') heq (hfree ha) (hfree ha')
        (hpath h hauthority) (hpath h' hauthority')
      exact ⟨congrArg some (ha.serialize_inj ha' hsame), hrest⟩
  | none =>
    cases hauthority' : url'.authority with
    | some authority' => exact absurd heq.symm (front_append_ne hauthority' hauthority)
    | none =>
      refine ⟨rfl, ?_⟩
      -- a dot that is put before a path cannot be one of another path
      have hdot {url url' : Url} (h' : url'.WellFormed) (hnone : url'.authority = none)
          (hslashes : url.path.take 2 = ['/', '/']) :
          ['/', '.'] ++ url.path ≠ url'.path := fun heq ↦ by
        obtain ⟨rest, hrest⟩ : ∃ rest, url.path = '/' :: rest := by
          cases hpath : url.path with
          | nil => rw [hpath] at hslashes; cases hslashes
          | cons c rest => rw [hpath] at hslashes; exact ⟨rest, by rw [(List.cons.inj hslashes).1]⟩
        exact h'.undotted hnone ⟨rest, by rw [← heq, hrest]; rfl⟩
      rw [front, front, hauthority, hauthority'] at heq
      dsimp only at heq
      split at heq <;> split at heq
      next => exact List.append_cancel_left heq
      next hslashes _ => exact absurd heq (hdot h' hauthority' hslashes)
      next _ hslashes => exact absurd heq.symm (hdot h hauthority hslashes)
      next => exact heq

/-- **Well-formed URLs with the same text are the same.** -/
theorem WellFormed.text_inj {url url' : Url} (h : url.WellFormed) (h' : url'.WellFormed)
    (heq : url.text = url'.text) : url = url' := by
  have hserialize : url.serialize = url'.serialize := String.ofList_injective heq
  rw [serialize_eq, serialize_eq] at hserialize
  -- the texts are cut at the marks, none of which occurs in a part before it
  have hcolon {url : Url} (h : url.WellFormed) : ∀ c ∈ url.scheme, (c == ':') = false :=
    fun c hc ↦ by
      rw [beq_eq_false_iff_ne]
      rintro rfl
      exact absurd (h.scheme.chars _ hc) (by decide)
  obtain ⟨hscheme, hrest⟩ := append_inj_of_stops (· == ':') hserialize (hcolon h) (hcolon h')
    (by simp) (by simp)
  have hplain {url : Url} (h : url.WellFormed) :
      ∀ c ∈ url.front ++ url.path, c ≠ '?' ∧ c ≠ '#' := fun c hc ↦ by
    rcases List.mem_append.mp hc with hc | hc
    · have hnot := h.mem_front hc
      constructor <;> rintro rfl <;> exact hnot (by decide)
    · exact h.path c hc
  have hhash {url : Url} (h : url.WellFormed) :
      ∀ c ∈ url.front ++ url.path ++ marked '?' url.query, (c == '#') = false := fun c hc ↦ by
    rw [beq_eq_false_iff_ne]
    rcases List.mem_append.mp hc with hc | hc
    · exact (hplain h c hc).2
    · cases hquery : url.query with
      | none => rw [hquery] at hc; cases hc
      | some query =>
        rw [hquery] at hc
        rcases List.mem_cons.mp hc with rfl | hc
        · decide
        · rintro rfl
          exact h.query query hquery hc
  have hmark {mark : Char} {part : Option (List Char)} :
      ∀ c ∈ (marked mark part).head?, (c == mark) = true := fun c hc ↦
    beq_iff_eq.mpr (head?_marked c hc)
  obtain ⟨hbefore, hfragment⟩ := append_inj_of_stops (· == '#') (List.cons.inj hrest).2
    (hhash h) (hhash h') hmark hmark
  obtain ⟨hpath, hquery⟩ := append_inj_of_stops (· == '?') hbefore
    (fun c hc ↦ beq_eq_false_iff_ne.mpr (hplain h c hc).1)
    (fun c hc ↦ beq_eq_false_iff_ne.mpr (hplain h' c hc).1) hmark hmark
  obtain ⟨hauthority, hpath⟩ := path_eq_of_front_append_eq h h' hpath
  rcases url with ⟨scheme, authority, path, query, fragment⟩
  rcases url' with ⟨scheme', authority', path', query', fragment'⟩
  dsimp only at hscheme hauthority hpath hquery hfragment
  rw [hscheme, hauthority, hpath, marked_inj hquery, marked_inj hfragment]

/-! ## Directories -/

/-- The directories that references are resolved against. -/
def IsDirectory (context : Url) : Prop := ∃ url : Url, url.Arises ∧ url.directory = .ok context

theorem IsDirectory.arises {context : Url} (h : context.IsDirectory) : context.Arises :=
  let ⟨_, harises, hdirectory⟩ := h
  harises.join hdirectory

/-- A directory is the URL with its path through the last slash, without query and fragment. -/
private theorem exists_of_directory {url context : Url} (h : url.directory = .ok context) :
    url.isPathless = false ∧ ∃ start,
      context = withExtendedPath (schemeKind url.scheme) url start ['.'] ∧
      (schemeKind url.scheme ≠ .file → url.path.head? = some '/' →
        start = throughLastSlash url.path) := by
  have hclean : cleanInput ".".toList = ['.'] := by decide
  have hscheme : splitScheme ['.'] = none := by decide
  rw [directory, join, parseAgainst.eq_def, hclean] at h
  dsimp only at h
  rw [hscheme] at h
  dsimp only at h
  split at h
  next heq => exact absurd (List.cons.inj heq).1 (by decide)
  next =>
    split at h
    · cases h
    next hpathless =>
      refine ⟨by simpa using hpathless, ?_⟩
      split at h
      next hfile =>
        refine ⟨popSegment SchemeKind.file.pathRules url.path, ?_,
          fun hkind ↦ absurd (isFile_iff.mp hfile) hkind⟩
        rw [isFile_iff.mp hfile]
        exact (Except.ok.inj h).symm
      next hfile =>
        have hkind : schemeKind url.scheme ≠ .file := fun hkind ↦ hfile (isFile_iff.mpr hkind)
        refine ⟨_, (Except.ok.inj h).symm, fun _ hslash ↦ ?_⟩
        rw [popSegment_eq (isFile_pathRules hkind)]
        refine if_neg fun hempty ↦ ?_
        have hhead := (isFolder_throughLastSlash hslash).head
        rw [List.isEmpty_iff.mp hempty] at hhead
        cases hhead

theorem IsDirectory.not_mem_space {context : Url} (h : context.IsDirectory) :
    ' ' ∉ context.serialize := by
  have hcontext := h.arises.wellFormed
  obtain ⟨url, harises, hdirectory⟩ := h
  have hurl := harises.wellFormed
  obtain ⟨hpathless, start, rfl, hstart⟩ := exists_of_directory hdirectory
  have hhierarchical : (withExtendedPath (schemeKind url.scheme) url start ['.']).isPathless
      = false := by
    cases hauthority : url.authority with
    | some authority =>
      have hsame : (withExtendedPath (schemeKind url.scheme) url start ['.']).authority
          = some authority := hauthority
      rw [isPathless, hsame]
      rfl
    | none =>
      have hkind : schemeKind url.scheme ≠ .file := fun hkind ↦
        absurd (hurl.special (by rw [hkind]; decide)) (by rw [hauthority]; decide)
      have hslash : url.path.head? = some '/' := by
        rw [isPathless, hauthority] at hpathless
        simpa using hpathless
      have hfolder := isFolder_throughLastSlash hslash
      rw [hstart hkind hslash, isPathless]
      have hleads := leadsTo_extendPath (isFile_pathRules hkind) hfolder true ['.']
      have hhead : (withExtendedPath (schemeKind url.scheme) url (throughLastSlash url.path)
          ['.']).path.head? = some '/' := hleads.slash
      rw [hhead]
      simp
  intro hmem
  rw [serialize_eq, List.mem_append, List.mem_cons, List.mem_append, List.mem_append,
    List.mem_append] at hmem
  rcases hmem with hmem | hmem | ((hmem | hmem) | hmem) | hmem
  · exact absurd (hcontext.scheme.chars _ hmem) (by decide)
  · exact absurd hmem (by decide)
  · exact hcontext.mem_front hmem (by decide)
  · exact absurd ((hcontext.hierarchical hhierarchical).encoded _ hmem) (by decide)
  · exact absurd hmem List.not_mem_nil
  · exact absurd hmem List.not_mem_nil

end Url

end ScriptLoader
