import ScriptLoader.Directive
import ScriptLoader.Proofs.Compiling.Drafting
import ScriptLoader.Proofs.Compiling.Nesting
import ScriptLoader.Proofs.Directive.Correspondence

/-!
# Whether a map fits the function that it is embedded in

The map of a unit counts two lines before the code. In the text of a function there are the lines
that the engine puts above the body, and of the empty lines that the body starts with as many are
taken away. There need not be that many: besides the two lines of the preamble there are only the
empty lines that the code itself starts with. So the code stands where the map says if the engine
has no more lines than these are together, and else it stands too low, all of it by as much as there
are empty lines missing.

## Lines that are empty

Where a line of the code stands is a question for lines that have code. An empty line at the start
may be one of those that are taken away. Under an engine that adds two lines at most only lines of
the preamble are, and then every line has its place.
-/

namespace ScriptLoader

open Directive.File (joinLines)

variable {line rest filename digits : List Char} {ls header : List (List Char)} {k number : Nat}

/-! ## Where lines stand -/

theorem endLines_append (ls more : List (List Char)) :
    endLines (ls ++ more) = endLines ls ++ endLines more :=
  List.flatMap_append

theorem endLines_replicate (count : Nat) :
    endLines (List.replicate count []) = List.replicate count '\n' := by
  induction count with
  | zero => rfl
  | succ count ih =>
    rw [List.replicate_succ, endLines_cons, ih, List.replicate_succ, List.nil_append]

theorem count_endLines (h : ∀ line ∈ ls, '\n' ∉ line) : (endLines ls).count '\n' = ls.length := by
  induction ls with
  | nil => rfl
  | cons line ls ih =>
    rw [List.forall_mem_cons] at h
    rw [endLines_cons, List.count_append, List.count_eq_zero_of_not_mem h.1, List.count_cons_self,
      ih h.2, List.length_cons, Nat.zero_add]

/-- In a text, there is the rest from the line with a number on. Lines are counted from zero. -/
def StandsOn (text : List Char) (number : Nat) (rest : List Char) : Prop :=
  ∃ before : List (List Char), before.length = number ∧ (∀ line ∈ before, '\n' ∉ line) ∧
    text = endLines before ++ rest

theorem StandsOn.iff_eq {text : List Char} (h : StandsOn text number rest) {other : Nat} :
    StandsOn text other rest ↔ other = number := by
  constructor
  · rintro ⟨before', rfl, hbefore', htext'⟩
    obtain ⟨before, rfl, hbefore, htext⟩ := h
    rw [htext, List.append_cancel_right_eq] at htext'
    rw [← count_endLines hbefore, htext', count_endLines hbefore']
  · rintro rfl
    exact h

theorem joinLines_eq (h : k < ls.length) :
    joinLines ls = endLines (ls.take k) ++ joinLines (ls.drop k) := by
  induction k generalizing ls with
  | zero => rfl
  | succ k ih =>
    rcases ls with _ | ⟨line, _ | ⟨next, ls⟩⟩
    · exact absurd h (by simp)
    · exact absurd h (by simp)
    · rw [Directive.File.joinLines, ih (by simpa using h), List.take_succ_cons, endLines_cons,
        List.drop_succ_cons, List.append_assoc, List.cons_append]
      exact nofun

/-- How many empty lines there are at the start. -/
def leading : List (List Char) → Nat
  | [] :: ls => leading ls + 1
  | _ => 0

theorem take_leading (ls : List (List Char)) :
    ls.take (leading ls) = List.replicate (leading ls) [] := by
  fun_induction leading ls with
  | case1 ls ih => rw [List.take_succ_cons, ih, List.replicate_succ]
  | case2 => rfl

theorem leading_le (h : ls[k]? = some line) (hcode : line ≠ []) : leading ls ≤ k := by
  fun_induction leading ls generalizing k with
  | case1 ls ih =>
    cases k with
    | zero => exact absurd (Option.some.inj h).symm hcode
    | succ k => exact Nat.succ_le_succ (ih h)
  | case2 => exact Nat.zero_le k

/-- The empty lines are followed by one with code, unless there is no code at all. -/
theorem exists_getElem?_leading (h : ¬∀ line ∈ ls, line = []) :
    ∃ line, ls[leading ls]? = some line ∧ line ≠ [] := by
  fun_induction leading ls with
  | case1 ls ih => exact ih fun hall ↦ h (List.forall_mem_cons.mpr ⟨rfl, hall⟩)
  | case2 ls hhead =>
    rcases ls with _ | ⟨line, ls⟩
    · exact absurd (List.forall_mem_nil _) h
    · exact ⟨line, rfl, fun hline ↦ hhead ls (by rw [hline])⟩

theorem head?_joinLines_drop (hls : ∀ line ∈ ls, '\n' ∉ line) (hcode : line ≠ [])
    (h : ls[k]? = some line) (rest : List Char) :
    (joinLines (ls.drop k) ++ rest).head? ≠ some '\n' := by
  obtain ⟨hlt, hget⟩ := List.getElem?_eq_some_iff.mp h
  obtain ⟨c, cs, rfl⟩ := List.exists_cons_of_ne_nil hcode
  have hne : c ≠ '\n' := by
    rintro rfl
    exact hls _ (List.mem_of_getElem? h) List.mem_cons_self
  rw [List.drop_eq_getElem_cons hlt, hget]
  have hhead : (joinLines ((c :: cs) :: ls.drop (k + 1)) ++ rest).head? = some c := by
    cases ls.drop (k + 1) <;> rfl
  rw [hhead]
  exact fun heq ↦ hne (Option.some.inj heq)

namespace FunctionBody

/-- Line feeds are taken away as long as there are any. -/
theorem dropLineFeeds_replicate {count feeds : Nat}
    (h : count ≤ feeds ∨ rest.head? ≠ some '\n') :
    dropLineFeeds count (List.replicate feeds '\n' ++ rest)
      = List.replicate (feeds - count) '\n' ++ rest := by
  induction count generalizing feeds with
  | zero => rfl
  | succ count ih =>
    cases feeds with
    | zero =>
      have hrest : rest.head? ≠ some '\n' := h.resolve_left (by omega)
      rw [List.replicate_zero, List.nil_append, dropLineFeeds, Nat.zero_sub, List.replicate_zero,
        List.nil_append]
      rintro _ _ - rfl
      exact hrest rfl
    | succ feeds =>
      rw [List.replicate_succ, List.cons_append, dropLineFeeds, ih (h.imp_left (by omega)),
        Nat.add_sub_add_right]

/-! ## The text of a function -/

/-- What stands between the code and the map. -/
def origin (filename : List Char) : List Char := "/**/\n//# sourceURL=".toList ++ filename

theorem located_eq (code filename : List Char) : located code filename = code ++ origin filename :=
  List.append_assoc ..

/-- What stands before the map, in its line. -/
def mapMarker : List Char :=
  "//# sourceMappingURL=data:application/json;charset=utf-8;base64,".toList

theorem mapComment_eq : mapComment = '\n' :: mapMarker := by decide +kernel

theorem newline_notMem_mapMarker : '\n' ∉ mapMarker := by decide +kernel

/-- The comments after the code of a function with a map. -/
def comments (filename digits : List Char) : List Char :=
  origin filename ++ '\n' :: mapMarker ++ digits

/-- The text of a function: what an engine puts above its body, and the body. -/
def text (header : List (List Char)) (body : List Char) : List Char := endLines header ++ body

/-- The contents of the map in the last line of a text. -/
def embeddedMap? (text : List Char) : Option SourceMap.Contents := do
  let line ← (fieldsAt '\n' text).getLast?
  let digits ← dropStart? mapMarker line
  let bytes ← Base64.decode? digits
  SourceMap.ofBytes? bytes

/-- Where code stands if so many line feeds of those in front of it have been counted that the rest
may be taken away. -/
theorem standsOn_assemble (filename : List Char) (map : String) (feeds : Nat)
    (hheader : ∀ line ∈ header, '\n' ∉ line) (hls : ∀ line ∈ ls, '\n' ∉ line)
    (hfeeds : ls.take feeds = List.replicate feeds []) (hk : k < ls.length) (hle : feeds ≤ k)
    (hdrop : header.length ≤ 2 + feeds ∨
      (joinLines (ls.drop feeds) ++ origin filename).head? ≠ some '\n') :
    StandsOn
      (text header
        (assemble header.length (Directive.preamble ++ joinLines ls) filename (some map)))
      (header.length + (2 + feeds - header.length) + (k - feeds))
      (joinLines (ls.drop k) ++ comments filename map.toList) := by
  have hpreamble : Directive.preamble = List.replicate 2 '\n' := rfl
  have hlocated : located (Directive.preamble ++ joinLines ls) filename
      = List.replicate (2 + feeds) '\n' ++ (joinLines (ls.drop feeds) ++ origin filename) := by
    rw [located_eq, joinLines_eq (Nat.lt_of_le_of_lt hle hk), hfeeds, endLines_replicate, hpreamble,
      List.replicate_add]
    simp only [List.append_assoc]
  have hsplit : joinLines (ls.drop feeds)
      = endLines ((ls.drop feeds).take (k - feeds)) ++ joinLines (ls.drop k) := by
    rw [joinLines_eq (k := k - feeds) (by rw [List.length_drop]; omega), List.drop_drop,
      Nat.add_sub_cancel' hle]
  refine ⟨header ++ List.replicate (2 + feeds - header.length) [] ++
    (ls.drop feeds).take (k - feeds), ?_, ?_, ?_⟩
  · rw [List.length_append, List.length_append, List.length_replicate, List.length_take,
      List.length_drop]
    omega
  · intro line hline
    rcases List.mem_append.mp hline with hline | hline
    · rcases List.mem_append.mp hline with hline | hline
      · exact hheader line hline
      · rw [List.eq_of_mem_replicate hline]
        exact List.not_mem_nil
    · exact hls line (List.mem_of_mem_drop (List.mem_of_mem_take hline))
  · rw [text, assemble, hlocated, dropLineFeeds_replicate hdrop, hsplit, endLines_append,
      endLines_append, endLines_replicate, comments, mapComment_eq]
    simp only [List.append_assoc]

/-- The map that is embedded is in the last line. -/
theorem embeddedMap?_append (before : List Char) (bytes : List UInt8) :
    embeddedMap? (before ++ '\n' :: (mapMarker ++ Base64.encode bytes))
      = SourceMap.ofBytes? bytes := by
  have hdigits : '\n' ∉ mapMarker ++ Base64.encode bytes := fun hmem ↦
    (List.mem_append.mp hmem).elim newline_notMem_mapMarker (Base64.newline_notMem_encode bytes)
  rw [embeddedMap?, fieldsAt_append, fieldsAt_of_not_mem hdigits, List.getLast?_concat,
    Option.bind_eq_bind, Option.bind_some, dropStart?_eq_some_iff.mpr rfl, Option.bind_eq_bind,
    Option.bind_some, Base64.decode?_encode]
  rfl

/-! ## Alignment -/

/-- The code of a line of the source stands where the map in the text says. -/
def IsAligned (text comments : List Char) (code : List (List Char)) (k : Nat) : Prop :=
  ∃ contents, embeddedMap? text = some contents ∧ ∀ number,
    StandsOn text number (joinLines (code.drop k) ++ comments) ↔
      ∃ segment ∈ contents.segments, segment.line = number ∧ segment.origin = some ⟨0, k, 0, none⟩

theorem isAligned_iff_eq {text comments file source : List Char}
    (hmap : embeddedMap? text = some (.ofLines file source 2 ls.length)) (hk : k < ls.length)
    (h : StandsOn text number (joinLines (ls.drop k) ++ comments)) :
    IsAligned text comments ls k ↔ number = 2 + k := by
  have hsegment (other : Nat) : (∃ segment ∈
      (SourceMap.Contents.ofLines file source 2 ls.length).segments,
        segment.line = other ∧ segment.origin = some ⟨0, k, 0, none⟩) ↔ other = 2 + k := by
    constructor
    · rintro ⟨segment, hmem, rfl, horigin⟩
      obtain ⟨k', -, rfl⟩ := List.mem_map.mp hmem
      obtain rfl : k' = k := by simpa [SourceMap.Segment.ofLine] using horigin
      rfl
    · rintro rfl
      exact ⟨_, List.mem_map.mpr ⟨k, List.mem_range.mpr hk, rfl⟩, rfl, rfl⟩
  constructor
  · rintro ⟨contents, hcontents, haligned⟩
    obtain rfl := Option.some.inj (hmap.symm.trans hcontents)
    exact (hsegment number).mp ((haligned number).mp h)
  · rintro rfl
    exact ⟨_, hmap, fun other ↦ h.iff_eq.trans (hsegment other).symm⟩

end FunctionBody

namespace Directive

open FunctionBody

variable {file : File}

/-- The map of a file as it is embedded. -/
def File.embedded (file : File) : String :=
  String.ofList (Base64.encode (Utf8.encode file.sourceMap))

/-- The text of the function for a file: its code and its map in a body. -/
def File.functionText (file : File) (header : List (List Char)) (filename : List Char) :
    List Char :=
  text header (assemble header.length file.code filename (some file.embedded))

theorem embeddedMap?_functionText (file : File) (header : List (List Char)) (filename : List Char) :
    embeddedMap? (file.functionText header filename)
      = some (.ofLines file.url.lastSegment file.url.serialize 2 file.lines.length) := by
  have hlast : file.functionText header filename
      = endLines header ++ dropLineFeeds header.length (located file.code filename) ++
        '\n' :: (mapMarker ++ Base64.encode (Utf8.encode file.sourceMap)) := by
    rw [File.functionText, text, assemble, mapComment_eq, File.embedded, String.toList_ofList]
    simp only [List.append_assoc, List.cons_append]
  rw [hlast, embeddedMap?_append, File.sourceMap, SourceMap.ofBytes?_toJson]
  rfl

/-- Where the lines of a file stand in its function: those with code where the map says and below by
the line feeds that are missing, and all of them if the preamble has enough. -/
theorem isAligned_iff (hls : ∀ line ∈ file.lines, '\n' ∉ line)
    (hheader : ∀ line ∈ header, '\n' ∉ line) (hline : file.lines[k]? = some line)
    (h : line ≠ [] ∨ header.length ≤ 2) (filename : List Char) :
    IsAligned (file.functionText header filename) (comments filename file.embedded.toList)
      file.lines k ↔ header.length ≤ 2 + leading file.lines := by
  have hmap := embeddedMap?_functionText file header filename
  have hk : k < file.lines.length := (List.getElem?_eq_some_iff.mp hline).1
  rcases h with hcode | hfew
  · have hsome : ¬∀ line ∈ file.lines, line = [] :=
      fun hall ↦ hcode (hall line (List.mem_of_getElem? hline))
    obtain ⟨first, hfirst, hne⟩ := exists_getElem?_leading hsome
    have hle := leading_le hline hcode
    have hstands := standsOn_assemble filename file.embedded (leading file.lines) hheader hls
      (take_leading file.lines) hk hle (.inr (head?_joinLines_drop hls hne hfirst _))
    rw [isAligned_iff_eq hmap hk hstands]
    omega
  · have hstands := standsOn_assemble filename file.embedded 0 hheader hls rfl hk (Nat.zero_le k)
      (.inl hfew)
    rw [isAligned_iff_eq hmap hk hstands]
    omega

end Directive

namespace Loader

variable {ω χ : Type} {p : Platform ω χ}

/-- A function is asked for with the map of its code. -/
theorem synthesize_eq {l : Loader ω χ} {map : MapSource} {embedded : String}
    (hmaps : l.config.sourceMaps = true) (hmap : map.embedded? = some embedded) (url : Url)
    (code : String) :
    let source := FunctionSource.assemble l.host (p.engine.headerLines l.world) url code embedded
    l.synthesize p url code map =
      ({ l with world := (p.engine.synthesize l.world source).1 }.record (.synthesized source),
        (p.engine.synthesize l.world source).2.map fun callable ↦ (callable, some embedded)) := by
  rw [synthesize, if_pos hmaps, Option.bind_some, hmap]

theorem eq_of_body?_setBody {l : Loader ω χ} {id : UnitId} {body body' : Body ω χ}
    (h : (l.setBody id body).body? id = some body') : body' = body := by
  rw [body?_setBody, Option.map_eq_some_iff] at h
  obtain ⟨old, -, rfl⟩ := h
  exact if_pos rfl

end Loader

/-- The second pass that is run is the innermost one. -/
theorem Machine.exists_of_secondPass? {ω χ : Type} {m : Machine ω χ} {id : UnitId}
    (h : m.secondPass? = some id) :
    ∃ pass executer base, m.stack = .compiling pass executer :: base ∧ pass.unit = id := by
  rw [secondPass?] at h
  split at h
  case h_1 pass executer base _ hstack =>
    split at h
    · exact ⟨pass, executer, base, hstack, Option.some.inj h⟩
    · cases h
  case h_2 => cases h

theorem Machine.journal_callBody {ω χ : Type} (m : Machine ω χ) (id : UnitId) (directory : Url)
    (callable : Callable ω) :
    (m.callBody id directory callable).loader.journal = .called id :: m.loader.journal :=
  congrArg (_ :: ·)
    ((Loader.journal_operation _ .importer directory).trans (Loader.journal_operation _ _ _))

namespace Directive

open FunctionBody

variable {ω : Type} {p : Platform ω File}

/-- A file that waits for its second pass is what the first pass has made of a source text, whatever
contexts are open. -/
theorem exists_firstPass {sourceMaps : Bool} (hp : p.compiler = some (compiler ω sourceMaps))
    {used : Compiler ω File} {url : Url} {file : File} (h : Draft p used url file) :
    used = compiler ω sourceMaps ∧
      ∃ source contexts, file = { firstPass sourceMaps source url with contexts } := by
  induction h with
  | @read view source url dependencies file compiles reads =>
    obtain rfl := Option.some.inj (compiles.symm.trans hp)
    cases reads
    exact ⟨rfl, source.toList, _, rfl⟩
  | enter _ _ _ ih =>
    obtain ⟨rfl, source, contexts, rfl⟩ := ih
    exact ⟨rfl, source, _, rfl⟩

variable {l l' : Loader ω File} {pass : SecondPass ω File} {callable : Callable ω}

/-- A second pass that succeeds has asked the engine for the function of the file. -/
theorem exists_asked (hmaps : l.config.sourceMaps = true)
    (hcompiler : pass.compiler = compiler ω true) (hfile : pass.file.sourceMaps = true)
    (hcompiled : l.compileUnit p pass = (l', .ok callable)) :
    ∃ world asked,
      l'.journal = .synthesized asked :: .compiled pass.unit :: l.journal ∧
      (p.engine.synthesize world asked).2 = .ok callable ∧
      asked = .assemble l.host (p.engine.headerLines world) pass.url (String.ofList pass.file.code)
        (some pass.file.embedded) := by
  have hleave : pass.compiler.leaveImport l.world pass.file = (l.world, pass.file.leaveImport) := by
    rw [hcompiler]
    rfl
  have hsecond : pass.file.leaveImport.secondPass.2 = (String.ofList pass.file.code,
      some (.utf16 (Utf16.ofChars pass.file.sourceMap))) := by
    have hon : pass.file.leaveImport.sourceMaps = true := hfile
    rw [File.secondPass, hon]
    rfl
  have houtput : pass.compiler.secondPass l.world pass.file.leaveImport = (l.world,
      pass.file.leaveImport.secondPass.1, ⟨String.ofList pass.file.code,
        some (.utf16 (Utf16.ofChars pass.file.sourceMap))⟩) := by
    rw [hcompiler]
    exact congrArg (fun output : String × Option SourceMapText ↦
      (l.world, pass.file.leaveImport.secondPass.1, (⟨output.1, output.2⟩ : Compilation))) hsecond
  have hembedded : (MapSource.text (.utf16 (Utf16.ofChars pass.file.sourceMap))).embedded?
      = some pass.file.embedded := by
    rw [MapSource.embedded?, SourceMapText.encode, SourceMapText.bytes?, Utf16.toUtf8_ofChars]
    rfl
  simp only [Loader.compileUnit, hleave, houtput] at hcompiled
  generalize pass.file.leaveImport.secondPass.1 = file at hcompiled
  obtain ⟨world, hreport⟩ := (l.record (.compiled pass.unit)).exists_report p pass.compiler pass.url
    file
  rcases hreported : (l.record (.compiled pass.unit)).report p pass.compiler pass.url file
    with ⟨l₁, e | _⟩
  all_goals
    rw [hreported] at hreport
    simp only [hreported] at hcompiled
  · cases hcompiled
  · have hconfig : l₁.config.sourceMaps = true :=
      (congrArg (·.config.sourceMaps) hreport).trans hmaps
    have hhost : l₁.host = l.host := (congrArg Loader.host hreport).trans rfl
    have hjournal : l₁.journal = .compiled pass.unit :: l.journal :=
      (congrArg Loader.journal hreport).trans rfl
    rw [Option.map_some, Loader.synthesize_eq hconfig hembedded, hhost] at hcompiled
    generalize hasked : FunctionSource.assemble _ _ pass.url _ _ = asked at hcompiled
    cases hbuilt : (p.engine.synthesize l₁.world asked).2 with
    | error e =>
      rw [hbuilt] at hcompiled
      cases hcompiled
    | ok built =>
      rw [hbuilt] at hcompiled
      cases hcompiled
      exact ⟨l₁.world, asked, congrArg (_ :: ·) hjournal, hbuilt, hasked.symm⟩

variable {m : Machine ω File} {executer : Operation} {base : List (Frame ω File)}

/-- A step that ends a second pass successfully has asked the engine for the function of the file,
and calls it. -/
theorem exists_asked_of_step (hmaps : m.loader.config.sourceMaps = true)
    (hcompiler : pass.compiler = compiler ω true) (hfile : pass.file.sourceMaps = true)
    (hstack : m.stack = .compiling pass executer :: base) (hruns : m.secondPass? = some pass.unit)
    (hready : (m.step p).loader.body? pass.unit = some (.ready callable)) :
    ∃ world asked,
      (m.step p).loader.journal =
        .called pass.unit :: .synthesized asked :: .compiled pass.unit :: m.loader.journal ∧
      (p.engine.synthesize world asked).2 = .ok callable ∧
      asked = .assemble m.loader.host (p.engine.headerLines world) pass.url
        (String.ofList pass.file.code) (some pass.file.embedded) := by
  have hfares := m.step_fares p
  generalize m.step p = m' at hfares hready ⊢
  cases hfares with
  | execute idle => exact absurd (idle.symm.trans hruns) nofun
  | fail control => simp [Machine.secondPass?, control] at hruns
  | finish _ stack rest =>
    obtain ⟨hframe, rfl⟩ := List.cons.inj (hstack.symm.trans stack)
    obtain ⟨rfl, rfl⟩ := Frame.compiling.inj hframe
    rw [Machine.continueCompilation, rest] at hready ⊢
    rcases hcompiled : m.loader.compileUnit p pass with ⟨l', e | built⟩
    all_goals
      rw [hcompiled] at hready
      dsimp only at hready ⊢
    · -- a second pass that has failed leaves no function
      have hbody : (l'.setBody pass.unit .failed).body? pass.unit = some (.ready callable) := hready
      cases Loader.eq_of_body?_setBody hbody
    · have hbody : (l'.setBody pass.unit (.ready built)).body? pass.unit = _ :=
        (Loader.body?_congr (Machine.units_callBody _ _ _ _) pass.unit).symm.trans hready
      cases Loader.eq_of_body?_setBody hbody
      obtain ⟨world, asked, hjournal, hrest⟩ := exists_asked hmaps hcompiler hfile hcompiled
      refine ⟨world, asked, ?_, hrest⟩
      exact (Machine.journal_callBody _ _ _ _).trans (congrArg (_ :: ·) hjournal)

/-- **A map fits its function as far as the empty lines at the start of the code go.** When in any
run a second pass succeeds, the function that is called has the code and the map of the file in its
body. Below the lines that the engine puts above it, every line of code stands where the map says
exactly if the engine puts no more of them there than there are empty lines at the start of the
body. With two lines at most this holds of empty lines too. -/
theorem aligned_iff_of_secondPass (h : m.Reachable p) (hp : p.compiler = some (compiler ω true))
    (hmaps : m.loader.config.sourceMaps = true)
    (hstack : m.stack = .compiling pass executer :: base) (hruns : m.secondPass? = some pass.unit)
    (hready : (m.step p).loader.body? pass.unit = some (.ready callable)) :
    let file := pass.file
    (∃ source contexts, file = { firstPass true source pass.url with contexts }) ∧
    ∃ world asked,
      (m.step p).loader.journal =
        .called pass.unit :: .synthesized asked :: .compiled pass.unit :: m.loader.journal ∧
      (p.engine.synthesize world asked).2 = .ok callable ∧
      asked = .assemble m.loader.host (p.engine.headerLines world) pass.url
        (String.ofList file.code) (some file.embedded) ∧
      ∀ header : List (List Char), header.length = p.engine.headerLines world →
        (∀ line ∈ header, '\n' ∉ line) →
        let text := text header asked.body.toList
        let comments := comments asked.filename.toList file.embedded.toList
        (header.length ≤ 2 → ∀ k < file.lines.length, IsAligned text comments file.lines k) ∧
        ((∀ k line, file.lines[k]? = some line → line ≠ [] →
            IsAligned text comments file.lines k) ↔
          (∀ line ∈ file.lines, line = []) ∨ header.length ≤ 2 + leading file.lines) := by
  intro file
  have hdraft : Draft p pass.compiler pass.url pass.file :=
    h.drafted.stack (.compiling pass executer) (hstack ▸ List.mem_cons_self)
  obtain ⟨hcompiler, source, contexts, hfile⟩ := exists_firstPass hp hdraft
  have hon : pass.file.sourceMaps = true := hfile ▸ rfl
  obtain ⟨world, asked, hjournal, hbuilt, hasked⟩ :=
    exists_asked_of_step hmaps hcompiler hon hstack hruns hready
  refine ⟨⟨source, contexts, hfile⟩, world, asked, hjournal, hbuilt, hasked,
    fun header hheight hheader ↦ ?_⟩
  have hls : ∀ line ∈ file.lines, '\n' ∉ line := by
    have hlines : file.lines = (lines source).map blanked := congrArg File.lines hfile
    rw [hlines, List.forall_mem_map]
    exact fun line ↦ newline_notMem_blanked
  have htext : text header asked.body.toList
      = file.functionText header pass.url.sourcePath.toList := by
    rw [hasked, FunctionSource.assemble, ← hheight, String.toList_ofList, String.toList_ofList]
    rfl
  have hfilename : asked.filename = pass.url.sourcePath := by rw [hasked, FunctionSource.assemble]
  have haligned {k : Nat} {line : List Char} (hline : file.lines[k]? = some line)
      (h : line ≠ [] ∨ header.length ≤ 2) := isAligned_iff hls hheader hline h
        pass.url.sourcePath.toList
  intro text comments
  simp only [text, comments, htext, hfilename]
  refine ⟨fun hfew k hk ↦ ?_, fun h ↦ ?_, fun h k line hline hcode ↦ ?_⟩
  · exact (haligned (List.getElem?_eq_getElem hk) (.inr hfew)).mpr (by omega)
  · by_cases hempty : ∀ line ∈ file.lines, line = []
    · exact .inl hempty
    · obtain ⟨line, hline, hcode⟩ := exists_getElem?_leading hempty
      exact .inr ((haligned hline (.inl hcode)).mp (h _ line hline hcode))
  · rcases h with hempty | hfew
    · exact absurd (hempty line (List.mem_of_getElem? hline)) hcode
    · exact (haligned hline (.inl hcode)).mpr hfew

/-- An engine that puts three lines above a body. -/
def threeLines : Platform Unit File where
  resolver :=
    { includePaths := fun _ ↦ []
      resolve := fun world _ _ ↦ (world, 0)
      search := fun world _ ↦ (world, 0)
      next? := fun world _ ↦ (world, none)
      answer := fun world _ ↦ (world, .ok none)
      cancel := fun world _ ↦ world
      enableCaching := id
      disableCaching := id }
  engine :=
    { headerLines := fun _ ↦ 3
      synthesize := fun world _ ↦ (world, .ok fun _ ↦ .finish (.ok .undefined)) }
  compiler := some (compiler Unit true)
  write := fun world _ ↦ (world, .ok ⟨⟩)

/-- The lines of the code whose second pass is the innermost. -/
def compilingLines? (m : Machine ω File) : Option (List (List Char)) :=
  match m.stack with
  | .compiling pass _ :: _ => some pass.file.lines
  | _ => none

/-- A file of one line is about to be compiled for the engine. -/
def oneLine : Machine Unit File :=
  Machine.run threeLines 2
    { loader := { world := ⟨⟩, base := .file "/".toList, config := { sourceMaps := true } }
      control := .running (.createFromResource ⟨.file "/main.j".toList, "return ok"⟩
        fun _ ↦ .execute 0 .finish) }

/-- The line stands lower than its map says. -/
theorem not_aligned_oneLine :
    ∃ pass executer base asked,
      oneLine.stack = .compiling pass executer :: base ∧
      pass.file.lines = ["return ok".toList] ∧
      (oneLine.step threeLines).loader.journal =
        .called pass.unit :: .synthesized asked :: .compiled pass.unit :: oneLine.loader.journal ∧
      ¬IsAligned (text (List.replicate 3 "header".toList) asked.body.toList)
        (comments asked.filename.toList pass.file.embedded.toList) pass.file.lines 0 := by
  have hstart : oneLine.Reachable threeLines :=
    (Machine.Reachable.start ⟨rfl, rfl, rfl, rfl, rfl, rfl, rfl, rfl⟩ _).run threeLines 2
  have hruns : oneLine.secondPass? = some 0 := by decide +kernel
  have hstage : (oneLine.step threeLines).loader.stage? 0 = some .ready := by decide +kernel
  have hfirst : compilingLines? oneLine = some ["return ok".toList] := by decide +kernel
  obtain ⟨pass, executer, base, hstack, hunit⟩ := Machine.exists_of_secondPass? hruns
  rw [compilingLines?, hstack] at hfirst
  have hlines : pass.file.lines = ["return ok".toList] := Option.some.inj hfirst
  rw [← hunit] at hruns hstage
  obtain ⟨callable, hready⟩ := Loader.exists_ready_of_stage? hstage
  obtain ⟨-, world, asked, hjournal, -, -, haligned⟩ :=
    aligned_iff_of_secondPass hstart rfl rfl hstack hruns hready
  refine ⟨pass, executer, base, asked, hstack, hlines, hjournal, fun h ↦ ?_⟩
  have hall : ∀ k line, pass.file.lines[k]? = some line → line ≠ [] →
      IsAligned (text (List.replicate 3 "header".toList) asked.body.toList)
        (comments asked.filename.toList pass.file.embedded.toList) pass.file.lines k := by
    intro k line hline _
    have hk : k < pass.file.lines.length := (List.getElem?_eq_some_iff.mp hline).1
    rw [hlines, List.length_singleton, Nat.lt_one_iff] at hk
    rwa [hk]
  have hfew := (haligned (List.replicate 3 "header".toList) rfl (by decide +kernel)).2.mp hall
  rw [hlines] at hfew
  exact absurd hfew (by decide +kernel)

end Directive

end ScriptLoader
