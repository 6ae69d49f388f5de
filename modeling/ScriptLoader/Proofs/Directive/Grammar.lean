import ScriptLoader.Proofs.Bundle.Grammar
import ScriptLoader.Proofs.Text.Lines

/-!
# The grammar of directives

A line with the keyword at its start is a directive. It has a form or has none, and the form says
which text it delimits; blanks around the text do not count. The grammar says what a directive line
looks like, the reader looks for the keyword, an opening delimiter, the first closing one and an
end. They agree because a delimiter cannot be skipped as a blank and the first closing delimiter
ends the text in either.

Every line is read by itself, so the first pass over a source reads its lines in their order.
-/

namespace ScriptLoader.Directive

open File (joinLines)

variable {cs rest line text after : List Char} {isLocal : Bool} {reading : Reading}
  {dependencies : List Reference} {diagnostics : List Diagnostic} {url : Url} {number : Nat}
  {r : Reference}

/-! ## The forms of a directive -/

def IsBlank (cs : List Char) : Prop := ∀ c ∈ cs, isBlank c = true

def IsDirective (line : List Char) : Prop := keyword <+: trimStart line

def opening (isLocal : Bool) : Char := if isLocal then '"' else '<'

def closing (isLocal : Bool) : Char := if isLocal then '"' else '>'

/-- The text is a comment or nothing. -/
def IsComment (cs : List Char) : Prop := cs = [] ∨ ∃ text, cs = '/' :: '/' :: text

/-- What may stand after a locator: blanks, a semicolon or none, blanks, and a comment or none. -/
def IsTrail (cs : List Char) : Prop :=
  ∃ before semicolon between comment, cs = before ++ semicolon ++ between ++ comment ∧
    IsBlank before ∧ (semicolon = [] ∨ semicolon = [';']) ∧ IsBlank between ∧ IsComment comment

/-- The line is a directive that delimits the text. -/
def HasForm (line : List Char) (isLocal : Bool) (text : List Char) : Prop :=
  ∃ indent gap trail,
    line = indent ++ keyword ++ gap ++ opening isLocal :: text ++ closing isLocal :: trail ∧
    IsBlank indent ∧ IsBlank gap ∧ closing isLocal ∉ text ∧ IsTrail trail

/-- What a directive line says. -/
inductive Reads (line : List Char) : Reading → Prop where
  | dependency {isLocal : Bool} {text : List Char} (form : HasForm line isLocal text)
      (nonempty : trim text ≠ []) : Reads line (.dependency ⟨String.ofList (trim text), isLocal⟩)
  | empty {isLocal : Bool} {text : List Char} (form : HasForm line isLocal text)
      (empty : trim text = []) : Reads line .empty
  | malformed (directive : IsDirective line)
      (formless : ∀ isLocal text, ¬HasForm line isLocal text) : Reads line .malformed

/-- What lines contribute, of which the first has a number. -/
inductive Contribute (url : Url) :
    Nat → List (List Char) → List Reference → List Diagnostic → Prop where
  | nil {number : Nat} : Contribute url number [] [] []
  | code {number : Nat} {line : List Char} {lines : List (List Char)}
      {dependencies : List Reference} {diagnostics : List Diagnostic} (code : ¬IsDirective line)
      (rest : Contribute url (number + 1) lines dependencies diagnostics) :
      Contribute url number (line :: lines) dependencies diagnostics
  | dependency {number : Nat} {line : List Char} {lines : List (List Char)}
      {dependencies : List Reference} {diagnostics : List Diagnostic} {reference : Reference}
      (reads : Reads line (.dependency reference))
      (rest : Contribute url (number + 1) lines dependencies diagnostics) :
      Contribute url number (line :: lines) (reference :: dependencies) diagnostics
  | empty {number : Nat} {line : List Char} {lines : List (List Char)}
      {dependencies : List Reference} {diagnostics : List Diagnostic} (reads : Reads line .empty)
      (rest : Contribute url (number + 1) lines dependencies diagnostics) :
      Contribute url number (line :: lines) dependencies
        (⟨.warning, "empty import ignored", some number, some url⟩ :: diagnostics)
  | malformed {number : Nat} {line : List Char} {lines : List (List Char)}
      {dependencies : List Reference} {diagnostics : List Diagnostic}
      (reads : Reads line .malformed)
      (rest : Contribute url (number + 1) lines dependencies diagnostics) :
      Contribute url number (line :: lines) dependencies
        (⟨.error, "malformed directive: " ++ String.ofList (trim line), some number, some url⟩ ::
          diagnostics)

/-! ## Blanks -/

theorem trimStart_append (hblank : IsBlank cs) (hrest : ∀ c ∈ rest.head?, isBlank c = false) :
    trimStart (cs ++ rest) = rest := by
  rw [trimStart, trimStartWith, List.dropWhile_append_of_pos hblank]
  cases rest with
  | nil => rfl
  | cons c rest => exact List.dropWhile_cons_of_neg (by simp [hrest c rfl])

theorem exists_trimStart (cs : List Char) :
    ∃ blanks, IsBlank blanks ∧ cs = blanks ++ trimStart cs ∧
      ∀ c ∈ (trimStart cs).head?, isBlank c = false := by
  refine ⟨cs.takeWhile isBlank, fun c hc ↦ (List.mem_takeWhile_imp hc),
    List.takeWhile_append_dropWhile.symm, fun c hc ↦ ?_⟩
  have hhead := List.head?_dropWhile_not isBlank cs
  rw [trimStart, trimStartWith] at hc
  rw [Option.mem_def.mp hc] at hhead
  simpa using hhead

/-! ## Reading a line -/

theorem isDirective_iff : IsDirective line ↔ (readLine line).isSome := by
  rw [readLine, Option.isSome_map, afterKeyword?, Option.isSome_iff_exists, IsDirective]
  simp only [dropStart?_eq_some_iff, List.IsPrefix, eq_comm (a := trimStart line)]

theorem afterKeyword?_eq_some_iff : afterKeyword? line = some rest ↔
    ∃ indent, IsBlank indent ∧ line = indent ++ keyword ++ rest := by
  rw [afterKeyword?, dropStart?_eq_some_iff]
  constructor
  · intro h
    obtain ⟨indent, hindent, hline, -⟩ := exists_trimStart line
    refine ⟨indent, hindent, ?_⟩
    rw [List.append_assoc, ← h]
    exact hline
  · rintro ⟨indent, hindent, rfl⟩
    have hhead : ∀ c ∈ (keyword ++ rest).head?, isBlank c = false := by
      intro c hc
      obtain rfl : '@' = c := Option.some.inj hc
      rfl
    rw [List.append_assoc, trimStart_append hindent hhead]

theorem readLocator_eq_some_iff : readLocator cs = some (isLocal, text, after) ↔
    cs = opening isLocal :: (text ++ closing isLocal :: after) ∧ closing isLocal ∉ text := by
  have hsplit (d : Char) (flag : Bool) (more : List Char) :
      (splitOnce d more).map (fun found ↦ (flag, found)) = some (isLocal, text, after) ↔
        flag = isLocal ∧ more = text ++ d :: after ∧ d ∉ text := by
    rw [Option.map_eq_some_iff, ← splitOnce_eq_some_iff]
    constructor
    · rintro ⟨found, hmore, heq⟩
      obtain ⟨rfl, rfl⟩ := Prod.mk.inj heq
      exact ⟨rfl, hmore⟩
    · rintro ⟨rfl, hmore⟩
      exact ⟨_, hmore, rfl⟩
  rw [readLocator.eq_def]
  split
  next more =>
    refine (hsplit '"' true more).trans ?_
    cases isLocal <;> simp [opening, closing]
  next more =>
    refine (hsplit '>' false more).trans ?_
    cases isLocal <;> simp [opening, closing]
  next hquote hangle =>
    refine ⟨nofun, ?_⟩
    rintro ⟨rfl, -⟩
    cases isLocal with
    | true => exact absurd rfl (hquote _)
    | false => exact absurd rfl (hangle _)

/-- The text without a semicolon and blanks in front. -/
def dropSemicolon (cs : List Char) : List Char :=
  match cs with
  | ';' :: rest => trimStart rest
  | _ => cs

theorem dropSemicolon_of_forall_ne (h : ∀ rest, cs ≠ ';' :: rest) : dropSemicolon cs = cs := by
  rw [dropSemicolon.eq_def]
  split
  next rest => exact absurd rfl (h rest)
  next => rfl

/-- Whether a text is a comment or empty. -/
def startsComment (cs : List Char) : Bool :=
  match cs with
  | [] => true
  | '/' :: '/' :: _ => true
  | _ => false

theorem startsComment_iff : startsComment cs = true ↔ IsComment cs := by
  rw [startsComment.eq_def]
  split <;> simp_all [IsComment]

/-- After blanks and a semicolon there is a comment or nothing. -/
theorem endsDirective_eq : endsDirective cs = true ↔ IsComment (dropSemicolon (trimStart cs)) := by
  rw [← startsComment_iff]
  rfl

/-- A comment starts with no blank and no semicolon. -/
theorem IsComment.head (h : IsComment cs) : ∀ c ∈ cs.head?, isBlank c = false ∧ c ≠ ';' := by
  intro c hc
  rcases h with rfl | ⟨text, rfl⟩
  · cases hc
  · obtain rfl : '/' = c := Option.some.inj hc
    decide

theorem endsDirective_iff : endsDirective cs = true ↔ IsTrail cs := by
  constructor
  · intro h
    obtain ⟨before, hbefore, hcs, -⟩ := exists_trimStart cs
    by_cases hsemicolon : ∃ rest, trimStart cs = ';' :: rest
    · obtain ⟨rest, hrest⟩ := hsemicolon
      obtain ⟨between, hbetween, hmore, -⟩ := exists_trimStart rest
      rw [endsDirective_eq, hrest] at h
      refine ⟨before, [';'], between, trimStart rest, ?_, hbefore, .inr rfl, hbetween, h⟩
      rw [List.append_assoc, List.append_assoc, ← hmore, List.singleton_append, ← hrest, ← hcs]
    · rw [endsDirective_eq, dropSemicolon_of_forall_ne (not_exists.mp hsemicolon)] at h
      exact ⟨before, [], [], trimStart cs, by simpa using hcs, hbefore, .inl rfl, nofun, h⟩
  · rintro ⟨before, semicolon, between, comment, rfl, hbefore, hsemicolon, hbetween, hcomment⟩
    have hhead := hcomment.head
    have hstop : ∀ c ∈ comment.head?, isBlank c = false := fun c hc ↦ (hhead c hc).1
    rcases hsemicolon with rfl | rfl
    · have hblank : IsBlank (before ++ between) := List.forall_mem_append.mpr ⟨hbefore, hbetween⟩
      rw [endsDirective_eq, List.append_nil, trimStart_append hblank hstop,
        dropSemicolon_of_forall_ne]
      · exact hcomment
      · rintro rest rfl
        exact (hhead ';' rfl).2 rfl
    · have htrim : trimStart (before ++ [';'] ++ between ++ comment)
          = ';' :: (between ++ comment) := by
        rw [List.append_assoc, List.append_assoc]
        apply trimStart_append hbefore
        intro c hc
        obtain rfl : ';' = c := Option.some.inj hc
        rfl
      rw [endsDirective_eq, htrim, dropSemicolon, trimStart_append hbetween hstop]
      exact hcomment

theorem hasForm_iff : HasForm line isLocal text ↔
    ∃ rest after, afterKeyword? line = some rest ∧
      readLocator (trimStart rest) = some (isLocal, text, after) ∧ endsDirective after = true := by
  simp only [afterKeyword?_eq_some_iff, readLocator_eq_some_iff, endsDirective_iff]
  constructor
  · rintro ⟨indent, gap, trail, rfl, hindent, hgap, htext, htrail⟩
    refine ⟨gap ++ opening isLocal :: (text ++ closing isLocal :: trail), trail,
      ⟨indent, hindent, by simp⟩, ⟨trimStart_append hgap ?_, htext⟩, htrail⟩
    intro c hc
    obtain rfl : opening isLocal = c := Option.some.inj hc
    cases isLocal <;> rfl
  · rintro ⟨rest, trail, ⟨indent, hindent, rfl⟩, ⟨hrest, htext⟩, htrail⟩
    obtain ⟨gap, hgap, hblank, -⟩ := exists_trimStart rest
    rw [hrest] at hblank
    exact ⟨indent, gap, trail, by rw [hblank]; simp, hindent, hgap, htext, htrail⟩

/-- **A directive line says one thing**: what the reader finds is what the grammar allows. -/
theorem readLine_eq_some_iff : readLine line = some reading ↔ Reads line reading := by
  constructor
  · intro h
    obtain ⟨rest, hrest, rfl⟩ := Option.map_eq_some_iff.mp h
    rw [readOperand]
    split
    next hnone =>
      refine .malformed (isDirective_iff.mpr (by rw [h]; rfl)) fun isLocal text hform ↦ ?_
      obtain ⟨rest', after, hrest', hlocator, -⟩ := hasForm_iff.mp hform
      obtain rfl : rest = rest' := Option.some.inj (hrest.symm.trans hrest')
      rw [hnone] at hlocator
      cases hlocator
    next isLocal text after hlocator =>
      dsimp only
      split_ifs with hends hempty
      · exact .empty (hasForm_iff.mpr ⟨rest, after, hrest, hlocator, hends⟩)
          (List.isEmpty_iff.mp hempty)
      · exact .dependency (hasForm_iff.mpr ⟨rest, after, hrest, hlocator, hends⟩)
          fun heq ↦ hempty (List.isEmpty_iff.mpr heq)
      · refine .malformed (isDirective_iff.mpr (by rw [h]; rfl)) fun isLocal' text' hform ↦ ?_
        obtain ⟨rest', after', hrest', hlocator', hends'⟩ := hasForm_iff.mp hform
        obtain rfl : rest = rest' := Option.some.inj (hrest.symm.trans hrest')
        rw [hlocator] at hlocator'
        obtain ⟨-, -, rfl⟩ : isLocal = isLocal' ∧ text = text' ∧ after = after' := by
          simpa using hlocator'
        exact hends hends'
  · rintro (⟨hform, hne⟩ | ⟨hform, hempty⟩ | ⟨hdirective, hformless⟩)
    · obtain ⟨rest, after, hrest, hlocator, hends⟩ := hasForm_iff.mp hform
      rw [readLine, hrest, Option.map_some, readOperand, hlocator]
      simp [hends, hne]
    · obtain ⟨rest, after, hrest, hlocator, hends⟩ := hasForm_iff.mp hform
      rw [readLine, hrest, Option.map_some, readOperand, hlocator]
      simp [hends, hempty]
    · obtain ⟨reading, hreading⟩ := Option.isSome_iff_exists.mp (isDirective_iff.mp hdirective)
      obtain ⟨rest, hrest, rfl⟩ := Option.map_eq_some_iff.mp hreading
      rw [hreading, readOperand]
      split
      next => rfl
      next isLocal text after hlocator =>
        rw [if_neg]
        intro hends
        exact hformless isLocal text (hasForm_iff.mpr ⟨rest, after, hrest, hlocator, hends⟩)

/-- A line is a directive if there is one thing that it says. -/
theorem isDirective_iff_existsUnique : IsDirective line ↔ ∃! reading, Reads line reading := by
  simp only [isDirective_iff, Option.isSome_iff_exists, ← readLine_eq_some_iff]
  constructor
  · rintro ⟨reading, h⟩
    exact ⟨reading, h, fun _ h' ↦ (Option.some.inj (h.symm.trans h')).symm⟩
  · rintro ⟨reading, h, -⟩
    exact ⟨reading, h⟩

/-! ## Reading a source -/

/-- The diagnostics of lines of which the first has a number. -/
def diagnoseFrom (url : Url) (number : Nat) (ls : List (List Char)) : List Diagnostic :=
  (ls.zipIdx number).filterMap fun (line, number) ↦ diagnose url number line

theorem diagnoseFrom_cons {ls : List (List Char)} : diagnoseFrom url number (line :: ls)
    = (diagnose url number line).toList ++ diagnoseFrom url (number + 1) ls := by
  rw [diagnoseFrom, List.zipIdx_cons, List.filterMap_cons]
  cases hline : diagnose url number line <;> (dsimp only; rw [hline]; rfl)

theorem filterMap_declared_cons {ls : List (List Char)} :
    (line :: ls).filterMap declared = (declared line).toList ++ ls.filterMap declared := by
  rw [List.filterMap_cons]
  cases declared line <;> rfl

theorem contribute_lines (url : Url) (number : Nat) (ls : List (List Char)) :
    Contribute url number ls (ls.filterMap declared) (diagnoseFrom url number ls) := by
  induction ls generalizing number with
  | nil => exact .nil
  | cons line ls ih =>
    rw [diagnoseFrom_cons, filterMap_declared_cons, declared, diagnose.eq_def]
    cases hread : readLine line with
    | none => exact .code (by rw [isDirective_iff, hread]; simp) (ih _)
    | some reading =>
      have hreads := readLine_eq_some_iff.mp hread
      cases reading with
      | dependency reference => exact .dependency hreads (ih _)
      | empty => exact .empty hreads (ih _)
      | malformed => exact .malformed hreads (ih _)

theorem Contribute.eq_lines {ls : List (List Char)}
    (h : Contribute url number ls dependencies diagnostics) :
    dependencies = ls.filterMap declared ∧ diagnostics = diagnoseFrom url number ls := by
  induction h with
  | nil => exact ⟨rfl, rfl⟩
  | code hcode _ ih =>
    rw [isDirective_iff, Bool.not_eq_true, Option.isSome_eq_false_iff, Option.isNone_iff_eq_none]
      at hcode
    rw [diagnoseFrom_cons, filterMap_declared_cons, declared, diagnose.eq_def, hcode]
    exact ih
  | dependency hreads _ ih | empty hreads _ ih | malformed hreads _ ih =>
    rw [diagnoseFrom_cons, filterMap_declared_cons, declared, diagnose.eq_def,
      readLine_eq_some_iff.mpr hreads, ← ih.1, ← ih.2]
    exact ⟨rfl, rfl⟩

theorem contribute_iff (sourceMaps : Bool) (source : List Char) (url : Url) :
    Contribute url 1 (lines source) dependencies diagnostics ↔
      dependencies = (firstPass sourceMaps source url).dependencies ∧
      diagnostics = (firstPass sourceMaps source url).diagnostics := by
  refine ⟨Contribute.eq_lines, ?_⟩
  rintro ⟨rfl, rfl⟩
  exact contribute_lines url 1 (lines source)

/-- The lines that diagnostics are about are lines of the source. -/
theorem line_of_mem_diagnostics {sourceMaps : Bool} {source : List Char} {d : Diagnostic}
    (h : d ∈ (firstPass sourceMaps source url).diagnostics) :
    ∃ number, d.line = some number ∧ 1 ≤ number ∧ number ≤ (lines source).length := by
  obtain ⟨⟨line, number⟩, hmem, hd⟩ := List.mem_filterMap.mp h
  have hline : d.line = some number := by
    change diagnose url number line = some d at hd
    rw [diagnose.eq_def] at hd
    split at hd
    next => exact (Option.some.inj hd) ▸ rfl
    next => exact (Option.some.inj hd) ▸ rfl
    next => cases hd
  obtain ⟨hleast, hbound, -⟩ := List.mem_zipIdx hmem
  exact ⟨number, hline, hleast, by omega⟩

/-! ## Writing -/

/-- The directive line that declares a dependency. -/
def directive (r : Reference) : List Char := keyword ++ ' ' :: r.display.toList

/-- A reference that can be written in one line. -/
structure IsWritable (r : Reference) : Prop where
  nonempty : r.locator ≠ ""
  trimmed : trim r.locator.toList = r.locator.toList
  oneLine : '\n' ∉ r.locator.toList
  undelimited : closing r.isLocal ∉ r.locator.toList

theorem directive_eq (r : Reference) : directive r =
    keyword ++ ' ' :: opening r.isLocal :: (r.locator.toList ++ [closing r.isLocal]) := by
  rw [directive, Reference.display, opening, closing]
  split <;> simp

theorem IsWritable.hasForm (h : IsWritable r) :
    HasForm (directive r) r.isLocal r.locator.toList := by
  refine ⟨[], [' '], [], by simp [directive_eq], nofun, ?_, h.undelimited,
    ⟨[], [], [], [], rfl, nofun, .inl rfl, nofun, .inl rfl⟩⟩
  intro c hc
  obtain rfl := List.mem_singleton.mp hc
  rfl

theorem IsWritable.reads (h : IsWritable r) : Reads (directive r) (.dependency r) := by
  have hreads := Reads.dependency h.hasForm
  rw [h.trimmed, String.ofList_toList] at hreads
  exact hreads (by simpa using h.nonempty)

theorem IsWritable.isLine (h : IsWritable r) : directive r ≠ [] ∧ '\n' ∉ directive r ∧
    (directive r).getLast? ≠ some '\r' := by
  have hopening : '\n' ≠ opening r.isLocal := by cases r.isLocal <;> decide
  have hclosing : '\n' ≠ closing r.isLocal := by cases r.isLocal <;> decide
  have hreturn : closing r.isLocal ≠ '\r' := by cases r.isLocal <;> decide
  have heq : directive r =
      (keyword ++ ' ' :: opening r.isLocal :: r.locator.toList) ++ [closing r.isLocal] := by
    rw [directive_eq, List.append_assoc]
    rfl
  rw [heq]
  refine ⟨List.concat_ne_nil _ _, ?_, ?_⟩
  · simp only [List.mem_append, List.mem_cons, List.not_mem_nil, or_false, not_or]
    exact ⟨⟨by decide, by decide, hopening, h.oneLine⟩, hclosing⟩
  · rw [List.getLast?_concat]
    exact fun hsome ↦ hreturn (Option.some.inj hsome)

theorem lines_directives {references : List Reference} (h : ∀ r ∈ references, IsWritable r) :
    lines (joinLines (references.map directive)) = references.map directive ∧
      lines (endLines (references.map directive)) = references.map directive := by
  apply lines_joinLines
  intro line hline
  obtain ⟨r, hr, rfl⟩ := List.mem_map.mp hline
  exact (h r hr).isLine

theorem contribute_directives {references : List Reference} (h : ∀ r ∈ references, IsWritable r) :
    Contribute url number (references.map directive) references [] := by
  induction references generalizing number with
  | nil => exact .nil
  | cons r references ih =>
    rw [List.forall_mem_cons] at h
    exact .dependency h.1.reads (ih h.2)

/-- **Directives follow their grammar.** A directive line says one thing, and the first pass over a
source collects what its lines contribute, in their order and with their numbers; a number is never
greater than the number of lines. References that are written as directives, whether the last line
is ended or not, are read as they were. -/
theorem firstPass_exact (sourceMaps : Bool) (url : Url) :
    (∀ line, IsDirective line ↔ ∃! reading, Reads line reading) ∧
    (∀ source dependencies diagnostics, Contribute url 1 (lines source) dependencies diagnostics ↔
      dependencies = (firstPass sourceMaps source url).dependencies ∧
      diagnostics = (firstPass sourceMaps source url).diagnostics) ∧
    (∀ source, ∀ d ∈ (firstPass sourceMaps source url).diagnostics,
      ∃ number, d.line = some number ∧ 1 ≤ number ∧ number ≤ (lines source).length) ∧
    ∀ references source, (∀ r ∈ references, IsWritable r) →
      source = joinLines (references.map directive) ∨
        source = endLines (references.map directive) →
      (firstPass sourceMaps source url).dependencies = references ∧
        (firstPass sourceMaps source url).diagnostics = [] := by
  refine ⟨fun _ ↦ isDirective_iff_existsUnique, fun _ _ _ ↦ contribute_iff sourceMaps _ url,
    fun _ _ ↦ line_of_mem_diagnostics, ?_⟩
  intro references source hwritable hsource
  have hlines : lines source = references.map directive := by
    rcases hsource with rfl | rfl
    · exact (lines_directives hwritable).1
    · exact (lines_directives hwritable).2
  have hcontribute : Contribute url 1 (references.map directive) references [] :=
    contribute_directives hwritable
  rw [← hlines, contribute_iff sourceMaps] at hcontribute
  exact ⟨hcontribute.1.symm, hcontribute.2.symm⟩

/-- One reference of each kind is read back. -/
theorem firstPass_exact_both :
    let references := [⟨"Foundation/Foundation.j", false⟩, ⟨"views/Tool bar.j", true⟩]
    let file := firstPass true (joinLines (references.map directive)) (.file "/main.j".toList)
    (∀ r ∈ references, IsWritable r) ∧ file.dependencies = references ∧ file.diagnostics = [] := by
  intro references file
  have hwritable : ∀ r ∈ references, IsWritable r := by
    intro r hr
    rcases List.mem_pair.mp hr with rfl | rfl
    · exact ⟨by decide, by decide +kernel, by decide +kernel, by decide +kernel⟩
    · exact ⟨by decide, by decide +kernel, by decide +kernel, by decide +kernel⟩
  exact ⟨hwritable, (firstPass_exact true _).2.2.2 references _ hwritable (.inl rfl)⟩

end ScriptLoader.Directive
