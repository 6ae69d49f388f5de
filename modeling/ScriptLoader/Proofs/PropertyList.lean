import ScriptLoader.Diagnostic.Report
import ScriptLoader.Proofs.Text.Markup

/-!
# Property lists are read back

A report is markup of a tree: an element that holds elements has them on lines of their own, and
every other element holds its text alone. Once the white space between elements is dropped, the
dictionaries are read as the records that were written, whatever the texts in them look like. Which
elements there are depends on what is known about each diagnostic and on no text.
-/

namespace ScriptLoader.PropertyList

open Markup

/-! ## The tree of a report

White space between elements is part of the tree, so nothing that is written is left out of it. -/

/-- Content on a line of its own. -/
def line (depth : Nat) (items : List Item) : List Item :=
  text (List.replicate depth '\t') ++ (items ++ text ['\n'])

/-- Content that starts on the next line, with an end tag on a line of its own to follow. -/
def inset (depth : Nat) (items : List Item) : List Item :=
  text ['\n'] ++ (items ++ text (List.replicate depth '\t'))

/-- An element with its tags on lines of their own. -/
def block (depth : Nat) (name attributes : List Char) (items : List Item) : List Item :=
  line depth [.element name attributes (inset depth items)]

def leaf (name : String) (value : List Char) : Item := .element name.toList [] (text value)

def Entry.items (entry : Entry) : List Item :=
  line 3 [leaf "key" entry.key.toList] ++ line 3 [leaf entry.kind entry.value]

def Record.items (r : Record) : List Item :=
  block 2 "dict".toList [] (r.entries.flatMap Entry.items)

def version : List Char := " version=\"1.0\"".toList

def document (records : List Record) : List Item :=
  block 0 "plist".toList version (block 1 "array".toList [] (records.flatMap Record.items))

/-! ## What is written is markup of it -/

variable {cs name attributes : List Char} {items : List Item} {depth : Nat}

theorem spells_entity (name : List Char) {c : Char} (h : entity? name = some c) :
    Spells ('&' :: (name ++ [';'])) (text [c]) := .entity h .nil

theorem spells_escapeChar (c : Char) : Spells (escapeChar c) (text [c]) := by
  rw [escapeChar.eq_def]
  split
  · exact spells_entity ['l', 't'] rfl
  · exact spells_entity ['g', 't'] rfl
  · exact spells_entity ['a', 'm', 'p'] rfl
  · exact spells_entity ['a', 'p', 'o', 's'] rfl
  · exact spells_entity ['q', 'u', 'o', 't'] rfl
  next htag _ hentity _ _ => exact .char htag hentity .nil

/-- **Escaped text is markup of the text.** -/
theorem spells_escape (cs : List Char) : Spells (escape cs) (text cs) := by
  have htext : text cs = cs.flatMap fun c ↦ text [c] := List.map_eq_flatMap
  rw [htext]
  exact spells_flatMap fun c _ ↦ spells_escapeChar c

theorem spells_tabs (depth : Nat) :
    Spells (List.replicate depth '\t') (text (List.replicate depth '\t')) :=
  spells_text fun c hc ↦ by
    rw [List.eq_of_mem_replicate hc]
    decide

theorem spells_indented (depth : Nat) (h : Spells cs items) :
    Spells (indented depth cs) (line depth items) := by
  rw [indented, List.append_assoc]
  exact (spells_tabs depth).append (h.append (spells_text (by simp)))

theorem spells_element (htag : IsTag name attributes) (h : Spells cs items) :
    Spells ('<' :: (name ++ attributes ++ '>' :: (cs ++ '<' :: '/' :: (name ++ ['>']))))
      [.element name attributes items] :=
  .element htag h .nil

theorem spells_textElement (tag : String) (htag : IsTag tag.toList []) (value : List Char) :
    Spells (textElement tag value) [leaf tag value] := by
  simpa [textElement, leaf] using spells_element htag (spells_escape value)

theorem spells_block (depth : Nat) (htag : IsTag name attributes) (h : Spells cs items) :
    Spells (indented depth ('<' :: (name ++ attributes ++ ['>'])) ++
        (cs ++ indented depth ('<' :: '/' :: (name ++ ['>']))))
      (block depth name attributes items) := by
  have hinside : Spells ('\n' :: (cs ++ List.replicate depth '\t')) (inset depth items) :=
    .char (by decide) (by decide) (h.append (spells_tabs depth))
  simpa [indented, block] using spells_indented depth (spells_element htag hinside)

theorem isTag_of_mem_entries {r : Record} {entry : Entry} (h : entry ∈ r.entries) :
    IsTag entry.kind.toList [] := by
  rw [Record.entries, List.mem_append, List.mem_append, List.mem_map, List.mem_map,
    List.mem_singleton] at h
  have hkind : entry.kind = "integer" ∨ entry.kind = "string" := by
    rcases h with (⟨line, -, rfl⟩ | ⟨path, -, rfl⟩) | rfl
    · exact .inl rfl
    · exact .inr rfl
    · exact .inr rfl
  rcases hkind with hkind | hkind
  all_goals
    rw [hkind]
    decide

theorem spells_entry {entry : Entry} (h : IsTag entry.kind.toList []) :
    Spells entry.write entry.items :=
  (spells_indented 3 (spells_textElement "key" (by decide) _)).append
    (spells_indented 3 (spells_textElement entry.kind h _))

theorem spells_record (r : Record) : Spells r.write r.items := by
  have hentries : Spells (r.entries.flatMap Entry.write) (r.entries.flatMap Entry.items) :=
    spells_flatMap fun entry hentry ↦ spells_entry (isTag_of_mem_entries hentry)
  have htag : IsTag "dict".toList [] := by decide
  rw [Record.write, List.append_assoc]
  exact spells_block 2 htag hentries

/-- **A report is markup of its tree**, after the prologue. -/
theorem exists_write_eq (records : List Record) :
    ∃ body, write records = prologue ++ body ∧ Spells body (document records) := by
  have hrecords : Spells (records.flatMap Record.write) (records.flatMap Record.items) :=
    spells_flatMap fun r _ ↦ spells_record r
  have harray : IsTag "array".toList [] := by decide
  have hplist : IsTag "plist".toList version := by decide
  refine ⟨_, ?_, spells_block 0 hplist (spells_block 1 harray hrecords)⟩
  simp only [write, List.append_assoc]
  rfl

/-! ## Reading -/

inductive Value where
  | integer (n : Nat)
  | string (cs : List Char)

/-- The value of an element: the text of a string, or the number whose decimal digits it holds. -/
def Value.ofItem? : Item → Option Value
  | .char _ => none
  | .element kind attributes content => do
    let cs ← characters? content
    let n := Nat.ofDigitChars 10 cs 0
    if attributes ≠ [] then none
    else if kind = "string".toList then some (.string cs)
    else if kind = "integer".toList ∧ cs = Nat.toDigits 10 n then some (.integer n)
    else none

/-- The text of a key. -/
def key? : Item → Option String
  | .char _ => none
  | .element name attributes content =>
    if name = "key".toList ∧ attributes = [] then (characters? content).map String.ofList else none

/-- The entries of a dictionary: keys and values in turn. -/
def entries? : List Item → Option (List (String × Value))
  | [] => some []
  | [_] => none
  | first :: second :: items => do
    let key ← key? first
    let value ← Value.ofItem? second
    let entries ← entries? items
    some ((key, value) :: entries)

/-- The elements in an element that is called for. -/
def children? (name attributes : List Char) : Item → Option (List Item)
  | .char _ => none
  | .element name' attributes' content =>
    if name' = name ∧ attributes' = attributes then elements? content else none

/-- The record that a dictionary holds. It has no entries but these. -/
def Record.ofEntries? : List (String × Value) → Option Record
  | [("line", .integer line), ("sourcePath", .string path), ("message", .string message)] =>
    some ⟨some line, some path, message⟩
  | [("line", .integer line), ("message", .string message)] => some ⟨some line, none, message⟩
  | [("sourcePath", .string path), ("message", .string message)] => some ⟨none, some path, message⟩
  | [("message", .string message)] => some ⟨none, none, message⟩
  | _ => none

def Record.ofItem? (item : Item) : Option Record := do
  let children ← children? "dict".toList [] item
  let entries ← entries? children
  Record.ofEntries? entries

/-- The element that a list of elements consists of. -/
def only? : List Item → Option Item
  | [item] => some item
  | _ => none

/-- The records of a property list: it is one array, of nothing but their dictionaries. -/
def records? (items : List Item) : Option (List Record) := do
  let plist ← (elements? items).bind only?
  let array ← (children? "plist".toList version plist).bind only?
  let dictionaries ← children? "array".toList [] array
  dictionaries.mapM Record.ofItem?

/-! ## The tree of a report is read -/

theorem elements?_tabs (depth : Nat) :
    elements? (text (List.replicate depth '\t')) = some [] :=
  elements?_text fun c hc ↦ by
    rw [List.eq_of_mem_replicate hc]
    decide

theorem elements?_newline : elements? (text ['\n']) = some [] := elements?_text (by simp)

theorem elements?_line {elements : List Item} (h : elements? items = some elements) :
    elements? (line depth items) = some elements := by
  simpa [line] using elements?_append (elements?_tabs depth) (elements?_append h elements?_newline)

theorem elements?_block : elements? (block depth name attributes items)
    = some [.element name attributes (inset depth items)] := elements?_line rfl

theorem children?_inset {elements : List Item} (h : elements? items = some elements) :
    children? name attributes (.element name attributes (inset depth items)) = some elements := by
  rw [children?, if_pos ⟨rfl, rfl⟩]
  simpa [inset] using elements?_append elements?_newline (elements?_append h (elements?_tabs depth))

def Entry.elements (entry : Entry) : List Item :=
  [leaf "key" entry.key.toList, leaf entry.kind entry.value]

theorem elements?_entry (entry : Entry) : elements? entry.items = some entry.elements := by
  have hleaf (name : String) (cs : List Char) :
      elements? (line 3 [leaf name cs]) = some [leaf name cs] := elements?_line rfl
  exact elements?_append (hleaf _ _) (hleaf _ _)

theorem entries?_entry {entry : Entry} {value : Value} {entries : List (String × Value)}
    (hvalue : Value.ofItem? (leaf entry.kind entry.value) = some value)
    (h : entries? items = some entries) :
    entries? (entry.elements ++ items) = some ((entry.key, value) :: entries) := by
  have hkey : key? (leaf "key" entry.key.toList) = some entry.key := by
    rw [leaf, key?, if_pos ⟨rfl, rfl⟩, characters?_text, Option.map_some, String.ofList_toList]
  change entries? (_ :: _ :: items) = _
  rw [entries?, hkey, hvalue, h]
  rfl

theorem Value.ofItem?_string (cs : List Char) :
    Value.ofItem? (leaf "string" cs) = some (.string cs) := by
  rw [leaf, Value.ofItem?, characters?_text]
  rfl

theorem Value.ofItem?_integer (n : Nat) :
    Value.ofItem? (leaf "integer" (Nat.toDigits 10 n)) = some (.integer n) := by
  have hkind : "integer".toList ≠ "string".toList := by decide
  rw [leaf, Value.ofItem?, characters?_text]
  simp only [Option.bind_eq_bind, Option.bind_some, Nat.ofDigitChars_ten_toDigits]
  rw [if_neg (not_not_intro rfl), if_neg hkind, if_pos ⟨trivial, trivial⟩]

/-- Entries of one kind are read, whatever comes after them. -/
theorem entries?_map {α : Type} {f : α → Entry} {value : α → Value}
    (hvalue : ∀ x, Value.ofItem? (leaf (f x).kind (f x).value) = some (value x)) (xs : List α)
    {entries : List (String × Value)} (h : entries? items = some entries) :
    entries? ((xs.map f).flatMap Entry.elements ++ items)
      = some (xs.map (fun x ↦ ((f x).key, value x)) ++ entries) := by
  induction xs with
  | nil => exact h
  | cons x xs ih =>
    rw [List.map_cons, List.flatMap_cons, List.append_assoc]
    exact entries?_entry (hvalue x) ih

/-- What the dictionary of a record says. -/
def Record.values (r : Record) : List (String × Value) :=
  r.line.toList.map (fun line ↦ ("line", .integer line)) ++
    (r.sourcePath.toList.map (fun path ↦ ("sourcePath", .string path)) ++
      [("message", .string r.message)])

theorem entries?_entries (r : Record) :
    entries? (r.entries.flatMap Entry.elements) = some r.values := by
  have hmessage : entries? (Entry.elements ⟨"message", "string", r.message⟩ ++ [])
      = some [("message", .string r.message)] := entries?_entry (Value.ofItem?_string r.message) rfl
  rw [Record.entries, List.flatMap_append, List.flatMap_append, List.append_assoc]
  exact entries?_map Value.ofItem?_integer r.line.toList
    (entries?_map Value.ofItem?_string r.sourcePath.toList hmessage)

theorem ofEntries?_values (r : Record) : Record.ofEntries? r.values = some r := by
  obtain ⟨_ | line, _ | path, message⟩ := r <;> rfl

def Record.item (r : Record) : Item :=
  .element "dict".toList [] (inset 2 (r.entries.flatMap Entry.items))

theorem ofItem?_item (r : Record) : Record.ofItem? r.item = some r := by
  have hchildren : children? "dict".toList [] r.item = some (r.entries.flatMap Entry.elements) :=
    children?_inset (elements?_flatMap fun entry _ ↦ elements?_entry entry)
  rw [Record.ofItem?, hchildren]
  simp only [Option.bind_eq_bind, Option.bind_some, entries?_entries, ofEntries?_values]

theorem records?_eq {plist array : Item} {dictionaries : List Item}
    (hitems : elements? items = some [plist])
    (hplist : children? "plist".toList version plist = some [array])
    (harray : children? "array".toList [] array = some dictionaries) :
    records? items = dictionaries.mapM Record.ofItem? := by
  simp only [records?, hitems, hplist, harray, only?, Option.bind_eq_bind, Option.bind_some]

/-- **The records of a report are read back** from its tree. -/
theorem records?_document (records : List Record) : records? (document records) = some records := by
  have hdictionaries : elements? (records.flatMap Record.items)
      = some (records.map Record.item) := by
    rw [List.map_eq_flatMap]
    exact elements?_flatMap fun r _ ↦ elements?_block
  have hread : Record.ofItem? ∘ Record.item = pure ∘ id := funext ofItem?_item
  calc records? (document records)
      = (records.map Record.item).mapM Record.ofItem? :=
        records?_eq elements?_block (children?_inset elements?_block)
          (children?_inset hdictionaries)
    _ = records.mapM (pure ∘ id) := by rw [List.mapM_map, hread]
    _ = some records := by rw [Function.comp_def, List.mapM_pure, List.map_id]; rfl

/-! ## The elements of a report -/

/-- An element without text. -/
def bare (name : String) (content : List Item) : Item := .element name.toList [] content

/-- The elements of a dictionary, by whether the line and the source are known. -/
def dictionaryOutline (line source : Bool) : Item :=
  bare "dict" ((if line then [bare "key" [], bare "integer" []] else []) ++
    ((if source then [bare "key" [], bare "string" []] else []) ++
      [bare "key" [], bare "string" []]))

/-- The elements of a report, by what is known about each diagnostic. -/
def reportOutline (known : List (Bool × Bool)) : List Item :=
  [.element "plist".toList version
    [bare "array" (known.map fun (line, source) ↦ dictionaryOutline line source)]]

theorem outline_line (depth : Nat) (items : List Item) :
    outline (line depth items) = outline items := by
  rw [line, outline_append, outline_append, outline_text, outline_text, List.append_nil,
    List.nil_append]

theorem outline_block (depth : Nat) (name attributes : List Char) (items : List Item) :
    outline (block depth name attributes items) = [.element name attributes (outline items)] := by
  have hinset : outline (inset depth items) = outline items := by
    rw [inset, outline_append, outline_append, outline_text, outline_text, List.append_nil,
      List.nil_append]
  rw [block, outline_line, outline, Item.outline, hinset]
  rfl

theorem outline_entry (entry : Entry) :
    outline entry.items = [bare "key" [], bare entry.kind []] := by
  have hleaf (name : String) (cs : List Char) : outline [leaf name cs] = [bare name []] := by
    rw [leaf, outline, Item.outline, outline_text]
    rfl
  rw [Entry.items, outline_append, outline_line, outline_line, hleaf, hleaf]
  rfl

theorem outline_flatMap {α : Type} {f g : α → List Item} (h : ∀ x, outline (f x) = g x)
    (xs : List α) : outline (xs.flatMap f) = xs.flatMap g := by
  simp only [outline_eq_flatMap] at h ⊢
  rw [List.flatMap_assoc]
  exact congrArg (List.flatMap · xs) (funext h)

theorem outline_record (r : Record) :
    outline r.items = [dictionaryOutline r.line.isSome r.sourcePath.isSome] := by
  rw [Record.items, outline_block, outline_flatMap outline_entry]
  obtain ⟨_ | line, _ | path, message⟩ := r <;> rfl

theorem outline_document (records : List Record) : outline (document records)
    = reportOutline (records.map fun r ↦ (r.line.isSome, r.sourcePath.isSome)) := by
  rw [document, outline_block, outline_block, outline_flatMap outline_record, reportOutline,
    List.map_map, ← List.map_eq_flatMap]
  rfl

/-! ## Reports -/

theorem hasErrors_eq_true_iff {diagnostics : List Diagnostic} :
    hasErrors diagnostics = true ↔ ∃ d ∈ diagnostics, d.severity = .error := by
  simp only [hasErrors, Diagnostic.isError, List.any_eq_true, decide_eq_true_eq]

/-- **A report is read back.** After the prologue it is markup of one property list. This holds a
dictionary for each diagnostic, in their order: the line and the path of the source if they are
known, and the wording. The elements do not depend on any text. The report says whether there is an
error. -/
theorem read_report (wording : Diagnostic → String) {diagnostics : List Diagnostic}
    (hne : diagnostics ≠ []) :
    (∃ body items, (reportText .xml wording diagnostics).toList = prologue ++ body ∧
      Markup.read? body = some items ∧
      records? items = some (diagnostics.map fun d ↦
        { line := d.line, sourcePath := d.source.map (·.path), message := (wording d).toList }) ∧
      outline items
        = reportOutline (diagnostics.map fun d ↦ (d.line.isSome, d.source.isSome))) ∧
    (hasErrors diagnostics = true ↔ ∃ d ∈ diagnostics, d.severity = .error) := by
  refine ⟨?_, hasErrors_eq_true_iff⟩
  obtain ⟨body, hbody, hspells⟩ := exists_write_eq (diagnostics.map (Record.ofDiagnostic wording))
  refine ⟨body, _, ?_, read?_eq_some_iff.mpr hspells, records?_document _, ?_⟩
  · have hempty : diagnostics.isEmpty = false := List.isEmpty_eq_false_iff.mpr hne
    rw [reportText, reportPieces, hempty, ← hbody]
    simp
  · rw [outline_document, List.map_map]
    simp [Record.ofDiagnostic, Function.comp_def]

/-- Diagnostics whose texts look like markup, or as if they had been escaped already. -/
def lookalikes : List Diagnostic :=
  [.at' .error "</string><key>&lt;" (.file "/a&amp;b.j".toList) 70,
    { severity := .warning, message := "]]>'\"" }]

theorem read_report_lookalikes :
    lookalikes ≠ [] ∧
    (∃ body items, (reportText .xml Diagnostic.pretty lookalikes).toList = prologue ++ body ∧
      Markup.read? body = some items ∧
      records? items = some
        [⟨some 70, some "/a&amp;b.j".toList, "/a&amp;b.j:70: ERROR: </string><key>&lt;".toList⟩,
          ⟨none, none, "WARNING: ]]>'\"".toList⟩] ∧
      outline items = reportOutline [(true, true), (false, false)]) ∧
    hasErrors lookalikes = true := by
  have hne : lookalikes ≠ [] := List.cons_ne_nil _ _
  obtain ⟨⟨body, items, hbody, hread, hrecords, houtline⟩, herrors⟩ :=
    read_report Diagnostic.pretty hne
  refine ⟨hne, ⟨body, items, hbody, hread, hrecords.trans (congrArg some ?_), houtline⟩,
    herrors.mpr ⟨_, List.mem_cons_self, rfl⟩⟩
  decide +kernel

end ScriptLoader.PropertyList
