import ScriptLoader.Proofs.Directive.Grammar
import ScriptLoader.Proofs.Directive.Mappings
import ScriptLoader.Proofs.Text.Json
import ScriptLoader.Proofs.Text.Utf16

/-!
# Code and map agree line for line

The second pass writes two empty lines and then a line for each line of the source, and the map that
it writes beside has a segment for each of the latter. The two are written apart from one another;
they agree because both go through the same lines and both count from the preamble. The import
contexts that are entered and left between the passes are no part of either.

## Reading a map

To read a map is to read its bytes as UTF-8, the text as JSON, and the mappings in it as segments.
-/

namespace ScriptLoader

/-! ## Maps -/

namespace Json

/-- The value of a member of an object. -/
def field? (key : List Char) : Json → Option Json
  | object members => (members.find? fun member ↦ member.1 == key).map (·.2)
  | _ => none

def text? : Json → Option (List Char)
  | text cs => some cs
  | _ => none

def texts? : Json → Option (List (List Char))
  | array items => items.mapM text?
  | _ => none

end Json

namespace SourceMap

/-- What a map consists of, apart from its names. -/
structure Contents where
  file : List Char
  sources : List (List Char)
  segments : List Segment
  deriving DecidableEq

/-- The contents of a map in version 3 of the format. -/
def ofJson? (json : Json) : Option Contents :=
  match json.field? "version".toList with
  | some (.number 3) => do
    let file ← (← json.field? "file".toList).text?
    let sources ← (← json.field? "sources".toList).texts?
    let mappings ← (← json.field? "mappings".toList).text?
    let segments ← readMappings mappings
    some ⟨file, sources, segments⟩
  | _ => none

/-- The contents of a map whose text has these bytes. -/
def ofBytes? (bytes : List UInt8) : Option Contents := do
  let text ← Utf8.decode? bytes
  let json ← Json.read? text
  ofJson? json

def Contents.ofLines (file source : List Char) (skipped count : Nat) : Contents :=
  ⟨file, [source], (List.range count).map fun (k : Nat) ↦ .ofLine (skipped + k) k⟩

theorem ofBytes?_toJson (file source : List Char) (skipped count : Nat) :
    ofBytes? (Utf8.encode (toJson file source (mappings skipped count)))
      = some (.ofLines file source skipped count) := by
  rw [ofBytes?, Utf8.decode?_encode, Option.bind_eq_bind, Option.bind_some, Json.read?_toJson,
    Option.bind_eq_bind, Option.bind_some]
  change (readMappings (mappings skipped count)).bind _ = _
  rw [readMappings_mappings]
  rfl

end SourceMap

/-- The contents of a map that a compiler hands over. -/
def SourceMapText.read? (map : SourceMapText) : Option SourceMap.Contents :=
  map.bytes?.bind SourceMap.ofBytes?

namespace Directive

variable {line source : List Char} {file : File}

/-! ## Between the passes -/

/-- What happens to a file between the passes. -/
inductive ContextChange where
  | enter (name : String)
  | leave

def File.change (file : File) : ContextChange → File
  | .enter name => file.enterImport name
  | .leave => file.leaveImport

/-- Only the contexts are other than before. -/
theorem File.exists_contexts (file : File) (changes : List ContextChange) :
    ∃ contexts, changes.foldl File.change file = { file with contexts } := by
  induction changes generalizing file with
  | nil => exact ⟨file.contexts, rfl⟩
  | cons change changes ih =>
    obtain ⟨contexts, hcontexts⟩ := ih (file.change change)
    refine ⟨contexts, ?_⟩
    rw [List.foldl_cons, hcontexts]
    cases change <;> rfl

/-- The second pass writes the same, whichever contexts are open. -/
theorem secondPass_changes (file : File) (changes : List ContextChange) :
    (changes.foldl File.change file).secondPass.2 = file.secondPass.2 := by
  obtain ⟨contexts, hfile⟩ := file.exists_contexts changes
  rw [hfile]
  rfl

/-! ## The code -/

instance : Decidable (IsDirective line) := inferInstanceAs (Decidable (keyword <+: trimStart line))

theorem blanked_eq (line : List Char) : blanked line = if IsDirective line then [] else line := by
  simp only [blanked, isDirective_iff]

theorem newline_notMem_blanked (h : line ∈ lines source) : '\n' ∉ blanked line := by
  rw [blanked_eq]
  split_ifs
  · exact List.not_mem_nil
  · exact newline_notMem_of_mem_lines h

/-- The lines of the code are those of the preamble and those of the file. -/
theorem fieldsAt_code (h : ∀ line ∈ file.lines, '\n' ∉ line) : fieldsAt '\n' file.code
    = [] :: [] :: if file.lines = [] then [[]] else file.lines := by
  have hpreamble : fieldsAt '\n' file.code
      = [] :: [] :: fieldsAt '\n' (File.joinLines file.lines) := rfl
  rw [hpreamble]
  split_ifs with hnil
  · rw [hnil]
    rfl
  · rw [fieldsAt_joinLines hnil h]

/-! ## The second pass -/

theorem read?_secondPass (file : File) : file.secondPass.2.2.map SourceMapText.read? =
    if file.sourceMaps then
      some (some (.ofLines file.url.lastSegment file.url.serialize 2 file.lines.length))
    else none := by
  rw [File.secondPass]
  dsimp only
  split_ifs
  · rw [Option.map_some, SourceMapText.read?, SourceMapText.bytes?, Utf16.toUtf8_ofChars,
      Option.bind_some, File.sourceMap, SourceMap.ofBytes?_toJson]
    rfl
  · rfl

/-- **The code and its map agree line for line.** The code is two empty lines and then the lines of
the source, those of directives empty; the map has one segment for each of the latter and no others.
Whichever contexts have been entered and left, code and map are the same. -/
theorem secondPass_exact (sourceMaps : Bool) (source : List Char) (url : Url)
    (changes : List ContextChange) :
    let ls := lines source
    let (code, map) := (changes.foldl File.change (firstPass sourceMaps source url)).secondPass.2
    fieldsAt '\n' code.toList = [] :: [] ::
      (if ls = [] then [[]] else ls.map fun line ↦ if IsDirective line then [] else line) ∧
    map.map SourceMapText.read? = (if sourceMaps then
      some (some ⟨url.lastSegment, [url.serialize], (List.range ls.length).map fun (k : Nat) ↦
        ⟨2 + k, 0, some ⟨0, k, 0, none⟩⟩⟩) else none) ∧
    (code, map) = (firstPass sourceMaps source url).secondPass.2 := by
  intro ls
  rw [secondPass_changes]
  have hfree : ∀ line ∈ (firstPass sourceMaps source url).lines, '\n' ∉ line :=
    List.forall_mem_map.mpr fun line ↦ newline_notMem_blanked
  have hcode := fieldsAt_code hfree
  have hlines : (firstPass sourceMaps source url).lines
      = ls.map fun line ↦ if IsDirective line then [] else line :=
    List.map_congr_left fun line _ ↦ blanked_eq line
  have hmap := read?_secondPass (firstPass sourceMaps source url)
  rw [hlines, List.length_map] at hmap
  refine ⟨?_, hmap, rfl⟩
  simp only [hlines, List.map_eq_nil_iff] at hcode
  rw [← hcode, File.secondPass, String.toList_ofList]

end Directive

end ScriptLoader
