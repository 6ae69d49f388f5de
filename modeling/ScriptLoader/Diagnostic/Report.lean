import ScriptLoader.Diagnostic.Basic
import ScriptLoader.Error

/-!
# Reports

The diagnostics of a unit are written as plain lines or as an XML property list. A property list is
an array with one dictionary for each diagnostic, which holds the line and the path of the source
when they are known, and the wording.

## Elements

An element holds either text or other elements. Text is written between its tags as it is, with the
five characters of markup escaped; other elements are indented by one tab for each level.
-/

namespace ScriptLoader

/-- How diagnostics are written. -/
inductive ReportFormat where
  | plain
  | xml
  deriving DecidableEq, Repr

namespace ReportFormat

def name : ReportFormat → String
  | plain => "plain"
  | xml => "xml"

def ofName? : String → Option ReportFormat
  | "plain" => some plain
  | "xml" => some xml
  | _ => none

/-- The format with a given name, or a configuration error. -/
def parse (name : String) : Except LoaderError ReportFormat :=
  match ofName? name with
  | some format => .ok format
  | none => .error (.config ("unknown diagnostic format '" ++ name ++ "'"))

end ReportFormat

namespace PropertyList

/-- The declarations before the list. -/
def prologue : List Char :=
  ("<?xml version=\"1.0\" encoding=\"UTF-8\"?>\n" ++
    "<!DOCTYPE plist PUBLIC \"-//Apple//DTD PLIST 1.0//EN\" " ++
    "\"http://www.apple.com/DTDs/PropertyList-1.0.dtd\">\n").toList

/-- A character of text, with markup escaped. -/
def escapeChar (c : Char) : List Char :=
  match c with
  | '<' => "&lt;".toList
  | '>' => "&gt;".toList
  | '&' => "&amp;".toList
  | '\'' => "&apos;".toList
  | '"' => "&quot;".toList
  | c => [c]

def escape (cs : List Char) : List Char := cs.flatMap escapeChar

/-- A line of its own, indented. -/
def indented (depth : Nat) (cs : List Char) : List Char :=
  List.replicate depth '\t' ++ cs ++ ['\n']

def textElement (tag : String) (text : List Char) : List Char :=
  '<' :: tag.toList ++ '>' :: escape text ++ '<' :: '/' :: tag.toList ++ ['>']

/-- An entry of a dictionary: a key, then a value of some kind. -/
structure Entry where
  key : String
  kind : String
  value : List Char

/-- The two lines of an entry. -/
def Entry.write (entry : Entry) : List Char :=
  indented 3 (textElement "key" entry.key.toList) ++ indented 3 (textElement entry.kind entry.value)

/-- What is written about one diagnostic. -/
structure Record where
  line : Option Nat
  sourcePath : Option (List Char)
  message : List Char
  deriving DecidableEq, Repr

/-- The record of a diagnostic with a given wording. -/
def Record.ofDiagnostic (wording : Diagnostic → String) (d : Diagnostic) : Record :=
  ⟨d.line, d.source.map (·.path), (wording d).toList⟩

/-- The entries of a record: line and source path only when known. -/
def Record.entries (r : Record) : List Entry :=
  (r.line.toList.map fun line ↦ ⟨"line", "integer", Nat.toDigits 10 line⟩) ++
    (r.sourcePath.toList.map fun path ↦ ⟨"sourcePath", "string", path⟩) ++
    [⟨"message", "string", r.message⟩]

def Record.write (r : Record) : List Char :=
  indented 2 "<dict>".toList ++ r.entries.flatMap Entry.write ++ indented 2 "</dict>".toList

def write (records : List Record) : List Char :=
  prologue ++ indented 0 "<plist version=\"1.0\">".toList ++ indented 1 "<array>".toList ++
    records.flatMap Record.write ++ indented 1 "</array>".toList ++ indented 0 "</plist>".toList

end PropertyList

/-- What is written about the diagnostics of a unit, piece by piece: a line for each in plain
format, one property list in XML, and nothing at all when there are none. -/
def reportPieces (format : ReportFormat) (wording : Diagnostic → String)
    (diagnostics : List Diagnostic) : List String :=
  match format with
  | .plain => diagnostics.map fun d ↦ wording d ++ "\n"
  | .xml =>
    if diagnostics.isEmpty then []
    else
      let records := diagnostics.map (PropertyList.Record.ofDiagnostic wording)
      [String.ofList (PropertyList.write records)]

/-- The whole report as one text. -/
def reportText (format : ReportFormat) (wording : Diagnostic → String)
    (diagnostics : List Diagnostic) : String :=
  String.join (reportPieces format wording diagnostics)

def hasErrors (diagnostics : List Diagnostic) : Bool := diagnostics.any Diagnostic.isError

end ScriptLoader
