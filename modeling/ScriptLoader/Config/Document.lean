import ScriptLoader.Config.Basic
import ScriptLoader.Config.Toml
import ScriptLoader.FileSystem.Basic

/-!
# Configuration documents

A configuration is a TOML document. Each of its settings has a key of its own; keys that mean
nothing are passed over, and a key that is missing leaves the setting at its default. A value of the
wrong form makes the whole document unusable.
-/

namespace ScriptLoader.Config

open Toml (Item Members)

def asString : Item → Option String
  | .string text => some text
  | _ => none

def asStrings : Item → Option (List String)
  | .array items => items.mapM asString
  | _ => none

def asBoolean : Item → Option Bool
  | .boolean b => some b
  | _ => none

/-- The key under which a date stands when a table is wanted. -/
def dateTimeKey : String := "$__toml_private_datetime"

/-- A file name and the string that stands with it. -/
def substitution (member : String × Item) : Option (String × String) :=
  (asString member.2).map fun text ↦ (member.1, text)

/-- The substitutions of a table of strings. A date counts as a table of one string. -/
def asSubstitutions : Item → Option Substitutions
  | .table _ members =>
    (members.mapM substitution).map Table.ofList
  | .dateTime text => some (.ofList [(dateTimeKey, text)])
  | _ => none

/-- Whether an item holds nothing, as what stands with the name of a format must. -/
def isEmpty : Item → Bool
  | .array items => items.isEmpty
  | .table _ members => members.isEmpty
  | .tables elements => elements.isEmpty
  | _ => false

/-- The format that a member of a table names. -/
def formatOfMember (member : String × Item) : Option ReportFormat :=
  if isEmpty member.2 then ReportFormat.ofName? member.1 else none

/-- The format that an item names: as a string, or as the first key of a table. In braces it must be
the only key. -/
def asFormat : Item → Option ReportFormat
  | .string name => ReportFormat.ofName? name
  | .table .closed [member] => formatOfMember member
  | .table .closed _ => none
  | .table _ (member :: _) => formatOfMember member
  | _ => none

/-- A setting of a document: its value, or the default when the key is missing. -/
def setting {α : Type} (members : Members) (key : String) (read : Item → Option α) (default : α) :
    Option α :=
  match members.lookup key with
  | some item => read item
  | none => some default

/-- The configuration in the members of a document. -/
def ofMembers (members : Members) : Option Config := do
  let default : Config := {}
  let includePaths ← setting members "include_paths" asStrings default.includePaths
  let substitutions ← setting members "filename_translations" asSubstitutions default.substitutions
  let format ← setting members "diagnostic_format" asFormat default.format
  let sourceMaps ← setting members "source_maps" asBoolean default.sourceMaps
  some { includePaths, substitutions, format, sourceMaps }

/-- The configuration in the text of a document. -/
def ofDocument (text : String) : Except LoaderError Config :=
  match (Toml.parse text.toList).bind ofMembers with
  | some config => .ok config
  | none => .error (.config "TOML parse error")

/-- The configuration in the file at a path. -/
def ofFile (disk : Disk) (path : Path) : Except LoaderError Config :=
  match disk.readText path with
  | .ok text => ofDocument text
  | .error cause => .error (.io cause)

end ScriptLoader.Config
