import ScriptLoader.Diagnostic.Report
import ScriptLoader.Table

/-!
# Configuration

What can be set for a loader: where search-path references are looked up, which file names stand
for others, how diagnostics are written, and whether source maps are embedded.

## Overrides

A configuration is read from a file and then overridden from the environment. Include paths of the
environment are searched before those of the file; a format of the environment replaces that of the
file. The include paths are applied first, and stay applied when the format turns out to be unknown.
-/

namespace ScriptLoader

/-- File names and what to look up in their place. -/
abbrev Substitutions := Table String String

structure Config where
  /-- The directories for search-path references, the first searched first. -/
  includePaths : List String := []
  substitutions : Substitutions := {}
  format : ReportFormat := .plain
  /-- Whether source maps are embedded into functions. -/
  sourceMaps : Bool := true

namespace Config

/-- The directories that a text names, separated by colons; empty names count for nothing. -/
def splitPaths (text : String) : List String :=
  ((fieldsAt ':' text.toList).filter (!·.isEmpty)).map String.ofList

/-- Searches the directories of a text before those of the configuration. -/
def prependPaths (config : Config) (paths : Option String) : Config :=
  { config with includePaths := (paths.map splitPaths).getD [] ++ config.includePaths }

/-- Replaces the format by the one named in a text. -/
def overrideFormat (config : Config) (name : Option String) : Except LoaderError Config :=
  match name with
  | none => .ok config
  | some name => (ReportFormat.parse name).map fun format ↦ { config with format }

/-- The configuration after the overrides, and the error of the last one if it fails. -/
def override (config : Config) (paths formatName : Option String) : Config × Option LoaderError :=
  let config := config.prependPaths paths
  match config.overrideFormat formatName with
  | .ok config => (config, none)
  | .error e => (config, some e)

end Config

end ScriptLoader
