import ScriptLoader.Bundle.Writing
import ScriptLoader.Value

/-!
# What the program says

The lines that the program prints, and why it ends early. Words are made to stand out by the escape
sequences of a terminal: a sequence before the text and one after it.
-/

namespace ScriptLoader.CommandLine

/-! ## Emphasis -/

/-- The colours that are used, by their number on a terminal. -/
inductive Colour where
  | red
  | green
  | cyan
  deriving DecidableEq, Repr

def Colour.code : Colour → String
  | red => "31"
  | green => "32"
  | cyan => "36"

def coloured (colour : Colour) (text : String) : String :=
  "\x1b[" ++ colour.code ++ "m" ++ text ++ "\x1b[39m"

def bold (text : String) : String := "\x1b[1m" ++ text ++ "\x1b[0m"

/-- A text that stands back. -/
def dimmed (text : String) : String := "\x1b[2m" ++ text ++ "\x1b[0m"

/-! ## Lines -/

inductive Line where
  | plain (text : String)
  /-- An error of the loader, which is written with the time. -/
  | logged (message : String)
  deriving DecidableEq, Repr

/-- A line as it is written at a time. -/
def Line.write (time : String) : Line → String
  | plain text => text ++ "\n"
  | logged message => time ++ " ERROR quire_loader::loader: " ++ message ++ "\n"

/-- The line for a file whose body is called. -/
def calledLine (unit : UnitInfo) : Line :=
  .plain (bold (coloured .green "exec") ++ " " ++ unit.url.sourcePath)

/-- The line for a unit in a list of dependencies. -/
def listedLine (unit : UnitInfo) : Line :=
  let count := unit.dependencies.length
  .plain (unit.url.sourcePath ++
    if count = 0 then "" else " " ++ dimmed ("(" ++ toString count ++ " imports)"))

/-- The line after bundles have been written. -/
def bundledLine (files functions : Nat) (output : String) : Line :=
  .plain (bold (coloured .green "Bundled") ++ " " ++ toString files ++ " files (" ++
    toString functions ++ " functions synthesized) into " ++ coloured .cyan output)

/-- The name of the program and its version. -/
def versionLine : Line := .plain "quire 0.1.0"

/-- How the program is used. -/
def helpLines : List Line :=
  ["Dependency-ordered loader for script-module projects",
    "",
    "Usage: quire [OPTIONS] <COMMAND>",
    "",
    "Commands:",
    "  run <FILE>                    Load a file and its dependencies, then execute it",
    "  deps <FILE>                   Print the dependency closure of a file, dependencies first",
    "  bundle <FILE> [-o <OUTPUT>]   Compile a file and its dependencies into bundles",
    "",
    "Options:",
    "  -I, --include <INCLUDE>   Directory searched for <...> imports",
    "  -C, --config <CONFIG>     Configuration file",
    "      --xml                 Write compiler diagnostics as an XML property list",
    "      --no-source-maps      Do not embed source maps",
    "  -v, --verbose             Enable verbose logging",
    "  -h, --help                Print help",
    "  -V, --version             Print version"].map .plain

/-- What is said about arguments that make no sense. -/
def usageMessage : String := "error: unusable arguments; for more information, try '--help'.\n"

/-! ## Complaints -/

/-- Why the program ends early. -/
inductive Complaint where
  | loader (error : LoaderError)
  /-- The configuration file at a path cannot be used. -/
  | reading (path : String) (error : LoaderError)
  | bundling (error : BundlingError)
  deriving DecidableEq, Repr

/-- The wording of an error, and then that of what has caused it. -/
def causes (error : LoaderError) : String :=
  error.message ++
    match error with
    | .url cause => ": " ++ cause.message
    | .io cause => ": " ++ cause.message
    | _ => ""

def Complaint.message : Complaint → String
  | loader error => causes error
  | reading path error => "reading " ++ path ++ ": " ++ causes error
  | bundling (.notLocal url) => "not a local file: " ++ url
  | bundling (.unit error) => causes error
  | bundling (.creating directory cause) =>
    "creating " ++ String.ofList directory ++ ": " ++ cause.message
  | bundling (.writing file cause) => "writing " ++ String.ofList file ++ ": " ++ cause.message

/-- What is written when the program ends early. -/
def Complaint.write (complaint : Complaint) : String :=
  bold (coloured .red "Error") ++ ": " ++ complaint.message ++ "\n"

end ScriptLoader.CommandLine
