import ScriptLoader.Url.Basic

/-!
# Diagnostics

A warning or an error that a compiler reports, and its usual wording: where it is, how severe it is,
what it says.
-/

namespace ScriptLoader

/-- How severe a diagnostic is. An error keeps its unit from being executed. -/
inductive Severity where
  | warning
  | error
  deriving DecidableEq, Repr

def Severity.label : Severity → String
  | warning => "WARNING"
  | error => "ERROR"

/-- A remark of a compiler. -/
structure Diagnostic where
  severity : Severity
  message : String
  /-- The line, counted from 1, if known. -/
  line : Option Nat := none
  /-- The file it is about, if known. -/
  source : Option Url := none
  deriving DecidableEq, Repr

namespace Diagnostic

/-- A diagnostic at a line of a file. -/
def at' (severity : Severity) (message : String) (source : Url) (line : Nat) : Diagnostic :=
  ⟨severity, message, some line, some source⟩

def isError (d : Diagnostic) : Bool := d.severity = .error

/-- Where a diagnostic is: path and line of the file. A line without a file is not shown. -/
def location (d : Diagnostic) : String :=
  match d.source with
  | none => ""
  | some source =>
    source.pathText ++
      (match d.line with
        | some line => ":" ++ toString line
        | none => "") ++ ": "

/-- The usual wording. -/
def pretty (d : Diagnostic) : String := d.location ++ d.severity.label ++ ": " ++ d.message

end Diagnostic

end ScriptLoader
