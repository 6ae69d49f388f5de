import ScriptLoader.Loader.Platform
import ScriptLoader.SourceMap
import ScriptLoader.Text.Lines

/-!
# Import directives

A source file names its dependencies in lines of two forms.

```text
@import "views/Toolbar.j";         // local, relative to the file
@import <Foundation/Foundation.j>  // searched on the include paths
```

A line is a directive line when its text starts, after white space, with `@import`. It declares a
dependency when it has one of the forms; it is malformed when it has neither. The first pass over a
file collects the dependencies; the second pass writes the code, in which every directive line is
blank, so that line numbers stay as they are. Both passes read nothing but the text they are given,
and as the compiler of a loader they leave the world alone.
-/

namespace ScriptLoader.Directive

def keyword : List Char := "@import".toList

/-- The empty lines before every compiled body. -/
def preamble : List Char := ['\n', '\n']

/-- What a directive line says. -/
inductive Reading where
  | dependency (reference : Reference)
  | empty
  | malformed
  deriving DecidableEq, Repr

/-- Whether a text, after the reference, may end a directive: white space, one semicolon if any,
white space, and a comment if any. -/
def endsDirective (cs : List Char) : Bool :=
  let rest := trimStart cs
  let rest := match rest with
    | ';' :: rest => trimStart rest
    | _ => rest
  match rest with
  | [] => true
  | '/' :: '/' :: _ => true
  | _ => false

/-- A delimited locator and the text after it. -/
def readLocator (cs : List Char) : Option (Bool × List Char × List Char) :=
  match cs with
  | '"' :: rest => (splitOnce '"' rest).map fun (locator, after) ↦ (true, locator, after)
  | '<' :: rest => (splitOnce '>' rest).map fun (locator, after) ↦ (false, locator, after)
  | _ => none

/-- The text after the keyword, on a directive line. -/
def afterKeyword? (line : List Char) : Option (List Char) := dropStart? keyword (trimStart line)

/-- What stands after the keyword. -/
def readOperand (cs : List Char) : Reading :=
  match readLocator (trimStart cs) with
  | none => .malformed
  | some (isLocal, locator, after) =>
    if endsDirective after then
      let locator := trim locator
      if locator.isEmpty then .empty else .dependency ⟨String.ofList locator, isLocal⟩
    else .malformed

def readLine (line : List Char) : Option Reading := (afterKeyword? line).map readOperand

structure File where
  url : Url
  dependencies : List Reference
  /-- The lines of the code: directive lines are blank. -/
  lines : List (List Char)
  diagnostics : List Diagnostic
  /-- The import contexts that have been entered and not left, the outermost first. -/
  contexts : List String
  sourceMaps : Bool
  deriving Repr

def diagnose (url : Url) (number : Nat) (line : List Char) : Option Diagnostic :=
  match readLine line with
  | some .malformed =>
    some (.at' .error ("malformed directive: " ++ String.ofList (trim line)) url number)
  | some .empty => some (.at' .warning "empty import ignored" url number)
  | _ => none

def declared (line : List Char) : Option Reference :=
  match readLine line with
  | some (.dependency reference) => some reference
  | _ => none

/-- A line of the code. -/
def blanked (line : List Char) : List Char := if (readLine line).isSome then [] else line

def firstPass (sourceMaps : Bool) (source : List Char) (url : Url) : File :=
  let lines := ScriptLoader.lines source
  { url
    dependencies := lines.filterMap declared
    lines := lines.map blanked
    diagnostics := (lines.zipIdx 1).filterMap fun (line, number) ↦ diagnose url number line
    contexts := []
    sourceMaps }

namespace File

def enterImport (file : File) (name : String) : File :=
  { file with contexts := file.contexts ++ [name] }

/-- Leaves the innermost import context. -/
def leaveImport (file : File) : File := { file with contexts := file.contexts.dropLast }

/-- Lines with line feeds between. -/
def joinLines : List (List Char) → List Char
  | [] => []
  | [line] => line
  | line :: rest => line ++ '\n' :: joinLines rest

def code (file : File) : List Char := preamble ++ joinLines file.lines

/-- The map from the lines of the code to those of the source. -/
def sourceMap (file : File) : List Char :=
  SourceMap.toJson file.url.lastSegment file.url.serialize
    (SourceMap.mappings preamble.length file.lines.length)

/-- What the second pass adds to the diagnostics: a warning when import contexts are still open. -/
def contextWarning (file : File) : List Diagnostic :=
  if file.contexts.isEmpty then []
  else
    [{ severity := .warning
       message := "unbalanced import context: " ++ String.intercalate " > " file.contexts }]

/-- The second pass: the file with its final diagnostics, the code, and the map unless maps are
off. -/
def secondPass (file : File) : File × String × Option SourceMapText :=
  ({ file with diagnostics := file.diagnostics ++ file.contextWarning },
    String.ofList file.code,
    if file.sourceMaps then some (.utf16 (Utf16.ofChars file.sourceMap)) else none)

end File

/-- Compiles files that name their dependencies in directives. -/
def compiler (ω : Type) (sourceMaps : Bool) : Compiler ω File where
  firstPass view source url :=
    let file := firstPass sourceMaps source.toList url
    (view.world, .ok (file.dependencies, file))
  enterImport world file name := (world, file.enterImport name)
  leaveImport world file := (world, file.leaveImport)
  secondPass world file :=
    let (file, code, sourceMap) := file.secondPass
    (world, file, { code, sourceMap })
  diagnostics file := file.diagnostics
  wording _ d := d.pretty

end ScriptLoader.Directive
