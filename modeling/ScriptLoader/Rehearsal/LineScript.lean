import ScriptLoader.Rehearsal.Stage
import ScriptLoader.Text.Lines

/-!
# Line scripts

The code of rehearsals. Each line of a body is a command: a word and an operand. A command asks
something of the loader, sets a global name, writes into the log, or ends the body. A line that is
no command does nothing, so comments need no rule of their own.

References are written as in directives: `"locator"` or `<locator>`.
-/

namespace ScriptLoader.Rehearsal

/-- A line of a script. -/
inductive Command where
  /-- Executes a file. -/
  | execute (reference : Reference)
  /-- Executes a file and logs the outcome. -/
  | tryExecute (reference : Reference)
  /-- Executes a file and ends with its outcome. -/
  | returnExecuted (reference : Reference)
  /-- Imports a file and listens to the outcome. -/
  | importFile (reference : Reference)
  /-- Imports a file and does not listen. -/
  | importQuietly (reference : Reference)
  /-- A reference that is neither in quotes nor in angle brackets. -/
  | badReference (operand : String)
  | set (name text : String)
  | increment (name : String)
  | returnText (text : String)
  | returnGlobal (name : String)
  /-- Ends with the arguments for the further parameters. -/
  | returnExtras
  /-- Ends with the directories of the operations. -/
  | returnContext
  | fail (text : String)
  | log (text : String)
  | probe
  | reset
  /-- Loads the dependencies of the unit of a URL, if there is one. -/
  | load (url : String)
  | nothing
  deriving DecidableEq, Repr

namespace Command

/-- A space at either end of a line. -/
def isMargin (c : Char) : Bool := c = ' ' || c = '\t' || c = '\r'

/-- A text without a given end. -/
def dropEnd? (cs ending : List Char) : Option (List Char) :=
  (dropStart? ending.reverse cs.reverse).map List.reverse

/-- The command in a line: without space at either end, and without an empty comment at the end. -/
def clean (line : List Char) : List Char :=
  let line := trimWith isMargin line
  match dropEnd? line "/**/".toList with
  | some line => trimWith isMargin line
  | none => line

/-- The lines of a body. -/
def linesOf (body : String) : List (List Char) := (fieldsAt '\n' body.toList).map clean

/-- A text cut at its first space. -/
def cut (cs : List Char) : String × String :=
  match splitOnce ' ' cs with
  | some (word, operand) => (String.ofList word, String.ofList operand)
  | none => (String.ofList cs, "")

/-- The text between two delimiters. -/
def between? (opening closing : Char) (cs : List Char) : Option String :=
  match cs with
  | c :: rest => if c = opening then (dropEnd? rest [closing]).map String.ofList else none
  | [] => none

/-- A command with a reference as its operand. -/
def withReference (command : Reference → Command) (operand : String) : Command :=
  match between? '"' '"' operand.toList, between? '<' '>' operand.toList with
  | some locator, _ => command ⟨locator, true⟩
  | none, some locator => command ⟨locator, false⟩
  | none, none => .badReference operand

/-- The command in a line. -/
def parse (line : List Char) : Command :=
  let (word, operand) := cut line
  match word with
  | "exec" => withReference .execute operand
  | "tryexec" => withReference .tryExecute operand
  | "retexec" => withReference .returnExecuted operand
  | "import" => withReference .importFile operand
  | "importq" => withReference .importQuietly operand
  | "set" =>
    let (name, text) := cut operand.toList
    .set name text
  | "inc" => .increment operand
  | "return" => .returnText operand
  | "value" => .returnGlobal operand
  | "extras" => .returnExtras
  | "context" => .returnContext
  | "fail" => .fail operand
  | "log" => .log operand
  | "probe" => .probe
  | "reset" => .reset
  | "load" => .load operand
  | _ => .nothing

/-- What is done when the outcome of an import is heard. -/
def hear (locator : String) (outcome : Outcome) : Scene Outcome := do
  Scene.note ("imported " ++ locator ++ " => " ++ describeOutcome outcome)
  let value : Value :=
    match outcome with
    | .ok value => value
    | .error e => .string ("error " ++ e.kind)
  Program.bindGlobal ("imported " ++ locator) value
  return .ok .undefined

/-- The end of a body by an error; a success does not end it. -/
def failing? {α : Type} : Except LoaderError α → Option Outcome
  | .ok _ => none
  | .error e => some (.error e)

/-- Binds a global name and logs it. -/
def bindGlobal (name : String) (value : Value) : Scene Unit := do
  Program.bindGlobal name value
  Scene.note ("set " ++ name ++ "=" ++ value.display)

/-- Loads the dependencies of the unit of a URL, if there is one. -/
def loadUrl (url : String) : Scene (Option Outcome) := do
  match Url.parse url with
  | .error cause => return some (.error (.url cause))
  | .ok url =>
    match ← Program.look (·.cachedUnit? url) with
    | some unit => return failing? (← Program.loadDependencies unit none)
    | none => return none

/-- Performs a command, and ends the body if an outcome is given. -/
def perform (arguments : Arguments) (command : Command) : Scene (Option Outcome) := do
  match command with
  | execute reference => return failing? (← Program.call arguments.executer reference)
  | tryExecute reference =>
    let outcome ← Program.call arguments.executer reference
    Scene.note ("tried " ++ reference.locator ++ " => " ++ describeOutcome outcome)
    return none
  | returnExecuted reference => return some (← Program.call arguments.executer reference)
  | importFile reference =>
    let callback := fun outcome ↦ (hear reference.locator outcome).code
    return failing? (← Program.importFile arguments.importer reference (some callback))
  | importQuietly reference =>
    return failing? (← Program.importFile arguments.importer reference none)
  | badReference operand => return some (.error (.engine ("bad reference " ++ operand)))
  | set name text =>
    bindGlobal name (.string text)
    return none
  | increment name =>
    let old ← Program.look (·.scope.get? name)
    bindGlobal name (Value.increment old)
    return none
  | returnText text => return some (.ok (.string text))
  | returnGlobal name =>
    let value ← Program.look (·.scope.get? name)
    return some (.ok (value.getD .undefined))
  | returnExtras => return some (.ok (.array arguments.extras))
  | returnContext =>
    let directories := [arguments.executer.context, arguments.importer.context]
    return some (.ok (.array (directories.map fun url ↦ .string url.text)))
  | fail text => return some (.error (.engine text))
  | log text =>
    Scene.note ("log " ++ text)
    return none
  | probe =>
    Scene.note (Scene.probeText (← Program.observe))
    return none
  | reset =>
    Program.reset
    return none
  | load url => loadUrl url
  | nothing => return none

end Command

namespace LineScript

/-- Performs commands until one ends the body. -/
def runCommands (arguments : Arguments) : List Command → Scene Outcome
  | [] => pure (.ok .undefined)
  | command :: rest => do
    match ← command.perform arguments with
    | some outcome => pure outcome
    | none => runCommands arguments rest

/-- How many calls of bodies may be nested. -/
def maxCallDepth : Nat := 40

def call (name : String) (commands : List Command) (arguments : Arguments) : Scene Outcome := do
  Scene.note ("run " ++ name)
  let depth ← Program.look (·.world.callDepth)
  if maxCallDepth ≤ depth then pure (.error (.engine "call depth exceeded"))
  else
    Program.touch fun stage ↦ { stage with callDepth := depth + 1 }
    let outcome ← runCommands arguments commands
    Program.touch fun stage ↦ { stage with callDepth := depth }
    pure outcome

/-- The body that a script stands for, under a name. -/
def callable (name body : String) : Callable Stage :=
  let commands := (Command.linesOf body).map Command.parse
  fun arguments ↦ (call name commands arguments).code

/-- The reason why a script is refused, if one of its lines gives one. -/
def rejection? (body : String) : Option String :=
  (Command.linesOf body).findSome? fun line ↦
    let (word, operand) := Command.cut line
    if word = "reject" then some operand else none

def engine : Engine Stage where
  headerLines stage := stage.headerLines
  synthesize stage source :=
    let stage := stage.note ("synth " ++ source.displayName ++ " " ++ source.filename)
    ({ stage with sources := source :: stage.sources },
      match rejection? source.body with
      | some reason => .error (.engine reason)
      | none => .ok (callable source.displayName source.body))

end LineScript

end ScriptLoader.Rehearsal
