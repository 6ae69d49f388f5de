/-!
# Invocations

What the command line asks for. There are three commands, each for one file. Options may stand
before the command and after it; what an option says after the command counts more.

## Rules

Arguments are read from the left, and the first fault or request for help ends the reading. A short
option may be joined to others and to its value, a long one may carry its value after an equals
sign. A value or a file is not empty, and only after `--` may it start with a dash, unless it is a
lone dash. An option that takes one value, or none, may stand once on each side of the command.
-/

namespace ScriptLoader.CommandLine

/-- What is done. -/
inductive Command where
  /-- Loads a file with its dependencies and executes it. -/
  | run (file : String)
  /-- Lists the dependencies of a file. -/
  | deps (file : String)
  /-- Compiles a file and its dependencies into bundles below a directory. -/
  | bundle (file output : String)
  deriving DecidableEq, Repr

structure Options where
  includes : List String := []
  config : Option String := none
  xml : Bool := false
  noSourceMaps : Bool := false
  verbose : Bool := false
  deriving DecidableEq, Repr

/-- What the arguments ask for. -/
inductive Invocation where
  | help
  | version
  /-- The arguments make no sense. -/
  | usageError
  | perform (options : Options) (command : Command)
  deriving DecidableEq, Repr

/-- Where arguments are read: before the command, or after its name. -/
inductive Level where
  | top
  | run
  | deps
  | bundle
  deriving DecidableEq, Repr

/-- The commands by name. -/
def Level.ofName? : String → Option Level
  | "run" => some .run
  | "deps" => some .deps
  | "bundle" => some .bundle
  | _ => none

/-- An option with a value. -/
inductive Valued where
  | includePath
  | config
  | output
  deriving DecidableEq, Repr

/-- An option without a value. -/
inductive Flag where
  | xml
  | noSourceMaps
  | verbose
  | help
  | version
  deriving DecidableEq, Repr

/-- What has been read at one level. -/
structure Reading where
  options : Options := {}
  output : Option String := none
  file : Option String := none

/-- The option with a value that a long name means. -/
def Level.valued? (level : Level) : String → Option Valued
  | "include" => some .includePath
  | "config" => some .config
  | "output" => if level = .bundle then some .output else none
  | _ => none

/-- The flag that a long name means. -/
def Level.flag? (level : Level) : String → Option Flag
  | "xml" => some .xml
  | "no-source-maps" => some .noSourceMaps
  | "verbose" => some .verbose
  | "help" => some .help
  | "version" => if level = .top then some .version else none
  | _ => none

/-- The long name for a letter. -/
def longName : Char → String
  | 'I' => "include"
  | 'C' => "config"
  | 'o' => "output"
  | 'v' => "verbose"
  | 'h' => "help"
  | 'V' => "version"
  | _ => ""

def Reading.give (r : Reading) (option : Valued) (value : String) : Except Invocation Reading :=
  if value.isEmpty then .error .usageError
  else
    match option with
    | .includePath =>
      .ok { r with options := { r.options with includes := r.options.includes ++ [value] } }
    | .config =>
      if r.options.config.isSome then .error .usageError
      else .ok { r with options := { r.options with config := some value } }
    | .output =>
      if r.output.isSome then .error .usageError else .ok { r with output := some value }

def Reading.raise (r : Reading) (flag : Flag) : Except Invocation Reading :=
  match flag with
  | .help => .error .help
  | .version => .error .version
  | .xml =>
    if r.options.xml then .error .usageError
    else .ok { r with options := { r.options with xml := true } }
  | .noSourceMaps =>
    if r.options.noSourceMaps then .error .usageError
    else .ok { r with options := { r.options with noSourceMaps := true } }
  | .verbose =>
    if r.options.verbose then .error .usageError
    else .ok { r with options := { r.options with verbose := true } }

/-- Reads letters after a dash. What is left over is an option that waits for its value. -/
def Reading.letters (level : Level) (r : Reading) :
    List Char → Except Invocation (Reading × Option Valued)
  | [] => .ok (r, none)
  | letter :: rest =>
    match level.valued? (longName letter) with
    | some option =>
      match rest with
      | [] => .ok (r, some option)
      | '=' :: value => (r.give option (String.ofList value)).map fun r ↦ (r, none)
      | value => (r.give option (String.ofList value)).map fun r ↦ (r, none)
    | none =>
      match level.flag? (longName letter) with
      | some flag => do letters level (← r.raise flag) rest
      | none => .error .usageError

/-- Reads a long option, without its dashes. -/
def Reading.long (level : Level) (r : Reading) (cs : List Char) :
    Except Invocation (Reading × Option Valued) :=
  let name := String.ofList (cs.takeWhile (· ≠ '='))
  let rest := cs.dropWhile (· ≠ '=')
  match level.valued? name, level.flag? name, rest with
  | some option, _, [] => .ok (r, some option)
  | some option, _, _ :: value => (r.give option (String.ofList value)).map fun r ↦ (r, none)
  | none, some flag, [] => (r.raise flag).map fun r ↦ (r, none)
  | none, _, _ => .error .usageError

def Reading.takeFile (r : Reading) (file : String) : Except Invocation Reading :=
  if file.isEmpty || r.file.isSome then .error .usageError else .ok { r with file := some file }

inductive Form where
  /-- Two dashes alone. -/
  | separator
  | long (name : List Char)
  | letters (letters : List Char)
  | plain
  deriving DecidableEq, Repr

def formOf (argument : String) : Form :=
  match argument.toList with
  | ['-', '-'] => .separator
  | '-' :: '-' :: name => .long name
  | '-' :: letter :: rest => .letters (letter :: rest)
  | _ => .plain

/-- Reads the arguments after a command; `waiting` is an option that waits for its value. -/
def readCommand (level : Level) (waiting : Option Valued) (r : Reading) :
    List String → Except Invocation Reading
  | [] => if waiting.isSome then .error .usageError else .ok r
  | argument :: rest =>
    match waiting, formOf argument with
    | some option, .plain => do readCommand level none (← r.give option argument) rest
    | some _, _ => .error .usageError
    | none, .plain => do readCommand level none (← r.takeFile argument) rest
    | none, .separator => rest.foldlM (fun r file ↦ r.takeFile file) r
    | none, .long name => do
      let (r, waiting) ← r.long level name
      readCommand level waiting r rest
    | none, .letters letters => do
      let (r, waiting) ← r.letters level letters
      readCommand level waiting r rest

/-- Options from before a command, where those from after it say nothing else. -/
def Options.under (before after : Options) : Options where
  includes := if after.includes.isEmpty then before.includes else after.includes
  config := after.config.or before.config
  xml := before.xml || after.xml
  noSourceMaps := before.noSourceMaps || after.noSourceMaps
  verbose := before.verbose || after.verbose

/-- Where bundles go when nothing else is said. -/
def defaultOutput : String := "dist"

/-- What is asked for by a command and the arguments around it. -/
def Level.invocation (level : Level) (before : Options) (r : Reading) : Invocation :=
  let perform := Invocation.perform (before.under r.options)
  match level, r.file with
  | .run, some file => perform (.run file)
  | .deps, some file => perform (.deps file)
  | .bundle, some file => perform (.bundle file (r.output.getD defaultOutput))
  | _, _ => .usageError

/-- Whether help can be asked for with these words. -/
def isHelpTopic : List String → Bool
  | [] => true
  | [word] => word = "help" || (Level.ofName? word).isSome
  | _ => false

/-- Reads the arguments before the command, and then the command. -/
def readTop (waiting : Option Valued) (r : Reading) : List String → Except Invocation Invocation
  | [] => .error .usageError
  | argument :: rest =>
    match waiting, formOf argument with
    | some option, .plain => do readTop none (← r.give option argument) rest
    | some _, _ => .error .usageError
    | none, .plain =>
      if argument = "help" then .ok (if isHelpTopic rest then .help else .usageError)
      else
        match Level.ofName? argument with
        | none => .error .usageError
        | some level => do
          return level.invocation r.options (← readCommand level none {} rest)
    | none, .separator => .error .usageError
    | none, .long name => do
      let (r, waiting) ← r.long .top name
      readTop waiting r rest
    | none, .letters letters => do
      let (r, waiting) ← r.letters .top letters
      readTop waiting r rest

def Invocation.ofArguments (arguments : List String) : Invocation :=
  match readTop none {} arguments with
  | .ok invocation => invocation
  | .error invocation => invocation

end ScriptLoader.CommandLine
