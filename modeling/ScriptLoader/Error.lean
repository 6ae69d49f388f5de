import ScriptLoader.Url.Basic

/-!
# Errors

The ways in which resolving, compiling or executing a unit can fail, and the one place that words
them.
-/

namespace ScriptLoader

/-- Why an operation on files, or on a stream of diagnostics, failed. -/
inductive IoError where
  | notFound
  | isDirectory
  | notDirectory
  | alreadyExists
  | notText
  | invalidInput (reason : String)
  | sinkClosed
  | other (reason : String)
  deriving DecidableEq, Repr

def IoError.message : IoError → String
  | notFound => "No such file or directory (os error 2)"
  | isDirectory => "Is a directory (os error 21)"
  | notDirectory => "Not a directory (os error 20)"
  | alreadyExists => "File exists (os error 17)"
  | notText => "stream did not contain valid UTF-8"
  | invalidInput reason => reason
  | sinkClosed => "sink closed"
  | other reason => reason

/-- Why an operation of a loader failed. -/
inductive LoaderError where
  /-- No resource at a locator; which file asked for it, and where it was looked for. -/
  | resolutionFailure (locator : String) (compiling : Option String) (includePaths : List String)
  /-- A new wave was asked for while one is active. -/
  | reentrancyViolation (url : String)
  /-- A unit was executed before its dependencies were loaded. -/
  | prematureExecution (locator : String)
  /-- Driving ended without the closure of a unit being loaded. -/
  | incompleteLoad (url : String)
  /-- The compiler reported an error in a unit, now or earlier. -/
  | compilation (url : String)
  /-- A source map held half a surrogate pair. -/
  | transcoding
  | malformedBundle (detail : String)
  /-- A unit has no code to write. -/
  | notCompiled (url : String)
  /-- The resolver cannot fetch this kind of URL. -/
  | unsupportedScheme (url : String)
  | url (cause : UrlError)
  | invalidPath (path : String)
  | io (cause : IoError)
  | config (detail : String)
  | diagnostics (detail : String)
  /-- The engine refused a function, or the function failed. -/
  | engine (detail : String)
  /-- An operation outlived its loader. -/
  | detached
  deriving DecidableEq, Repr

namespace LoaderError

def message : LoaderError → String
  | resolutionFailure locator compiling includePaths =>
    "Could not load file at " ++ locator ++
      (match compiling with
        | some file => " when compiling " ++ file
        | none => "") ++
      "\nwith includeURLs: " ++ String.intercalate ", " includePaths
  | reentrancyViolation file => "Can't load: " ++ file ++ ": a dependency wave is already active"
  | prematureExecution locator => "No executable loaded for file at URL " ++ locator
  | incompleteLoad file => "Dependencies of " ++ file ++ " never finished loading"
  | compilation file => "Compilation error in " ++ file
  | transcoding => "Cannot embed source map: malformed UTF-16 input"
  | malformedBundle detail => "Malformed bundle: " ++ detail
  | notCompiled file => "Unit has not been compiled yet: " ++ file
  | unsupportedScheme file => "Unsupported URL scheme for " ++ file
  | url cause => "Invalid URL: " ++ cause.message
  | invalidPath path => "Invalid path: " ++ path
  | io cause => "File system error: " ++ cause.message
  | config detail => "Configuration error: " ++ detail
  | diagnostics detail => "Diagnostics error: " ++ detail
  | engine detail => "Engine error: " ++ detail
  | detached => "Loader has been dropped"

def kind : LoaderError → String
  | resolutionFailure .. => "ResolutionFailure"
  | reentrancyViolation _ => "ReentrancyViolation"
  | prematureExecution _ => "PrematureExecution"
  | incompleteLoad _ => "IncompleteLoad"
  | compilation _ => "Compilation"
  | transcoding => "Transcoding"
  | malformedBundle _ => "MalformedBundle"
  | notCompiled _ => "NotCompiled"
  | unsupportedScheme _ => "UnsupportedScheme"
  | url _ => "Url"
  | invalidPath _ => "InvalidPath"
  | io _ => "Io"
  | config _ => "Config"
  | diagnostics _ => "Diagnostics"
  | engine _ => "Engine"
  | detached => "Detached"

/-- Whether the error ends what it happens in. Only a source map that cannot be embedded does not:
the code runs without it. -/
def isFatal : LoaderError → Bool
  | transcoding => false
  | _ => true

end LoaderError

end ScriptLoader
