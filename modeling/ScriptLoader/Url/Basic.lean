import ScriptLoader.Text.Lines
import ScriptLoader.Text.Percent

/-!
# URLs

A parsed URL and its serialization. The parts hold text that is already percent-encoded, so two
URLs are the same exactly when their serializations are.

## Paths

A path is kept as serialized. One that starts with a slash is hierarchical; it is the list of the
segments between its slashes. Without an authority and without a leading slash the whole path is one
piece, as in `mailto:x@y`, and nothing can be resolved against the URL.
-/

namespace ScriptLoader

/-- Why a text is not a URL. -/
inductive UrlError where
  | relativeWithoutBase
  | relativeWithPathlessBase
  | emptyHost
  | invalidPort
  | invalidDomainName
  | invalidDomainCharacter
  | invalidIpv4
  | invalidIpv6
  deriving DecidableEq, Repr

def UrlError.message : UrlError → String
  | relativeWithoutBase => "relative URL without a base"
  | relativeWithPathlessBase => "relative URL with a cannot-be-a-base base"
  | emptyHost => "empty host"
  | invalidPort => "invalid port number"
  | invalidDomainName => "invalid international domain name"
  | invalidDomainCharacter => "invalid domain character"
  | invalidIpv4 => "invalid IPv4 address"
  | invalidIpv6 => "invalid IPv6 address"

/-- What stands between the two slashes and the path. -/
structure Authority where
  /-- User name and password, joined by a colon when there is a password; empty when absent. -/
  userinfo : List Char
  /-- The serialized host; empty for a local file. -/
  host : List Char
  /-- The port, unless it is the scheme's own. -/
  port : Option Nat
  deriving DecidableEq, Repr

structure Url where
  scheme : List Char
  authority : Option Authority
  path : List Char
  query : Option (List Char)
  fragment : Option (List Char)
  deriving DecidableEq, Repr

def Authority.serialize (a : Authority) : List Char :=
  (if a.userinfo.isEmpty then [] else a.userinfo ++ ['@']) ++ a.host ++
    match a.port with
    | none => []
    | some port => ':' :: Nat.toDigits 10 port

namespace Url

/-- A local file by its path. -/
def file (path : List Char) : Url :=
  ⟨"file".toList, some ⟨[], [], none⟩, path, none, none⟩

/-- The text of a URL. A path of a URL without an authority must not look like one, so `/.` stands
before a path that starts with two slashes. -/
def serialize (url : Url) : List Char :=
  url.scheme ++ ':' ::
    ((match url.authority with
      | some authority => '/' :: '/' :: authority.serialize
      | none => if url.path.take 2 = ['/', '/'] then ['/', '.'] else []) ++
    url.path ++
    (match url.query with
      | some query => '?' :: query
      | none => []) ++
    match url.fragment with
      | some fragment => '#' :: fragment
      | none => [])

def text (url : Url) : String := String.ofList url.serialize

def pathText (url : Url) : String := String.ofList url.path

def isFile (url : Url) : Bool := url.scheme = "file".toList

/-- Whether the path is one piece, against which nothing can be resolved. -/
def isPathless (url : Url) : Bool := url.authority.isNone && url.path.head? ≠ some '/'

/-- The segments of a hierarchical path. -/
def segments? (url : Url) : Option (List (List Char)) :=
  match url.path with
  | '/' :: rest => some (fieldsAt '/' rest)
  | _ => none

/-- The last segment of the path, still encoded; empty when there is none. -/
def lastSegment (url : Url) : List Char := (url.segments?.bind List.getLast?).getD []

/-- The name shown for code at this URL. -/
def displayName (url : Url) : String := String.ofList url.lastSegment

/-- Where code at this URL is said to come from: the path of a file, the whole URL otherwise. -/
def sourcePath (url : Url) : String := if url.isFile then url.pathText else url.text

end Url

end ScriptLoader
