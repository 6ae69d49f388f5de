import ScriptLoader.Url.Host
import ScriptLoader.Url.Path

/-!
# Reading URLs

`Url.parse` reads an absolute URL, `Url.join` a reference against a base. Control characters and
spaces around the text, and tabs and line breaks anywhere in it, do not count.

## Schemes

The schemes of the web have a host, treat a backslash as a slash, and read `http:x` and `http:///x`
as `http://x`. The `file` scheme has paths with drive letters and may lack a host. With any other
scheme, a text without a leading slash is a path in one piece.
-/

namespace ScriptLoader.Url

/-- How a scheme is read. -/
inductive SchemeKind where
  | file
  | web (defaultPort : Nat)
  | other
  deriving DecidableEq, Repr

def schemeKind (scheme : List Char) : SchemeKind :=
  match String.ofList scheme with
  | "file" => .file
  | "http" => .web 80
  | "ws" => .web 80
  | "https" => .web 443
  | "wss" => .web 443
  | "ftp" => .web 21
  | _ => .other

namespace SchemeKind

/-- Whether backslashes count as slashes and a query encodes apostrophes. -/
def isSpecial (kind : SchemeKind) : Bool := kind ≠ .other

def pathRules (kind : SchemeKind) : PathRules := ⟨kind = .file, kind.isSpecial⟩

end SchemeKind

/-- A slash or a backslash. -/
def isSlash (c : Char) : Bool := c = '/' || c = '\\'

/-- The text without the characters that never count. -/
def cleanInput (text : List Char) : List Char :=
  (trimWith (fun c ↦ c.toNat ≤ 0x20) text).filter fun c ↦ c ≠ '\t' && c ≠ '\n' && c ≠ '\r'
where
  /-- The text without characters of `drop` on either side. -/
  trimWith (drop : Char → Bool) (cs : List Char) : List Char :=
    ((cs.dropWhile drop).reverse.dropWhile drop).reverse

/-! ## Query and fragment -/

def encodedInQuery (special : Bool) (c : Char) : Bool :=
  c.toNat ≤ 0x20 || c.toNat = 0x7F || "\"#<>".toList.contains c || (special && c = '\'')

def encodedInFragment (c : Char) : Bool :=
  c.toNat ≤ 0x20 || c.toNat = 0x7F || "\"<>\x60".toList.contains c

/-- Reads the query and fragment that end a URL. -/
def withTail (special : Bool) (url : Url) (tail : List Char) : Url :=
  let fragmentOf := Percent.encode encodedInFragment
  match tail with
  | '#' :: fragment => { url with query := none, fragment := some (fragmentOf fragment) }
  | '?' :: rest =>
    let (query, after) := rest.span (· ≠ '#')
    { url with
      query := some (Percent.encode (encodedInQuery special) query)
      fragment :=
        match after with
        | [] => none
        | _ :: fragment => some (fragmentOf fragment) }
  | _ => { url with query := none, fragment := none }

def withFragment (url : Url) (fragment : List Char) : Url :=
  { url with fragment := some (Percent.encode encodedInFragment fragment) }

/-! ## Authority -/

/-- A character that is encoded in a user name or password. -/
def encodedInUserinfo (c : Char) : Bool :=
  encodedInPath c || "/:;=@[\\]^|".toList.contains c

def endsAuthority (special : Bool) (c : Char) : Bool :=
  c = '/' || c = '?' || c = '#' || (special && c = '\\')

/-- The text before the last at sign and the text after it. -/
def splitUserinfo (cs : List Char) : Option (List Char × List Char) :=
  if cs.contains '@' then
    some ((cs.reverse.dropWhile (· ≠ '@')).tail.reverse, (cs.reverse.takeWhile (· ≠ '@')).reverse)
  else none

/-- User name and password, encoded; an empty password loses its colon. -/
def encodeUserinfo (cs : List Char) : List Char :=
  let encode := Percent.encode encodedInUserinfo
  match splitOnce ':' cs with
  | none => encode cs
  | some (name, []) => encode name
  | some (name, password) => encode name ++ ':' :: encode password

/-- The host at the start of a text, and what follows: a colon inside brackets belongs to it. -/
def spanHost : (inBrackets : Bool) → List Char → List Char × List Char
  | _, [] => ([], [])
  | inBrackets, c :: rest =>
    if c = ':' && !inBrackets then ([], c :: rest)
    else
      let inBrackets := if c = '[' then true else if c = ']' then false else inBrackets
      let (host, after) := spanHost inBrackets rest
      (c :: host, after)

/-- The port after a colon: none when it is empty or the scheme's own. -/
def parsePort (defaultPort : Option Nat) (cs : List Char) : Except UrlError (Option Nat) :=
  match readDigits? 10 cs with
  | none => .error .invalidPort
  | some port =>
    if 65535 < port then .error .invalidPort
    else if cs.isEmpty || defaultPort = some port then .ok none
    else .ok (some port)

/-- Reads an authority, which reaches up to the first slash, query or fragment. -/
def parseAuthority (kind : SchemeKind) (cs : List Char) : Except UrlError (Authority × List Char) :=
  let (body, rest) := cs.span (!endsAuthority kind.isSpecial ·)
  match splitUserinfo body with
  | some ([], []) => if rest.isEmpty then readHost [] [] rest else .error .emptyHost
  | some (userinfo, host) => readHost (encodeUserinfo userinfo) host rest
  | none => readHost [] body rest
where
  /-- Reads host and port after the user information. -/
  readHost (userinfo body rest : List Char) : Except UrlError (Authority × List Char) := do
    let (host, portPart) := spanHost false body
    match kind with
    | .other =>
      let host ← parseRawHost host
      if host.isEmpty && !portPart.isEmpty then throw .emptyHost
      let (digits, after) := portPart.tail.span (· ≠ '\\')
      let port ← parsePort none digits
      if host.isEmpty && !userinfo.isEmpty then throw .emptyHost
      return (⟨userinfo, host, port⟩, after ++ rest)
    | _ =>
      if host.isEmpty then throw .emptyHost
      let host ← parseHost host
      let defaultPort := match kind with
        | .web port => some port
        | _ => none
      let port ← parsePort defaultPort portPart.tail
      return (⟨userinfo, host, port⟩, rest)

/-! ## The kinds of URL -/

/-- A URL from the text after its two slashes. -/
def parseAfterSlashes (scheme cs : List Char) : Except UrlError Url := do
  let kind := schemeKind scheme
  let (authority, rest) ← parseAuthority kind cs
  let (body, tail) := splitTail rest
  let start : PathProgress := ⟨[], true⟩
  let path :=
    if kind.isSpecial then
      let body := match body with
        | c :: more => if isSlash c then more else body
        | [] => body
      (extendPath kind.pathRules ⟨['/'], true⟩ body).path
    else
      match body with
      | [] => []
      | c :: _ =>
        let start := if c = '/' then start else ⟨['/'], true⟩
        (extendPath kind.pathRules start body).path
  return withTail kind.isSpecial ⟨scheme, some authority, path, none, none⟩ tail

/-- A URL of a scheme without rules of its own. -/
def parseOther (scheme cs : List Char) : Except UrlError Url :=
  match cs with
  | '/' :: '/' :: rest => parseAfterSlashes scheme rest
  | '/' :: rest =>
    let (body, tail) := splitTail rest
    let path := (extendPath SchemeKind.other.pathRules ⟨['/'], true⟩ body).path
    .ok (withTail false ⟨scheme, none, path, none, none⟩ tail)
  | _ =>
    let (body, tail) := splitTail cs
    let path := Percent.encode (fun c ↦ c.toNat < 0x20 || c.toNat = 0x7F) body
    .ok (withTail false ⟨scheme, none, path, none, none⟩ tail)

/-- The URL with the path extended by a text, which also gives query and fragment. -/
def withExtendedPath (kind : SchemeKind) (url : Url) (start cs : List Char) : Url :=
  let (body, tail) := splitTail cs
  withTail kind.isSpecial { url with path := (extendPath kind.pathRules ⟨start, true⟩ body).path }
    tail

/-- A reference against a base that has the same scheme and is not a file. -/
def parseRelative (base : Url) (cs : List Char) : Except UrlError Url :=
  let kind := schemeKind base.scheme
  match cs with
  | [] => .ok { base with fragment := none }
  | '?' :: _ => .ok (withTail kind.isSpecial base cs)
  | '#' :: fragment => .ok (withFragment base fragment)
  | c :: rest =>
    if isSlash c then
      match rest with
      | d :: more =>
        if isSlash d then
          if c = '/' && d = '/' then parseAfterSlashes base.scheme more
          else parseAfterSlashes base.scheme (more.dropWhile isSlash)
        else .ok (withExtendedPath kind base ['/'] rest)
      | [] => .ok (withExtendedPath kind base ['/'] rest)
    else
      let path := popSegment kind.pathRules base.path
      .ok (withExtendedPath kind base (if path.isEmpty then ['/'] else path) cs)

/-- A file URL from the text after two slashes: a host, or the path of a local file. -/
def parseFileHost (cs : List Char) : Except UrlError Url := do
  let here := Url.file []
  let (name, rest) := cs.span fun c ↦ c ≠ '/' && c ≠ '\\' && c ≠ '?' && c ≠ '#'
  if isDriveLetter name then return withExtendedPath .file here ['/'] cs
  if name.isEmpty then return withExtendedPath .file here ['/'] rest
  let host ← parseHost name
  if host = "localhost".toList then return withExtendedPath .file here ['/'] rest
  let (body, tail) := splitTail rest
  let body := match body with
    | c :: more => if isSlash c then more else body
    | [] => body
  let progress := extendPath SchemeKind.file.pathRules ⟨['/'], true⟩ body
  let authority : Authority := ⟨[], if progress.keepsHost then host else [], none⟩
  return withTail true { here with authority := some authority, path := progress.path } tail

/-- A file URL, or a reference against a file URL. -/
def parseFile (base : Option Url) (cs : List Char) : Except UrlError Url :=
  match cs with
  | c :: d :: rest =>
    if isSlash c && isSlash d then parseFileHost rest
    else if isSlash c then .ok (fromRoot (d :: rest))
    else .ok (fromDirectory cs)
  | [c] => if isSlash c then .ok (fromRoot []) else .ok (fromDirectory cs)
  | [] => .ok (fromDirectory cs)
where
  /-- After one slash: the drive or the host of the base stays. -/
  fromRoot (rest : List Char) : Url :=
    let cs := '/' :: rest
    match base with
    | some base =>
      if startsWithDriveLetter rest then withExtendedPath .file (Url.file []) [] cs
      else
        let first := (base.segments?.bind List.head?).getD []
        if isNormalDriveLetter first then
          withExtendedPath .file (Url.file []) ('/' :: first) cs
        else
          withExtendedPath .file { Url.file [] with authority := base.authority } [] cs
    | none => withExtendedPath .file (Url.file []) [] cs
  /-- Without a slash: relative to the directory of the base. -/
  fromDirectory (cs : List Char) : Url :=
    match base with
    | none => withExtendedPath .file (Url.file []) ['/'] cs
    | some base =>
      match cs with
      | [] => { base with fragment := none }
      | '?' :: _ => withTail true base cs
      | '#' :: fragment => withFragment base fragment
      | _ =>
        if startsWithDriveLetter cs then withExtendedPath .file (Url.file []) ['/'] cs
        else withExtendedPath .file base (popSegment SchemeKind.file.pathRules base.path) cs

/-! ## Entry points -/

/-- The characters of a scheme up to its colon, lower-cased, and the text after the colon. -/
def spanScheme : List Char → Option (List Char × List Char)
  | [] => none
  | c :: rest =>
    if c = ':' then some ([], rest)
    else if c.isAlphanum || c = '+' || c = '-' || c = '.' then
      (spanScheme rest).map fun (scheme, after) ↦ (c.toLower :: scheme, after)
    else none

/-- The scheme that a text starts with. -/
def splitScheme (cs : List Char) : Option (List Char × List Char) :=
  match cs with
  | c :: _ => if c.isAlpha then spanScheme cs else none
  | [] => none

/-- A text with a scheme. A web reference with the base's scheme and fewer than two slashes is
relative. -/
def parseWithScheme (base : Option Url) (scheme cs : List Char) : Except UrlError Url :=
  match schemeKind scheme with
  | .file => parseFile (base.filter isFile) cs
  | .other => parseOther scheme cs
  | .web _ =>
    match base.filter fun base ↦ base.scheme = scheme && (cs.takeWhile isSlash).length < 2 with
    | some base => parseRelative base cs
    | none => parseAfterSlashes scheme (cs.dropWhile isSlash)

/-- Reads a URL, or a reference when there is a base. -/
def parseAgainst (base : Option Url) (text : List Char) : Except UrlError Url :=
  let cs := cleanInput text
  match splitScheme cs with
  | some (scheme, rest) => parseWithScheme base scheme rest
  | none =>
    match base with
    | none => .error .relativeWithoutBase
    | some base =>
      match cs with
      | '#' :: fragment => .ok (withFragment base fragment)
      | _ =>
        if base.isPathless then .error .relativeWithPathlessBase
        else if base.isFile then parseFile (some base) cs
        else parseRelative base cs

/-- Reads an absolute URL. -/
def parse (text : String) : Except UrlError Url := parseAgainst none text.toList

/-- Resolves a reference against a base. -/
def join (base : Url) (reference : String) : Except UrlError Url :=
  parseAgainst (some base) reference.toList

/-- The directory that references from code at this URL resolve against. -/
def directory (url : Url) : Except UrlError Url := url.join "."

end ScriptLoader.Url
