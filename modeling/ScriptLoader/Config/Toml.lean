import ScriptLoader.Text.Percent

/-!
# TOML documents

A document is a table: keys with values, under headers that open tables inside it. `Toml.parse`
reads version 1.0 of the format and refuses whatever the format does not allow. Only what a
configuration can hold is kept; numbers are checked and then forgotten.

## Tables

A table may be opened by a header, by a longer header, by a dotted key, or be written out in braces.
Which of these it was decides what may still be added, so a table carries a kind. A header can turn
an implied table into its own, but no table has two headers. Dotted keys can extend what dotted keys
have made. A table in braces is complete.

## Depth

Values nest fewer than eighty deep, and a dotted key has fewer than eighty parts.
-/

namespace ScriptLoader.Toml

/-- How a table came about. -/
inductive TableKind where
  /-- It has a header, or it is the document itself. -/
  | headed
  /-- Headers of tables inside it imply it. -/
  | implied
  /-- Dotted keys made it. -/
  | dotted
  /-- It is written in braces. -/
  | closed
  deriving DecidableEq, Repr

inductive Item where
  | string (text : String)
  | boolean (b : Bool)
  | number
  /-- A date, a time or both, in its normal spelling. -/
  | dateTime (text : String)
  | array (items : List Item)
  | table (kind : TableKind) (members : List (String × Item))
  /-- Tables under repeated headers, the latest first. -/
  | tables (elements : List (List (String × Item)))
  deriving Inhabited

/-- Keys and what they stand for, in the order of their first use. -/
abbrev Members := List (String × Item)

/-! ## Building tables -/

/-- Gives a key that is there another item. -/
def replaceMember (members : Members) (key : String) (item : Item) : Members :=
  members.map fun member ↦ if member.1 = key then (key, item) else member

/-- Changes the table at a path, which is made where it is missing. A path of a dotted key may not
go through a table with a header. -/
def updateAt (isDotted : Bool) (change : TableKind → Members → Option Members) :
    List String → TableKind → Members → Option Members
  | [], kind, members => change kind members
  | key :: path, _, members =>
    match members.lookup key with
    | none => do
      let kind : TableKind := if isDotted then .dotted else .implied
      let inner ← updateAt isDotted change path kind []
      some (members ++ [(key, .table kind inner)])
    | some (.table kind inner) => do
      guard (kind ≠ .closed ∧ ¬ (isDotted ∧ kind = .headed))
      let inner ← updateAt isDotted change path kind inner
      some (replaceMember members key (.table kind inner))
    | some (.tables (latest :: earlier)) => do
      let latest ← updateAt isDotted change path .headed latest
      some (replaceMember members key (.tables (latest :: earlier)))
    | some _ => none

/-- Adds a key to a table, under a path of dotted keys. -/
def addKey (path : List String) (key : String) (item : Item) (kind : TableKind)
    (members : Members) : Option Members :=
  updateAt true
    (fun kind members ↦ do
      guard ((kind = .dotted) = ¬ path.isEmpty ∧ (members.lookup key).isNone)
      some (members ++ [(key, item)]))
    path kind members

/-- Opens the table of a header. -/
def openTable (key : String) (members : Members) : Option Members :=
  match members.lookup key with
  | none => some (members ++ [(key, .table .headed [])])
  | some (.table .implied inner) => some (replaceMember members key (.table .headed inner))
  | some _ => none

/-- Opens a further table of a repeated header. -/
def openElement (key : String) (members : Members) : Option Members :=
  match members.lookup key with
  | none => some (members ++ [(key, .tables [[]])])
  | some (.tables elements) => some (replaceMember members key (.tables ([] :: elements)))
  | some _ => none

/-! ## Characters and lines -/

/-- A space or a tab. -/
def isSpace (c : Char) : Bool := c = ' ' || c = '\t'

/-- A character that may stand in a comment. -/
def isInComment (c : Char) : Bool := c = '\t' || (0x20 ≤ c.toNat && c.toNat ≠ 0x7F)

/-- A character that stands for itself in a string in double quotes. -/
def isPlain (c : Char) : Bool := isInComment c && c ≠ '"' && c ≠ '\\'

/-- A character of a string in single quotes. -/
def isLiteral (c : Char) : Bool := isInComment c && c ≠ '\''

/-- A character of a key without quotes. -/
def isBare (c : Char) : Bool := c.isAlphanum || c = '-' || c = '_'

def skipSpaces (cs : List Char) : List Char := cs.dropWhile isSpace

/-- The text after a line break. -/
def newline? : List Char → Option (List Char)
  | '\n' :: rest => some rest
  | '\r' :: '\n' :: rest => some rest
  | _ => none

/-- The text after a comment, if one starts here. -/
def skipComment : List Char → List Char
  | '#' :: rest => rest.dropWhile isInComment
  | cs => cs

/-- The text after the end of a line, before which only a comment may stand. -/
def endLine (cs : List Char) : Option (List Char) :=
  match skipComment (skipSpaces cs) with
  | [] => some []
  | rest => newline? rest

/-- The text after spaces, line breaks and comments. -/
def skipLines (inComment : Bool) : List Char → List Char
  | '\n' :: rest => skipLines false rest
  | '\r' :: '\n' :: rest => skipLines false rest
  | c :: rest =>
    if inComment then
      if isInComment c then skipLines true rest else c :: rest
    else if isSpace c then skipLines false rest
    else if c = '#' then skipLines true rest
    else c :: rest
  | [] => []

/-! ## Strings -/

/-- The character of a code point in hexadecimal. -/
def unicodeEscape (digits : List Char) : Option Char := do
  let values ← digits.mapM Percent.hexValue?
  let codePoint := values.foldl (fun n d ↦ n * 16 + d) 0
  if h : codePoint.isValidChar then some (Char.ofNatAux codePoint h) else none

/-- The character that a letter after a backslash stands for. -/
def shortEscape (c : Char) : Option Char :=
  match c with
  | 'b' => some '\x08'
  | 't' => some '\t'
  | 'n' => some '\n'
  | 'f' => some '\x0c'
  | 'r' => some '\r'
  | '"' => some '"'
  | '\\' => some '\\'
  | _ => none

/-- Puts a character before what a reader has read. -/
def consFst (c : Char) (read : List Char × List Char) : List Char × List Char :=
  (c :: read.1, read.2)

/-- What a backslash stands for, and how many characters after it belong to it. -/
def escape? (cs : List Char) : Option (Char × Nat) :=
  match cs with
  | 'u' :: rest =>
    if rest.length < 4 then none else (unicodeEscape (rest.take 4)).map fun c ↦ (c, 5)
  | 'U' :: rest =>
    if rest.length < 8 then none else (unicodeEscape (rest.take 8)).map fun c ↦ (c, 9)
  | c :: _ => (shortEscape c).map fun c ↦ (c, 1)
  | [] => none

/-- Reads a string in double quotes, after the first; `skip` characters belong to an escape. -/
def readBasic (skip : Nat) : List Char → Option (List Char × List Char)
  | [] => none
  | c :: rest =>
    match skip with
    | skip + 1 => readBasic skip rest
    | 0 =>
      if c = '"' then some ([], rest)
      else if c = '\\' then do
        let (escaped, length) ← escape? rest
        (readBasic length rest).map (consFst escaped)
      else if isPlain c then (readBasic 0 rest).map (consFst c)
      else none

/-- Reads a string in single quotes, after the first. -/
def readLiteral : List Char → Option (List Char × List Char)
  | [] => none
  | c :: rest =>
    if c = '\'' then some ([], rest)
    else if isLiteral c then (readLiteral rest).map (consFst c)
    else none

/-- Up to two quotes that stand before the final three of a string. -/
def lastQuotes (quote : Char) : List Char → List Char × List Char
  | a :: b :: rest =>
    if a = quote then
      if b = quote then ([quote, quote], rest) else ([quote], b :: rest)
    else ([], a :: b :: rest)
  | [a] => if a = quote then ([quote], []) else ([], [a])
  | [] => ([], [])

/-- Whether a backslash ends its line, so that the break and the space after it do not count. -/
def continuesLine (cs : List Char) : Bool := (newline? (skipSpaces cs)).isSome

/-- What the characters of a long string are part of. -/
inductive Within where
  | text
  /-- An escape, with so many characters left. -/
  | escape (left : Nat)
  /-- The space after a backslash that ends a line. -/
  | continuation

/-- What the next character is part of. -/
def Within.next : Within → Within
  | escape (left + 2) => escape (left + 1)
  | escape _ => text
  | within => within

/-- Reads a string in triple double quotes, after the first three. -/
def readLongBasic (within : Within) : List Char → Option (List Char × List Char)
  | '"' :: '"' :: '"' :: rest =>
    match within with
    | .escape _ => readLongBasic within.next ('"' :: '"' :: rest)
    | _ => some (lastQuotes '"' rest)
  | '\r' :: '\n' :: rest =>
    match within with
    | .continuation => readLongBasic .continuation rest
    | _ => (readLongBasic .text rest).map (consFst '\n')
  | c :: rest =>
    match within with
    | .escape _ => readLongBasic within.next rest
    | .continuation =>
      if isSpace c || c = '\n' then readLongBasic .continuation rest else readText c rest
    | .text => readText c rest
  | [] => none
where
  /-- Reads from a character of the text on. -/
  readText (c : Char) (rest : List Char) : Option (List Char × List Char) :=
    if c = '\\' then
      if continuesLine rest then readLongBasic .continuation rest
      else do
        let (escaped, length) ← escape? rest
        (readLongBasic (.escape length) rest).map (consFst escaped)
    else if isPlain c || c = '\n' || c = '"' then (readLongBasic .text rest).map (consFst c)
    else none

/-- Reads a string in triple single quotes, after the first three. -/
def readLongLiteral : List Char → Option (List Char × List Char)
  | '\'' :: '\'' :: '\'' :: rest => some (lastQuotes '\'' rest)
  | '\r' :: '\n' :: rest => (readLongLiteral rest).map (consFst '\n')
  | c :: rest =>
    if isInComment c || c = '\n' then (readLongLiteral rest).map (consFst c) else none
  | [] => none

/-- Reads a string of any form. A line break right after three quotes is no part of the string. -/
def readString? (cs : List Char) : Option (List Char × List Char) :=
  match cs with
  | '"' :: '"' :: '"' :: rest => readLongBasic .text ((newline? rest).getD rest)
  | '"' :: rest => readBasic 0 rest
  | '\'' :: '\'' :: '\'' :: rest => readLongLiteral ((newline? rest).getD rest)
  | '\'' :: rest => readLiteral rest
  | _ => none

/-! ## Numbers -/

/-- Digits with single underscores between them, less the underscores. -/
def readDigits (isDigit : Char → Bool) : List Char → Option (List Char × List Char)
  | c :: rest => if isDigit c then some (consFst c (more rest)) else none
  | [] => none
where
  /-- Reads the digits after one. -/
  more : List Char → List Char × List Char
    | '_' :: c :: rest => if isDigit c then consFst c (more rest) else ([], '_' :: c :: rest)
    | c :: rest => if isDigit c then consFst c (more rest) else ([], c :: rest)
    | [] => ([], [])

/-- A sign, if there is one, and the text after it. -/
def splitSign : List Char → Bool × List Char
  | '-' :: rest => (true, rest)
  | '+' :: rest => (false, rest)
  | cs => (false, cs)

/-- Reads decimal digits that do not start with a needless zero. -/
def readDecimal (cs : List Char) : Option (List Char × List Char) :=
  match cs with
  | '0' :: rest => some (['0'], rest)
  | _ => readDigits Char.isDigit cs

def digitsValue (base : Nat) (digits : List Char) : Nat :=
  digits.foldl (fun n c ↦ n * base + (Percent.hexValue? c).getD 0) 0

/-- Whole numbers lie below this bound, or at most as far below zero. -/
def integerBound : Nat := 0x8000000000000000

/-- Reads a number with a base, which must be below `2 ^ 63`. -/
def readBased (base : Nat) (cs : List Char) : Option (List Char) := do
  let isDigit (c : Char) : Bool := (Percent.hexValue? c).any (· < base)
  let (digits, rest) ← readDigits isDigit cs
  guard (digitsValue base digits < integerBound)
  some rest

/-- Reads a fraction: its digits and the text after it. -/
def readFraction : List Char → Option (List Char × List Char)
  | '.' :: rest => readDigits Char.isDigit rest
  | _ => none

def readExponent : List Char → Option (Int × List Char)
  | c :: rest => do
    guard (c = 'e' ∨ c = 'E')
    let (isNegative, rest) := splitSign rest
    let (digits, rest) ← readDigits Char.isDigit rest
    let value : Int := digitsValue 10 digits
    some (if isNegative then -value else value, rest)
  | [] => none

/-- Whether `digits * 10 ^ exponent` rounds to a finite double. -/
def isFinite (digits : List Char) (exponent : Int) : Bool :=
  let digits := digits.dropWhile (· = '0')
  let size := digits.length + exponent
  if digits.isEmpty || size < 309 then true
  else if 309 < size then false
  else
    let limit := (Nat.pow 2 54 - 1) * Nat.pow 2 970
    let value := digitsValue 10 digits
    if exponent < 0 then value < limit * Nat.pow 10 exponent.natAbs
    else value * Nat.pow 10 exponent.natAbs < limit

/-- Reads a number with a fraction or an exponent. One beyond all doubles is refused unless it is
negative. -/
def readFloat (cs : List Char) : Option (List Char) := do
  let (isNegative, rest) := splitSign cs
  let (whole, rest) ← readDecimal rest
  let (fraction, afterFraction) := (readFraction rest).getD ([], rest)
  guard (rest.head? ≠ some '.' ∨ fraction ≠ [])
  let (exponent, afterExponent) := (readExponent afterFraction).getD (0, afterFraction)
  guard (afterExponent.length < rest.length)
  guard (isNegative ∨ isFinite (whole ++ fraction) (exponent - fraction.length))
  some afterExponent

/-- Reads a whole number, which must fit in 64 bits. -/
def readInteger (cs : List Char) : Option (List Char) :=
  match cs with
  | '0' :: 'x' :: rest => readBased 16 rest
  | '0' :: 'o' :: rest => readBased 8 rest
  | '0' :: 'b' :: rest => readBased 2 rest
  | _ => do
    let (isNegative, rest) := splitSign cs
    let (digits, rest) ← readDecimal rest
    guard (digitsValue 10 digits < integerBound + if isNegative then 1 else 0)
    some rest

/-- Reads an infinity, or what is not a number. -/
def readSpecial (cs : List Char) : Option (List Char) :=
  match (splitSign cs).2 with
  | 'i' :: 'n' :: 'f' :: rest => some rest
  | 'n' :: 'a' :: 'n' :: rest => some rest
  | _ => none

/-! ## Dates and times -/

/-- Reads a given number of digits with a value in a range. -/
def readCount (count least most : Nat) (cs : List Char) : Option (List Char × List Char) := do
  let digits := cs.take count
  guard (digits.length = count ∧ digits.all Char.isDigit)
  let value := digitsValue 10 digits
  guard (least ≤ value ∧ value ≤ most)
  some (digits, cs.drop count)

/-- The text after a character. -/
def expect (c : Char) : List Char → Option (List Char)
  | d :: rest => if c = d then some rest else none
  | [] => none

def daysIn (year month : Nat) : Nat :=
  if month = 2 then if year % 4 = 0 ∧ (year % 100 ≠ 0 ∨ year % 400 = 0) then 29 else 28
  else if month = 4 ∨ month = 6 ∨ month = 9 ∨ month = 11 then 30
  else 31

def readDate (cs : List Char) : Option (List Char × List Char) := do
  let (year, rest) ← readCount 4 0 9999 cs
  let rest ← expect '-' rest
  let (month, rest) ← readCount 2 1 12 rest
  let rest ← expect '-' rest
  let (day, rest) ← readCount 2 1 (daysIn (digitsValue 10 year) (digitsValue 10 month)) rest
  some (year ++ '-' :: month ++ '-' :: day, rest)

/-- The normal spelling of a fraction of a second: nine digits at most and no zeros at the end. -/
def secondFraction (digits : List Char) : List Char :=
  match ((digits.take 9).reverse.dropWhile (· = '0')).reverse with
  | [] => []
  | digits => '.' :: digits

def readTime (cs : List Char) : Option (List Char × List Char) := do
  let (hour, rest) ← readCount 2 0 23 cs
  let rest ← expect ':' rest
  let (minute, rest) ← readCount 2 0 59 rest
  let rest ← expect ':' rest
  let (second, rest) ← readCount 2 0 60 rest
  let whole := hour ++ ':' :: minute ++ ':' :: second
  match rest with
  | '.' :: c :: more =>
    if c.isDigit then
      let digits := (c :: more).takeWhile Char.isDigit
      some (whole ++ secondFraction digits, (c :: more).dropWhile Char.isDigit)
    else some (whole, rest)
  | _ => some (whole, rest)

/-- Reads the offset of a time, if there is one. -/
def readOffset (cs : List Char) : Option (List Char × List Char) :=
  match cs with
  | [] => some ([], [])
  | c :: rest =>
    if c = 'Z' ∨ c = 'z' then some (['Z'], rest)
    else if c = '+' ∨ c = '-' then do
      let (hour, rest) ← readCount 2 0 23 rest
      let rest ← expect ':' rest
      let (minute, rest) ← readCount 2 0 59 rest
      let isZero := digitsValue 10 (hour ++ minute) = 0
      some ((if isZero then '+' else c) :: hour ++ ':' :: minute, rest)
    else some ([], cs)

/-- Reads a date, a time, or a date with a time. -/
def readDateTime (cs : List Char) : Option (List Char × List Char) :=
  match readDate cs with
  | none => readTime cs
  | some (date, rest) =>
    match rest with
    | c :: after =>
      if c = 'T' ∨ c = 't' ∨ c = ' ' then
        match readTime after with
        | none => some (date, rest)
        | some (time, rest) =>
          (readOffset rest).map fun (offset, rest) ↦ (date ++ 'T' :: time ++ offset, rest)
      else some (date, rest)
    | [] => some (date, [])

/-! ## Keys and values -/

/-- How deep values nest at most, and how many parts a dotted key has at most. -/
def maxDepth : Nat := 79

def readKeyPart (cs : List Char) : Option (String × List Char) :=
  match cs with
  | '"' :: rest => (readBasic 0 rest).map fun (text, rest) ↦ (String.ofList text, rest)
  | '\'' :: rest => (readLiteral rest).map fun (text, rest) ↦ (String.ofList text, rest)
  | _ =>
    let text := cs.takeWhile isBare
    if text.isEmpty then none else some (String.ofList text, cs.dropWhile isBare)

/-- Reads a key of at most `count` parts, and the spaces around it. -/
def readKey : (count : Nat) → List Char → Option (List String × List Char)
  | 0, _ => none
  | count + 1, cs => do
    let (part, rest) ← readKeyPart (skipSpaces cs)
    match skipSpaces rest with
    | '.' :: rest => (readKey count rest).map fun (parts, rest) ↦ (part :: parts, rest)
    | rest => some ([part], rest)

/-- Reads the numbers, dates and words that are values. -/
def readAtom (cs : List Char) : Option (Item × List Char) :=
  match cs with
  | 't' :: 'r' :: 'u' :: 'e' :: rest => some (.boolean true, rest)
  | 'f' :: 'a' :: 'l' :: 's' :: 'e' :: rest => some (.boolean false, rest)
  | _ =>
    match readDateTime cs with
    | some (text, rest) => some (.dateTime (String.ofList text), rest)
    | none =>
      ((readFloat cs <|> readSpecial cs <|> readInteger cs).map fun rest ↦ (.number, rest))

/-- Adds a key of a table in braces. -/
def addClosed (key : List String) (item : Item) (members : Members) : Option Members :=
  match key.getLast? with
  | none => none
  | some last => addKey key.dropLast last item .closed members

mutual

/-- Reads a value that nests at most `depth` deep. The budget bounds the number of values. -/
def readValue : (budget depth : Nat) → List Char → Option (Item × List Char)
  | 0, _, _ => none
  | budget + 1, depth, cs =>
    match cs, depth with
    | '[' :: rest, depth + 1 =>
      (readItems budget depth rest).map fun (items, rest) ↦ (.array items, rest)
    | '\x7b' :: rest, depth + 1 =>
      match skipSpaces rest with
      | '\x7d' :: rest => some (.table .closed [], rest)
      | rest =>
        (readMembers budget depth [] rest).map fun (members, rest) ↦ (.table .closed members, rest)
    | '[' :: _, 0 => none
    | '\x7b' :: _, 0 => none
    | _, _ =>
      match readString? cs with
      | some (text, rest) => some (.string (String.ofList text), rest)
      | none => readAtom cs

/-- Reads the rest of an array. -/
def readItems : (budget depth : Nat) → List Char → Option (List Item × List Char)
  | 0, _, _ => none
  | budget + 1, depth, cs =>
    match skipLines false cs with
    | ']' :: rest => some ([], rest)
    | cs => do
      let (item, rest) ← readValue budget depth cs
      match skipLines false rest with
      | ',' :: rest =>
        (readItems budget depth rest).map fun (items, rest) ↦ (item :: items, rest)
      | ']' :: rest => some ([item], rest)
      | _ => none

/-- Reads the rest of a table in braces, after the members that it has so far. -/
def readMembers : (budget depth : Nat) → Members → List Char → Option (Members × List Char)
  | 0, _, _, _ => none
  | budget + 1, depth, members, cs => do
    let (key, rest) ← readKey maxDepth cs
    let rest ← expect '=' rest
    let (item, rest) ← readValue budget depth (skipSpaces rest)
    let members ← addClosed key item members
    match skipSpaces rest with
    | ',' :: rest => readMembers budget depth members rest
    | '\x7d' :: rest => some (members, rest)
    | _ => none

end

/-! ## Documents -/

/-- A document that has been read in part: its members, and the path of the last header. -/
structure Progress where
  members : Members := []
  header : List String := []

def readHeader (p : Progress) (cs : List Char) : Option (Progress × List Char) :=
  match cs with
  | '[' :: '[' :: rest => do
    let (key, rest) ← readKey maxDepth rest
    let rest ← expect ']' rest
    let rest ← expect ']' rest
    let rest ← endLine rest
    let last ← key.getLast?
    let members ← updateAt false (fun _ members ↦ openElement last members) key.dropLast
      .headed p.members
    some (⟨members, key⟩, rest)
  | '[' :: rest => do
    let (key, rest) ← readKey maxDepth rest
    let rest ← expect ']' rest
    let rest ← endLine rest
    let last ← key.getLast?
    let members ← updateAt false (fun _ members ↦ openTable last members) key.dropLast
      .headed p.members
    some (⟨members, key⟩, rest)
  | _ => none

def readAssignment (p : Progress) (cs : List Char) : Option (Progress × List Char) := do
  let (key, rest) ← readKey maxDepth cs
  let rest ← expect '=' rest
  let rest := skipSpaces rest
  let (item, rest) ← readValue (rest.length + 1) maxDepth rest
  let rest ← endLine rest
  let last ← key.getLast?
  let members ← updateAt false (addKey key.dropLast last item) p.header .headed p.members
  some ({ p with members }, rest)

/-- Reads the lines of a document. Each takes at least one character. -/
def readLines : (budget : Nat) → Progress → List Char → Option Members
  | 0, _, _ => none
  | budget + 1, p, cs =>
    match skipLines false cs with
    | [] => some p.members
    | '[' :: rest => do
      let (p, rest) ← readHeader p ('[' :: rest)
      readLines budget p rest
    | cs => do
      let (p, rest) ← readAssignment p cs
      readLines budget p rest

/-- Reads a document. A byte order mark may stand before it. -/
def parse (text : List Char) : Option Members :=
  let cs := match text with
    | '\ufeff' :: rest => rest
    | _ => text
  readLines (cs.length + 1) {} cs

end ScriptLoader.Toml
