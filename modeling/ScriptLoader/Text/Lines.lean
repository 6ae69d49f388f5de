/-!
# Lines, fields and white space

`lines` cuts a text at line feeds, `splitAt` cuts it at every occurrence of a separator. The two
differ at the end of a text: a final line feed ends the last line and opens no empty one, while a
final separator opens an empty field.

Texts are trimmed by any class of characters, most often by white space.
-/

namespace ScriptLoader

/-- The lines of a text: each ends at a line feed, or at a carriage return and line feed, and the
last one may end with the text. -/
def lines : List Char → List (List Char)
  | [] => []
  | '\n' :: rest => [] :: lines rest
  | '\r' :: '\n' :: rest => [] :: lines rest
  | c :: rest =>
    match lines rest with
    | [] => [[c]]
    | line :: more => (c :: line) :: more

/-- The fields between the occurrences of `separator`, always at least one. -/
def fieldsAt (separator : Char) : List Char → List (List Char)
  | [] => [[]]
  | c :: rest =>
    if c = separator then [] :: fieldsAt separator rest
    else
      match fieldsAt separator rest with
      | [] => [[c]]
      | field :: more => (c :: field) :: more

/-- The text before the first `separator` and the text after it. -/
def splitOnce (separator : Char) : List Char → Option (List Char × List Char)
  | [] => none
  | c :: rest =>
    if c = separator then some ([], rest)
    else (splitOnce separator rest).map fun (before, after) ↦ (c :: before, after)

/-- The text after `start`, when it begins with it. -/
def dropStart? : (start : List Char) → List Char → Option (List Char)
  | [], cs => some cs
  | _ :: _, [] => none
  | s :: start, c :: cs => if s = c then dropStart? start cs else none

/-! ## White space -/

/-- A character with the Unicode property `White_Space`. A zero-width space does not have it. -/
def isBlank (c : Char) : Bool :=
  let n := c.toNat
  (0x9 ≤ n && n ≤ 0xD) || n == 0x20 || n == 0x85 || n == 0xA0 || n == 0x1680 ||
    (0x2000 ≤ n && n ≤ 0x200A) || n == 0x2028 || n == 0x2029 || n == 0x202F || n == 0x205F ||
    n == 0x3000

/-- The text from its first character outside `drop` on. -/
def trimStartWith (drop : Char → Bool) (cs : List Char) : List Char := cs.dropWhile drop

/-- The text up to its last character outside `drop`. -/
def trimEndWith (drop : Char → Bool) (cs : List Char) : List Char :=
  (cs.reverse.dropWhile drop).reverse

/-- The text without characters of `drop` on either side. -/
def trimWith (drop : Char → Bool) (cs : List Char) : List Char :=
  trimEndWith drop (trimStartWith drop cs)

def trimStart (cs : List Char) : List Char := trimStartWith isBlank cs

def trim (cs : List Char) : List Char := trimWith isBlank cs

end ScriptLoader
