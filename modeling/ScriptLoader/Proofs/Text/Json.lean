import Mathlib.Tactic.SplitIfs
import ScriptLoader.SourceMap

/-!
# Source maps are read back as JSON

A reader for JSON without spaces and with no numbers but natural ones, which is how maps are
written. A string may hold every escape but those of surrogates. The reader has fuel for the depth
and the length of a value; a character is worth two units, one for a list and one for an item of it.
-/

namespace ScriptLoader

inductive Json where
  | text (cs : List Char)
  | number (n : Nat)
  | array (items : List Json)
  | object (members : List (List Char × Json))

namespace Json

variable {cs rest more key : List Char} {value item : Json} {items : List Json}
  {members : List (List Char × Json)} {fuel : Nat}

/-! ## The reader -/

/-- The character that a letter after a backslash stands for. -/
def unescape? (c : Char) : Option Char :=
  match c with
  | '"' | '\\' | '/' => some c
  | 'b' => some (Char.ofNat 8)
  | 'f' => some (Char.ofNat 12)
  | 'n' => some '\n'
  | 'r' => some '\r'
  | 't' => some '\t'
  | _ => none

/-- The character whose code point has four hexadecimal digits. -/
def charOfHex? (a b c d : Char) : Option Char := do
  let a ← Percent.hexValue? a
  let b ← Percent.hexValue? b
  let c ← Percent.hexValue? c
  let d ← Percent.hexValue? d
  let codePoint := a * 0x1000 + b * 0x100 + c * 0x10 + d
  if h : codePoint.isValidChar then some (Char.ofNatAux codePoint h) else none

/-- The text before a closing quote, with escapes undone, and what comes after the quote. -/
def readText : List Char → Option (List Char × List Char)
  | '"' :: rest => some ([], rest)
  | '\\' :: 'u' :: a :: b :: c :: d :: rest => do
    let c ← charOfHex? a b c d
    let (cs, rest) ← readText rest
    some (c :: cs, rest)
  | '\\' :: c :: rest => do
    let c ← unescape? c
    let (cs, rest) ← readText rest
    some (c :: cs, rest)
  | c :: rest =>
    if c.toNat < 0x20 then none else (readText rest).map fun (cs, rest) ↦ (c :: cs, rest)
  | [] => none

mutual

/-- The value at the start of a text, and what comes after it. -/
def readValue : (fuel : Nat) → List Char → Option (Json × List Char)
  | 0, _ => none
  | fuel + 1, cs =>
    match cs with
    | '"' :: rest => (readText rest).map fun (cs, rest) ↦ (.text cs, rest)
    | '[' :: ']' :: rest => some (.array [], rest)
    | '[' :: rest => (readItems fuel rest).map fun (items, rest) ↦ (.array items, rest)
    | '\x7b' :: '\x7d' :: rest => some (.object [], rest)
    | '\x7b' :: rest => (readMembers fuel rest).map fun (members, rest) ↦ (.object members, rest)
    | _ =>
      let digits := cs.takeWhile Char.isDigit
      if digits.isEmpty then none
      else some (.number (Nat.ofDigitChars 10 digits 0), cs.dropWhile Char.isDigit)

/-- The items before a closing bracket, and what comes after it. -/
def readItems : (fuel : Nat) → List Char → Option (List Json × List Char)
  | 0, _ => none
  | fuel + 1, cs => do
    let (item, rest) ← readValue fuel cs
    match rest with
    | ']' :: rest => some ([item], rest)
    | ',' :: rest =>
      let (items, rest) ← readItems fuel rest
      some (item :: items, rest)
    | _ => none

/-- The members before a closing brace, and what comes after it. -/
def readMembers : (fuel : Nat) → List Char → Option (List (List Char × Json) × List Char)
  | 0, _ => none
  | fuel + 1, cs =>
    match cs with
    | '"' :: rest => do
      let (key, rest) ← readText rest
      match rest with
      | ':' :: rest =>
        let (value, rest) ← readValue fuel rest
        match rest with
        | '\x7d' :: rest => some ([(key, value)], rest)
        | ',' :: rest =>
          let (members, rest) ← readMembers fuel rest
          some ((key, value) :: members, rest)
        | _ => none
      | _ => none
    | _ => none

end

def read? (cs : List Char) : Option Json := do
  let (value, rest) ← readValue (2 * cs.length) cs
  if rest.isEmpty then some value else none

/-! ## Strings -/

theorem hexValue?_digitChar {value : Nat} (h : value < 16) :
    Percent.hexValue? (Nat.digitChar value) = some value := by
  revert value
  decide +kernel

theorem charOfHex?_digitChar {c : Char} (h : c.toNat < 0x20) :
    charOfHex? '0' '0' (Nat.digitChar (c.toNat / 16)) (Nat.digitChar (c.toNat % 16)) = some c := by
  have hzero : Percent.hexValue? '0' = some 0 := rfl
  have hvalue : 0 * 0x1000 + 0 * 0x100 + c.toNat / 16 * 0x10 + c.toNat % 16 = c.toNat := by omega
  have hchar {codePoint : Nat} (hcode : codePoint = c.toNat) :
      (if h : codePoint.isValidChar then some (Char.ofNatAux codePoint h) else none) = some c := by
    have hvalid : c.toNat.isValidChar := c.valid
    rw [hcode, dif_pos hvalid]
    rfl
  rw [charOfHex?, hzero, hexValue?_digitChar (by omega), hexValue?_digitChar (by omega)]
  exact hchar hvalue

theorem readText_escape {c d : Char} (hc : c ≠ 'u') (hd : unescape? c = some d) :
    readText ('\\' :: c :: rest) = (readText rest).map fun (cs, rest) ↦ (d :: cs, rest) := by
  rw [readText]
  · rw [hd]
    cases readText rest <;> rfl
  · rintro _ _ _ _ _ rfl
    exact absurd rfl hc

/-- Whatever a character is written as, it is read. -/
theorem readText_jsonChar (c : Char) : readText (SourceMap.jsonChar c ++ rest)
    = (readText rest).map fun (cs, rest) ↦ (c :: cs, rest) := by
  rw [SourceMap.jsonChar.eq_def]
  split
  · exact readText_escape (by decide) rfl
  · exact readText_escape (by decide) rfl
  · exact readText_escape (by decide) rfl
  · exact readText_escape (by decide) rfl
  · exact readText_escape (by decide) rfl
  next hquote hslash _ _ _ =>
    split_ifs with hback hfeed hcontrol
    · exact readText_escape (by decide) (by rw [← Char.ofNat_toNat c, hback]; rfl)
    · exact readText_escape (by decide) (by rw [← Char.ofNat_toNat c, hfeed]; rfl)
    · rw [List.cons_append, List.cons_append, List.cons_append, List.cons_append, List.cons_append,
        List.singleton_append, readText, charOfHex?_digitChar hcontrol]
      cases readText rest <;> rfl
    · rw [List.singleton_append, readText, if_neg hcontrol]
      · exact hquote
      · rintro _ _ _ _ _ rfl
        exact absurd rfl hslash
      · rintro _ _ rfl
        exact absurd rfl hslash

/-- **A string is read back**, with what comes after it. -/
theorem readText_jsonString (cs rest : List Char) :
    readText (cs.flatMap SourceMap.jsonChar ++ '"' :: rest) = some (cs, rest) := by
  induction cs with
  | nil => rfl
  | cons c cs ih =>
    rw [List.flatMap_cons, List.append_assoc, readText_jsonChar, ih]
    rfl

theorem readValue_jsonString (cs rest : List Char) :
    readValue (fuel + 1) (SourceMap.jsonString cs ++ rest) = some (.text cs, rest) := by
  rw [SourceMap.jsonString, List.cons_append, List.cons_append, List.append_assoc,
    List.singleton_append, readValue, readText_jsonString]
  rfl

/-! ## Objects -/

def member (key value : List Char) : List Char := SourceMap.jsonString key ++ ':' :: value

theorem readMembers_last (key : List Char)
    (hvalue : readValue fuel cs = some (value, '\x7d' :: rest)) :
    readMembers (fuel + 1) (member key cs) = some ([(key, value)], rest) := by
  rw [member, SourceMap.jsonString, List.cons_append, List.cons_append, List.append_assoc,
    List.singleton_append, readMembers, readText_jsonString]
  change (readValue fuel cs).bind _ = _
  rw [hvalue]
  rfl

theorem readMembers_cons (key : List Char)
    (hvalue : readValue fuel cs = some (value, ',' :: more))
    (hmembers : readMembers fuel more = some (members, rest)) :
    readMembers (fuel + 1) (member key cs) = some ((key, value) :: members, rest) := by
  rw [member, SourceMap.jsonString, List.cons_append, List.cons_append, List.append_assoc,
    List.singleton_append, readMembers, readText_jsonString]
  change (readValue fuel cs).bind _ = _
  rw [hvalue]
  change (readMembers fuel more).bind _ = _
  rw [hmembers]
  rfl

theorem readValue_object {key cs : List Char}
    (hmembers : readMembers fuel (member key cs) = some (members, rest)) :
    readValue (fuel + 1) ('\x7b' :: member key cs) = some (.object members, rest) := by
  rw [member, SourceMap.jsonString, List.cons_append, List.cons_append] at hmembers ⊢
  rw [readValue, hmembers]
  · rfl
  · exact nofun

theorem readValue_texts (cs rest : List Char) :
    readValue (fuel + 3) ('[' :: (SourceMap.jsonString cs ++ ']' :: rest))
      = some (.array [.text cs], rest) := by
  have hitem : readValue (fuel + 1) (SourceMap.jsonString cs ++ ']' :: rest)
      = some (.text cs, ']' :: rest) := readValue_jsonString cs _
  rw [SourceMap.jsonString, List.cons_append, List.cons_append] at hitem ⊢
  rw [readValue]
  · rw [readItems, hitem]
    rfl
  · exact nofun

theorem toJson_eq (file source mappings : List Char) : SourceMap.toJson file source mappings =
    '\x7b' :: member "file".toList (SourceMap.jsonString file ++
      ',' :: member "mappings".toList (SourceMap.jsonString mappings ++
      ',' :: member "names".toList ("[]".toList ++
      ',' :: member "sources".toList ('[' :: (SourceMap.jsonString source ++
      ']' :: ',' :: member "version".toList "3\x7d".toList))))) := by
  have hfile : "\x7b\"file\":".toList = '\x7b' :: member "file".toList [] := by decide +kernel
  have hmappings : ",\"mappings\":".toList = ',' :: member "mappings".toList [] := by
    decide +kernel
  have hnames : ",\"names\":[],\"sources\":[".toList
      = ',' :: member "names".toList ("[]".toList ++ ',' :: member "sources".toList ['[']) := by
    decide +kernel
  have hversion : "],\"version\":3\x7d".toList
      = ']' :: ',' :: member "version".toList "3\x7d".toList := by decide +kernel
  -- nothing is to be compared with a literal from here on, character by character
  unfold SourceMap.toJson
  generalize "\x7b\"file\":".toList = opened at hfile ⊢
  generalize ",\"mappings\":".toList = mapped at hmappings ⊢
  generalize ",\"names\":[],\"sources\":[".toList = named at hnames ⊢
  generalize "],\"version\":3\x7d".toList = closed at hversion ⊢
  subst hfile hmappings hnames hversion
  simp only [member, List.append_assoc, List.cons_append, List.nil_append]

/-- **A map is read back**: it is an object with these members. -/
theorem read?_toJson (file source mappings : List Char) :
    read? (SourceMap.toJson file source mappings) = some (.object
      [("file".toList, .text file), ("mappings".toList, .text mappings),
        ("names".toList, .array []), ("sources".toList, .array [.text source]),
        ("version".toList, .number 3)]) := by
  obtain ⟨fuel, hfuel⟩ :
      ∃ fuel, 2 * (SourceMap.toJson file source mappings).length = fuel + 8 := by
    have hfile : (member "file".toList []).length = 7 := by decide +kernel
    refine ⟨2 * (SourceMap.toJson file source mappings).length - 8, ?_⟩
    rw [toJson_eq]
    simp only [member, List.length_append, List.length_cons] at hfile ⊢
    omega
  have hversion : readMembers (fuel + 3) (member "version".toList "3\x7d".toList)
      = some ([("version".toList, .number 3)], []) := readMembers_last _ rfl
  have hsources := readMembers_cons "sources".toList (readValue_texts source _) hversion
  have hnone (rest : List Char) :
      readValue (fuel + 4) ("[]".toList ++ rest) = some (.array [], rest) := rfl
  have hnames := readMembers_cons "names".toList (hnone _) hsources
  have hmappings := readMembers_cons "mappings".toList (readValue_jsonString mappings _) hnames
  have hfile := readMembers_cons "file".toList (readValue_jsonString file _) hmappings
  rw [read?, hfuel, toJson_eq, readValue_object hfile]
  rfl

end Json

end ScriptLoader
