import ScriptLoader.Proofs.Bundle.Targets
import ScriptLoader.Proofs.Text.Base64
import ScriptLoader.SourceMap

/-!
# Mappings are read back

The reader of mappings follows the format: groups between semicolons, one for each generated line,
segments between commas, and numbers in base64 VLQ. A segment has one, four or five fields. The
column of the generated line starts again with every line; every other field is relative to the same
field of the segment before, wherever that was.

## What is carried on

From one group to the next only the fields of the last segment are carried on. All of them stay zero
but the line of the source, so the invariant is that line alone.
-/

namespace ScriptLoader.SourceMap

variable {c : Char} {rest : List Char} {groups : List (List Char)}

/-! ## Numbers -/

/-- The integer with its sign in the lowest bit of a code and its magnitude above. -/
def ofCode (code : Nat) : Int :=
  if code % 2 = 0 then ((code / 2 : Nat) : Int) else -((code / 2 : Nat) : Int)

/-- The integers that digits stand for. Of the one that is being read there is a `value` so far, and
the `weight` of its next five bits. -/
def readNumbers : (weight value : Nat) → List Char → Option (List Int)
  | weight, _, [] => if weight = 1 then some [] else none
  | weight, value, c :: rest => do
    let digit ← Base64.value? c
    let value := value + weight * (digit % 32)
    if digit < 32 then (readNumbers 1 0 rest).map (ofCode value :: ·)
    else readNumbers (weight * 32) value rest

/-- The digits of a number are read, whatever part of it has been read before. -/
theorem readNumbers_vlqDigits {budget value : Nat} (h : value < 32 ^ (budget + 1))
    (weight before : Nat) (rest : List Char) :
    readNumbers weight before (vlqDigits budget value ++ rest)
      = (readNumbers 1 0 rest).map (ofCode (before + weight * value) :: ·) := by
  induction budget generalizing value weight before with
  | zero =>
    have hlow : value % 32 = value := by omega
    rw [vlqDigits, List.singleton_append, readNumbers, Base64.value?_digit (by omega)]
    simp only [Option.bind_eq_bind, Option.bind_some]
    rw [if_pos (by omega), hlow, hlow]
  | succ budget ih =>
    rw [vlqDigits]
    split_ifs with hlast
    · have hlow : value % 32 = value := by omega
      rw [List.singleton_append, readNumbers, Base64.value?_digit (by omega)]
      simp only [Option.bind_eq_bind, Option.bind_some]
      rw [if_pos hlast, hlow]
    · have hdigit : (32 + value % 32) % 32 = value % 32 := by omega
      have hvalue : before + weight * (value % 32) + weight * 32 * (value / 32)
          = before + weight * value := by
        rw [Nat.add_assoc, Nat.mul_assoc, ← Nat.mul_add, Nat.mod_add_div]
      rw [List.cons_append, readNumbers, Base64.value?_digit (by omega)]
      simp only [Option.bind_eq_bind, Option.bind_some]
      rw [if_neg (by omega), hdigit, ih (by rw [Nat.pow_succ] at h; omega), hvalue]

/-- **An integer is read back**, with the integers after it. -/
theorem readNumbers_vlq (n : Int) (rest : List Char) :
    readNumbers 1 0 (vlq n ++ rest) = (readNumbers 1 0 rest).map (n :: ·) := by
  have hcode (code : Nat) : code < 32 ^ (code + 1) :=
    Nat.lt_of_succ_lt (Nat.lt_pow_self (by decide))
  have hn : ofCode (2 * n.natAbs + if n < 0 then 1 else 0) = n := by
    rw [ofCode]
    split_ifs <;> omega
  rw [vlq, readNumbers_vlqDigits (hcode _), Nat.zero_add, Nat.one_mul, hn]

theorem isSome_value?_of_mem_vlq {n : Int} (h : c ∈ vlq n) : (Base64.value? c).isSome := by
  have hdigits (budget value : Nat) (hc : c ∈ vlqDigits budget value) :
      (Base64.value? c).isSome := by
    induction budget generalizing value with
    | zero =>
      rw [List.mem_singleton.mp hc, Base64.value?_digit (by omega)]
      rfl
    | succ budget ih =>
      rw [vlqDigits] at hc
      split_ifs at hc with hlast
      · rw [List.mem_singleton.mp hc, Base64.value?_digit (by omega)]
        rfl
      · rcases List.mem_cons.mp hc with rfl | hc
        · rw [Base64.value?_digit (by omega)]
          rfl
        · exact ih _ hc
  exact hdigits _ _ h

theorem isSome_value?_of_mem_segment {lines : Int} (h : c ∈ segment lines) :
    (Base64.value? c).isSome := by
  simp only [segment, List.mem_append] at h
  rcases h with ((h | h) | h) | h
  all_goals exact isSome_value?_of_mem_vlq h

/-! ## The reader -/

/-- A place in a source, with the name that it had there. -/
structure Origin where
  source : Int
  line : Int
  column : Int
  name : Option Int
  deriving DecidableEq

/-- A place in the generated text, and where it comes from. Lines are counted from zero. -/
structure Segment where
  line : Nat
  column : Int
  origin : Option Origin
  deriving DecidableEq

/-- The fields of the last segment that had them. -/
structure Cursor where
  column : Int := 0
  source : Int := 0
  line : Int := 0
  sourceColumn : Int := 0
  name : Int := 0

/-- The segment of a generated line whose fields are given relative to those before. -/
def Cursor.read (cursor : Cursor) (generated : Nat) : List Int → Option (Cursor × Segment)
  | [column] =>
    let cursor := { cursor with column := cursor.column + column }
    some (cursor, ⟨generated, cursor.column, none⟩)
  | [column, source, line, sourceColumn] =>
    let cursor := { cursor with
      column := cursor.column + column
      source := cursor.source + source
      line := cursor.line + line
      sourceColumn := cursor.sourceColumn + sourceColumn }
    some (cursor, ⟨generated, cursor.column,
      some ⟨cursor.source, cursor.line, cursor.sourceColumn, none⟩⟩)
  | [column, source, line, sourceColumn, name] =>
    let cursor :=
      ⟨cursor.column + column, cursor.source + source, cursor.line + line,
        cursor.sourceColumn + sourceColumn, cursor.name + name⟩
    some (cursor, ⟨generated, cursor.column,
      some ⟨cursor.source, cursor.line, cursor.sourceColumn, some cursor.name⟩⟩)
  | _ => none

def readSegments (generated : Nat) (cursor : Cursor) :
    List (List Char) → Option (Cursor × List Segment)
  | [] => some (cursor, [])
  | text :: texts => do
    let numbers ← readNumbers 1 0 text
    let (cursor, segment) ← cursor.read generated numbers
    let (cursor, segments) ← readSegments generated cursor texts
    some (cursor, segment :: segments)

/-- The segments of a group, which may be empty. -/
def readGroup (generated : Nat) (cursor : Cursor) (group : List Char) :
    Option (Cursor × List Segment) :=
  readSegments generated { cursor with column := 0 }
    (if group.isEmpty then [] else fieldsAt ',' group)

/-- The segments of groups, one group for each generated line. -/
def readGroups (generated : Nat) (cursor : Cursor) : List (List Char) → Option (List Segment)
  | [] => some []
  | group :: groups => do
    let (cursor, segments) ← readGroup generated cursor group
    let more ← readGroups (generated + 1) cursor groups
    some (segments ++ more)

def readMappings (mappings : List Char) : Option (List Segment) :=
  readGroups 0 {} (fieldsAt ';' mappings)

/-! ## Reading the groups of lines -/

/-- The segment for the start of a generated line and that of a line of the only source. -/
def Segment.ofLine (generated : Nat) (line : Int) : Segment :=
  ⟨generated, 0, some ⟨0, line, 0, none⟩⟩

theorem readGroups_nil (generated : Nat) (line : Int) :
    readGroups generated { line } ([] :: groups) = readGroups (generated + 1) { line } groups := by
  change (readGroups (generated + 1) { line } groups).bind _ = _
  cases readGroups (generated + 1) { line } groups <;> rfl

/-- A line is read, and its number is carried on. -/
theorem readGroups_segment (generated : Nat) (line lines : Int) :
    readGroups generated { line } (segment lines :: groups)
      = (readGroups (generated + 1) { line := line + lines } groups).map
        (.ofLine generated (line + lines) :: ·) := by
  have hcomma : ',' ∉ segment lines := fun hmem ↦
    absurd (isSome_value?_of_mem_segment hmem) (by decide)
  have hnumbers : readNumbers 1 0 (segment lines) = some [0, 0, lines, 0] := by
    rw [segment, List.append_assoc, List.append_assoc, readNumbers_vlq, readNumbers_vlq,
      readNumbers_vlq, ← List.append_nil (vlq 0), readNumbers_vlq]
    rfl
  have hne : (segment lines).isEmpty = false := by
    rw [List.isEmpty_eq_false_iff]
    intro heq
    rw [heq] at hnumbers
    cases hnumbers
  have hgroup : readGroup generated { line } (segment lines)
      = some ({ line := line + lines }, [.ofLine generated (line + lines)]) := by
    rw [readGroup, hne, if_neg (by decide), fieldsAt_of_not_mem hcomma, readSegments, hnumbers]
    rfl
  rw [readGroups, hgroup]
  change (readGroups (generated + 1) { line := line + lines } groups).bind _ = _
  cases readGroups (generated + 1) { line := line + lines } groups <;> rfl

theorem readGroups_replicate (generated count : Nat) (line : Int) :
    readGroups generated { line } (List.replicate count (segment 1)) =
      some ((List.range count).map fun (k : Nat) ↦ .ofLine (generated + k) (line + 1 + k)) := by
  induction count generalizing generated line with
  | zero => rfl
  | succ count ih =>
    rw [List.replicate_succ, readGroups_segment, ih, List.range_succ_eq_map, List.map_cons,
      List.map_map, Option.map_some]
    congr 2
    · simp
    · apply List.map_congr_left
      intro k _
      simp only [Function.comp_apply, Nat.succ_eq_add_one, Nat.cast_add, Nat.cast_one]
      congr 1 <;> omega

/-- The groups for lines in order. -/
def groupsOf : (count : Nat) → List (List Char)
  | 0 => [[]]
  | count + 1 => segment 0 :: List.replicate count (segment 1)

theorem fieldsAt_lineGroups (count : Nat) : fieldsAt ';' (lineGroups count) = groupsOf count := by
  have hsemicolon (lines : Int) : ';' ∉ segment lines := fun hmem ↦
    absurd (isSome_value?_of_mem_segment hmem) (by decide)
  fun_induction lineGroups count with
  | case1 => rfl
  | case2 => exact fieldsAt_of_not_mem (hsemicolon 0)
  | case3 count ih =>
    rw [fieldsAt_append, ih, fieldsAt_of_not_mem (hsemicolon 1), groupsOf, groupsOf,
      List.replicate_succ', List.cons_append]

theorem readGroups_mappings (skipped generated count : Nat) :
    readGroups generated {} (fieldsAt ';' (mappings skipped count)) =
      some ((List.range count).map fun (k : Nat) ↦ .ofLine (generated + skipped + k) k) := by
  rw [mappings]
  induction skipped generalizing generated with
  | zero =>
    rw [List.replicate_zero, List.nil_append, fieldsAt_lineGroups]
    cases count with
    | zero => rfl
    | succ count =>
      rw [groupsOf, readGroups_segment, readGroups_replicate, List.range_succ_eq_map, List.map_cons,
        List.map_map, Option.map_some]
      congr 2
      apply List.map_congr_left
      intro k _
      simp only [Function.comp_apply, Nat.succ_eq_add_one, Nat.cast_add, Nat.cast_one]
      congr 1 <;> omega
  | succ skipped ih =>
    rw [List.replicate_succ, List.cons_append, fieldsAt, if_pos rfl, readGroups_nil, ih]
    congr 3
    funext k
    congr 1
    omega

/-- **Mappings are read back**: there is one segment for each line that comes from the source, and
none for those before. -/
theorem readMappings_mappings (skipped count : Nat) : readMappings (mappings skipped count) =
    some ((List.range count).map fun (k : Nat) ↦ .ofLine (skipped + k) k) := by
  rw [readMappings, readGroups_mappings, Nat.zero_add]

end ScriptLoader.SourceMap
