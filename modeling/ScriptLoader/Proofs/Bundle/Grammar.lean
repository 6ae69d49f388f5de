import Mathlib.Algebra.Group.Nat.Defs
import ScriptLoader.Loader.Creation

/-!
# The grammar of bundles

A bundle is a header and then pieces, each of which is cut into a marker, a length and a payload by
the first two semicolons and by the length. The grammar says only how pieces look; it does not say
how to find them. The reader does, and it accepts a text exactly when the text has such pieces.

A length need not be written in the shortest way: a plus sign and zeros may lead. So a piece is a
segment together with the numeral that its length is written with. With the numerals there is no
choice left, and a text has at most one list of pieces.

## Lengths

The grammar counts the code units that the encoding of a payload really has, while the reader adds
up the widths of its characters.
-/

namespace ScriptLoader

/-! ## Cutting texts -/

theorem splitOnce_eq_some_iff {separator : Char} {cs before after : List Char} :
    splitOnce separator cs = some (before, after) ↔
      cs = before ++ separator :: after ∧ separator ∉ before := by
  induction cs generalizing before with
  | nil => simp [splitOnce]
  | cons c cs ih =>
    rw [splitOnce]
    by_cases hc : c = separator
    · subst hc
      rw [if_pos rfl]
      cases before with
      | nil => simp [eq_comm]
      | cons b before =>
        simp only [Option.some.injEq, Prod.mk.injEq, List.nil_eq, reduceCtorEq, false_and,
          List.cons_append, List.cons.injEq, List.mem_cons, not_or, false_iff]
        rintro ⟨⟨rfl, -⟩, hne, -⟩
        exact hne rfl
    · rw [if_neg hc, Option.map_eq_some_iff]
      cases before with
      | nil => simp [hc]
      | cons b before =>
        constructor
        · rintro ⟨⟨before', after'⟩, hsplit, heq⟩
          obtain ⟨⟨rfl, rfl⟩, rfl⟩ : (c = b ∧ before' = before) ∧ after' = after := by
            simpa using heq
          obtain ⟨rfl, hbefore⟩ := ih.mp hsplit
          exact ⟨rfl, by simp [hbefore, Ne.symm hc]⟩
        · rintro ⟨heq, hbefore⟩
          obtain ⟨rfl, rfl⟩ := List.cons.inj heq
          rw [List.mem_cons, not_or] at hbefore
          exact ⟨(before, after), ih.mpr ⟨rfl, hbefore.2⟩, rfl⟩

/-- A text is cut at the first separator in one way only. -/
theorem append_separator_inj {separator : Char} {before before' after after' : List Char}
    (hbefore : separator ∉ before) (hbefore' : separator ∉ before')
    (h : before ++ separator :: after = before' ++ separator :: after') :
    before = before' ∧ after = after' := by
  have hsplit := splitOnce_eq_some_iff.mpr ⟨h, hbefore'⟩
  rw [splitOnce_eq_some_iff.mpr ⟨rfl, hbefore⟩] at hsplit
  simpa using hsplit

theorem dropStart?_eq_some_iff {start cs rest : List Char} :
    dropStart? start cs = some rest ↔ cs = start ++ rest := by
  induction start generalizing cs with
  | nil => simp [dropStart?]
  | cons s start ih =>
    cases cs with
    | nil => simp [dropStart?]
    | cons c cs =>
      rw [dropStart?, List.cons_append, List.cons.injEq]
      by_cases hs : s = c
      · rw [if_pos hs, ih]
        simp [hs]
      · rw [if_neg hs]
        simp [Ne.symm hs]

namespace Utf16

theorem width_pos (c : Char) : 0 < width c := by
  rw [width]
  split <;> decide

theorem length_ofChar (c : Char) : (ofChar c).length = width c := by
  rw [ofChar, width]
  split <;> rfl

theorem length_ofChars (cs : List Char) : (ofChars cs).length = length cs := by
  induction cs with
  | nil => rfl
  | cons c cs ih =>
    rw [ofChars, List.flatMap_cons, List.length_append, length_ofChar, ← ofChars, ih, length]

end Utf16

namespace Bundle

/-! ## Numerals -/

/-- A numeral denotes a number: it is an optional plus sign and some digits. -/
def Denotes (numeral : List Char) (number : Nat) : Prop :=
  ∃ digits, (numeral = digits ∨ numeral = '+' :: digits) ∧ digits ≠ [] ∧
    (∀ c ∈ digits, c.isDigit = true) ∧ Nat.ofDigitChars 10 digits 0 = number

theorem digitsValue_eq (digits : List Char) :
    digitsValue digits = Nat.ofDigitChars 10 digits 0 := by
  rw [digitsValue, Nat.ofDigitChars]
  exact congrArg (List.foldl · 0 digits) (by funext value c; rw [Nat.mul_comm])

/-- The digits of a field are what follows a plus sign, if it starts with one. -/
private theorem exists_digits (field : List Char) :
    ∃ digits, (field = digits ∨ field = '+' :: digits) ∧
      (∀ other, (∀ c ∈ other, c.isDigit = true) → field = other ∨ field = '+' :: other →
        other = digits) ∧
      readLength? field =
        if digits.isEmpty || !digits.all Char.isDigit then none
        else if digitsValue digits < lengthBound then some (digitsValue digits) else none := by
  -- a sign is dropped once, and it is no digit, so only the rest can be digits
  rcases field with _ | ⟨c, field⟩
  · exact ⟨[], .inl rfl, by simp, rfl⟩
  · by_cases hc : c = '+'
    · subst hc
      refine ⟨field, .inr rfl, fun other hdigits hother ↦ ?_, rfl⟩
      rcases hother with rfl | heq
      · exact absurd (hdigits '+' List.mem_cons_self) (by decide)
      · exact (List.cons.inj heq).2.symm
    · refine ⟨c :: field, .inl rfl, fun other _ hother ↦ ?_, ?_⟩
      · rcases hother with heq | heq
        · exact heq.symm
        · exact absurd (List.cons.inj heq).1 hc
      · rw [readLength?]
        exact fun rest heq ↦ hc (List.cons.inj heq).1

namespace Denotes

variable {numeral : List Char} {number number' : Nat}

theorem inj (h : Denotes numeral number) (h' : Denotes numeral number') : number = number' := by
  obtain ⟨_, -, hunique, -⟩ := exists_digits numeral
  obtain ⟨digits, hnumeral, -, hdigits, rfl⟩ := h
  obtain ⟨digits', hnumeral', -, hdigits', rfl⟩ := h'
  rw [hunique digits hdigits hnumeral, hunique digits' hdigits' hnumeral']

theorem notMem_semicolon (h : Denotes numeral number) : ';' ∉ numeral := by
  obtain ⟨digits, hnumeral, -, hdigits, -⟩ := h
  have hnot : ';' ∉ digits := fun hmem ↦ absurd (hdigits ';' hmem) (by decide)
  rcases hnumeral with rfl | rfl
  · exact hnot
  · simpa using hnot

/-- The shortest numeral of a number has no sign. -/
theorem toDigits (number : Nat) : Denotes (Nat.toDigits 10 number) number :=
  ⟨_, .inl rfl, Nat.toDigits_ne_nil,
    fun _ ↦ Nat.isDigit_of_mem_toDigits (by decide) (by decide), Nat.ofDigitChars_ten_toDigits⟩

end Denotes

theorem readLength?_eq_some_iff {field : List Char} {length : Nat} :
    readLength? field = some length ↔ Denotes field length ∧ length < 2 ^ 64 := by
  obtain ⟨digits, hfield, hunique, hread⟩ := exists_digits field
  rw [hread]
  constructor
  · intro h
    split at h
    next => cases h
    next hdigits =>
      split at h
      next hbound =>
        obtain rfl := Option.some.inj h
        simp only [Bool.or_eq_true, List.isEmpty_iff, Bool.not_eq_true', not_or,
          Bool.not_eq_false, List.all_eq_true] at hdigits
        exact ⟨⟨digits, hfield, hdigits.1, hdigits.2, (digitsValue_eq digits).symm⟩, hbound⟩
      next => cases h
  · rintro ⟨⟨other, hother, hne, hdigits, rfl⟩, hbound⟩
    obtain rfl := hunique other hdigits hother
    have hgood : (other.isEmpty || !other.all Char.isDigit) = false := by
      simpa [List.isEmpty_iff, hne] using hdigits
    rw [hgood, digitsValue_eq, if_neg (by decide), if_pos (by exact hbound)]

/-! ## Payloads -/

private theorem map_eq_ok_iff {ε α β : Type} {result : Except ε α} {f : α → β} {b : β} :
    result.map f = .ok b ↔ ∃ a, result = .ok a ∧ f a = b := by
  cases result <;> simp [Except.map]

private theorem bind_eq_ok_iff {ε α β : Type} {first : Except ε α} {second : α → Except ε β}
    {b : β} :
    (first >>= second) = .ok b ↔ ∃ a, first = .ok a ∧ second a = .ok b := by
  cases first <;> simp [bind, Except.bind]

private theorem takeUnits_go_eq_ok_iff {count taken : Nat} {cs payload rest : List Char} :
    takeUnits.go count taken cs = .ok (payload, rest) ↔
      cs = payload ++ rest ∧ taken + Utf16.length payload = count := by
  induction cs generalizing taken payload with
  | nil =>
    rw [takeUnits.go]
    cases payload <;> split <;> simp_all [Utf16.length, eq_comm]
  | cons c cs ih =>
    -- the cut is here, or inside the next character, or behind it
    have hwidth := Utf16.width_pos c
    rw [takeUnits.go]
    by_cases htaken : taken = count
    · rw [if_pos htaken]
      cases payload with
      | nil => simp [Utf16.length, htaken, eq_comm]
      | cons d payload =>
        simp only [Except.ok.injEq, Prod.mk.injEq, List.nil_eq, reduceCtorEq, false_and,
          List.cons_append, List.cons.injEq, Utf16.length, false_iff]
        rintro ⟨⟨rfl, -⟩, hlength⟩
        omega
    rw [if_neg htaken]
    by_cases hsplit : count < taken + Utf16.width c
    · rw [if_pos hsplit]
      cases payload with
      | nil => simp [Utf16.length, htaken]
      | cons d payload =>
        simp only [reduceCtorEq, List.cons_append, List.cons.injEq, Utf16.length, false_iff]
        rintro ⟨⟨rfl, -⟩, hlength⟩
        omega
    rw [if_neg hsplit, map_eq_ok_iff]
    cases payload with
    | nil => simp [Utf16.length, htaken]
    | cons d payload =>
      rw [List.cons_append, List.cons.injEq, Utf16.length, ← Nat.add_assoc]
      constructor
      · rintro ⟨⟨payload', rest'⟩, htake, heq⟩
        obtain ⟨⟨rfl, rfl⟩, rfl⟩ : (c = d ∧ payload' = payload) ∧ rest' = rest := by
          simpa using heq
        obtain ⟨rfl, hlength⟩ := ih.mp htake
        exact ⟨⟨rfl, rfl⟩, hlength⟩
      · rintro ⟨⟨rfl, rfl⟩, hlength⟩
        exact ⟨(payload, rest), ih.mpr ⟨rfl, hlength⟩, rfl⟩

theorem takeUnits_eq_ok_iff {count : Nat} {cs payload rest : List Char} :
    takeUnits count cs = .ok (payload, rest) ↔
      cs = payload ++ rest ∧ Utf16.length payload = count := by
  rw [takeUnits, takeUnits_go_eq_ok_iff, Nat.zero_add]

/-! ## Markers -/

theorem Marker.ofTag?_eq_some_iff {tag : List Char} {marker : Marker} :
    ofTag? tag = some marker ↔ tag = marker.tag := by
  constructor
  · intro h
    rw [ofTag?.eq_def] at h
    split at h <;> cases h <;> rfl
  · rintro rfl
    cases marker <;> rfl

theorem Marker.notMem_semicolon (marker : Marker) : ';' ∉ marker.tag := by
  cases marker <;> decide

/-! ## Pieces -/

/-- A segment as it is written: with a numeral of its length. -/
structure Piece extends Segment where
  numeral : List Char
  deriving DecidableEq, Repr

namespace Piece

def write (piece : Piece) : List Char :=
  piece.marker.tag ++ ';' :: piece.numeral ++ ';' :: piece.payload

def units (piece : Piece) : Nat := (Utf16.ofChars piece.payload).length

/-- The numeral says how long the payload is, which is shorter than `2 ^ 64` code units. -/
structure IsSound (piece : Piece) : Prop where
  denotes : Denotes piece.numeral piece.units
  units_lt : piece.units < 2 ^ 64

theorem write_append (piece : Piece) (rest : List Char) :
    piece.write ++ rest =
      piece.marker.tag ++ ';' :: (piece.numeral ++ ';' :: (piece.payload ++ rest)) := by
  simp [write]

theorem length_write_pos (piece : Piece) : 0 < piece.write.length := by
  rw [write, List.append_assoc, List.length_append, List.length_append, List.length_cons]
  omega

theorem eq_nil_of_flatMap_write {pieces : List Piece} (h : pieces.flatMap write = []) :
    pieces = [] := by
  refine List.eq_nil_iff_forall_not_mem.mpr fun piece hpiece ↦ ?_
  have hpos := piece.length_write_pos
  rw [List.flatMap_eq_nil_iff.mp h piece hpiece] at hpos
  exact absurd hpos (Nat.lt_irrefl 0)

/-- What follows a piece does not matter for where it ends. -/
theorem write_append_inj {piece piece' : Piece} (h : Denotes piece.numeral piece.units)
    (h' : Denotes piece'.numeral piece'.units) {rest rest' : List Char}
    (heq : piece.write ++ rest = piece'.write ++ rest') : piece = piece' ∧ rest = rest' := by
  obtain ⟨⟨marker, payload⟩, numeral⟩ := piece
  obtain ⟨⟨marker', payload'⟩, numeral'⟩ := piece'
  -- the marker and the numeral end before a semicolon, and the numeral tells the end of the payload
  rw [write_append, write_append] at heq
  obtain ⟨htag, heq⟩ := append_separator_inj marker.notMem_semicolon marker'.notMem_semicolon heq
  obtain ⟨hnumeral, heq⟩ := append_separator_inj h.notMem_semicolon h'.notMem_semicolon heq
  obtain rfl : numeral = numeral' := hnumeral
  obtain rfl : marker = marker' :=
    Option.some.inj ((Marker.ofTag?_eq_some_iff.mpr rfl).symm.trans
      (Marker.ofTag?_eq_some_iff.mpr htag))
  have hlength : Utf16.length payload = Utf16.length payload' := by
    rw [← Utf16.length_ofChars, ← Utf16.length_ofChars]
    exact h.inj h'
  have htake := takeUnits_eq_ok_iff.mpr ⟨heq, hlength.symm⟩
  rw [takeUnits_eq_ok_iff.mpr ⟨rfl, rfl⟩] at htake
  simpa using htake

/-- A text is cut into pieces in one way only. -/
theorem flatMap_write_inj {pieces pieces' : List Piece}
    (h : ∀ piece ∈ pieces, Denotes piece.numeral piece.units)
    (h' : ∀ piece ∈ pieces', Denotes piece.numeral piece.units)
    (heq : pieces.flatMap write = pieces'.flatMap write) : pieces = pieces' := by
  induction pieces generalizing pieces' with
  | nil => exact (eq_nil_of_flatMap_write heq.symm).symm
  | cons piece pieces ih =>
    rcases pieces' with _ | ⟨piece', pieces'⟩
    · exact eq_nil_of_flatMap_write heq
    obtain ⟨hpiece, hpieces⟩ := List.forall_mem_cons.mp h
    obtain ⟨hpiece', hpieces'⟩ := List.forall_mem_cons.mp h'
    rw [List.flatMap_cons, List.flatMap_cons] at heq
    obtain ⟨rfl, hrest⟩ := write_append_inj hpiece hpiece' heq
    rw [ih hpieces hpieces' hrest]

end Piece

/-! ## Reading -/

theorem readSegment_eq_ok_iff {cs rest : List Char} {segment : Segment} :
    readSegment cs = .ok (segment, rest) ↔
      ∃ piece : Piece, piece.IsSound ∧ piece.toSegment = segment ∧ cs = piece.write ++ rest := by
  rw [readSegment]
  constructor
  · -- what each of the readers has taken off the text is a part of the piece
    intro h
    split at h
    next tag afterTag htag =>
      obtain ⟨rfl, -⟩ := splitOnce_eq_some_iff.mp htag
      split at h
      next numeral afterNumeral hnumeral =>
        obtain ⟨rfl, -⟩ := splitOnce_eq_some_iff.mp hnumeral
        split at h
        next count hcount =>
          obtain ⟨⟨payload, rest'⟩, htake, hmarker⟩ := bind_eq_ok_iff.mp h
          obtain ⟨rfl, rfl⟩ := takeUnits_eq_ok_iff.mp htake
          rcases hknown : Marker.ofTag? tag with _ | marker
          · rw [hknown] at hmarker
            cases hmarker
          · obtain rfl := Marker.ofTag?_eq_some_iff.mp hknown
            rw [hknown] at hmarker
            cases hmarker
            refine ⟨⟨⟨marker, payload⟩, numeral⟩, ?_, rfl,
              (Piece.write_append ⟨⟨marker, payload⟩, numeral⟩ rest).symm⟩
            rw [← Utf16.length_ofChars] at hcount
            exact ⟨(readLength?_eq_some_iff.mp hcount).1, (readLength?_eq_some_iff.mp hcount).2⟩
        next => cases h
      next => cases h
    next => cases h
  · rintro ⟨⟨⟨marker, payload⟩, numeral⟩, hsound, rfl, rfl⟩
    rw [Piece.write_append, splitOnce_eq_some_iff.mpr ⟨rfl, marker.notMem_semicolon⟩]
    dsimp only
    rw [splitOnce_eq_some_iff.mpr ⟨rfl, hsound.denotes.notMem_semicolon⟩]
    dsimp only
    rw [readLength?_eq_some_iff.mpr ⟨hsound.denotes, hsound.units_lt⟩]
    dsimp only
    rw [bind_eq_ok_iff]
    refine ⟨(payload, rest),
      takeUnits_eq_ok_iff.mpr ⟨rfl, (Utf16.length_ofChars payload).symm⟩, ?_⟩
    dsimp only
    rw [Marker.ofTag?_eq_some_iff.mpr rfl]
    rfl

private theorem readSegments_nil_eq_ok_iff {budget : Nat} {segments : List Segment} :
    readSegments budget [] = .ok segments ↔
      ∃ pieces : List Piece, (∀ piece ∈ pieces, piece.IsSound) ∧
        pieces.map Piece.toSegment = segments ∧ [] = pieces.flatMap Piece.write := by
  rw [readSegments]
  constructor
  · rintro ⟨⟩
    exact ⟨[], by simp, rfl, rfl⟩
  · rintro ⟨pieces, -, rfl, hempty⟩
    rw [Piece.eq_nil_of_flatMap_write hempty.symm]
    rfl

/-- Segments are read up to the end of a text if the budget lasts that long. -/
theorem readSegments_eq_ok_iff {budget : Nat} {cs : List Char} (hbudget : cs.length ≤ budget)
    {segments : List Segment} :
    readSegments budget cs = .ok segments ↔
      ∃ pieces : List Piece, (∀ piece ∈ pieces, piece.IsSound) ∧
        pieces.map Piece.toSegment = segments ∧ cs = pieces.flatMap Piece.write := by
  -- a piece takes one character at least, so what is left of the budget lasts for the rest
  induction budget generalizing cs segments with
  | zero =>
    obtain rfl := List.length_eq_zero_iff.mp (Nat.le_zero.mp hbudget)
    exact readSegments_nil_eq_ok_iff
  | succ budget ih =>
    rcases cs with _ | ⟨c, cs⟩
    · exact readSegments_nil_eq_ok_iff
    rw [readSegments, bind_eq_ok_iff]
    constructor
    · rintro ⟨⟨segment, rest⟩, hsegment, h⟩
      obtain ⟨piece, hsound, rfl, hcs⟩ := readSegment_eq_ok_iff.mp hsegment
      obtain ⟨segments, hsegments, h⟩ := bind_eq_ok_iff.mp h
      cases h
      have hrest : rest.length ≤ budget := by
        have hlength := congrArg List.length hcs
        rw [List.length_append] at hlength
        have := piece.length_write_pos
        omega
      obtain ⟨pieces, hpieces, rfl, rfl⟩ := (ih hrest).mp hsegments
      exact ⟨piece :: pieces, List.forall_mem_cons.mpr ⟨hsound, hpieces⟩, rfl, hcs⟩
    · rintro ⟨_ | ⟨piece, pieces⟩, hsound, rfl, hcs⟩
      · cases hcs
      obtain ⟨hpiece, hpieces⟩ := List.forall_mem_cons.mp hsound
      have hrest : (pieces.flatMap Piece.write).length ≤ budget := by
        have hlength := congrArg List.length hcs
        rw [List.flatMap_cons, List.length_append] at hlength
        have := piece.length_write_pos
        omega
      refine ⟨_, readSegment_eq_ok_iff.mpr ⟨piece, hpiece, rfl, hcs⟩, bind_eq_ok_iff.mpr ?_⟩
      exact ⟨_, (ih hrest).mpr ⟨pieces, hpieces, rfl, rfl⟩, rfl⟩

/-! ## Bundles -/

/-- A text is the header and then some pieces. -/
structure Consists (contents : List Char) (pieces : List Piece) : Prop where
  sound : ∀ piece ∈ pieces, piece.IsSound
  text : contents = header ++ pieces.flatMap Piece.write

theorem Consists.unique {contents : List Char} {pieces pieces' : List Piece}
    (h : Consists contents pieces) (h' : Consists contents pieces') : pieces = pieces' :=
  Piece.flatMap_write_inj (fun piece hpiece ↦ (h.sound piece hpiece).denotes)
    (fun piece hpiece ↦ (h'.sound piece hpiece).denotes)
    (List.append_cancel_left (h.text.symm.trans h'.text))

/-- The payload of the last piece with a marker. -/
def last? (marker : Marker) (pieces : List Piece) : Option String :=
  (pieces.reverse.find? (·.marker = marker)).map fun piece ↦ String.ofList piece.payload

/-- The references, in order, the last source map and the last text. -/
structure MakesUp (pieces : List Piece) (b : Bundle) : Prop where
  dependencies : b.dependencies = pieces.filterMap (·.reference?)
  sourceMap : b.sourceMap = last? .sourceMap pieces
  text : some b.text = last? .text pieces

theorem lastPayload?_map_toSegment (marker : Marker) (pieces : List Piece) :
    lastPayload? marker (pieces.map Piece.toSegment) = last? marker pieces := by
  rw [lastPayload?, last?, List.getLast?_filter, ← List.map_reverse, List.find?_map,
    Option.map_map]
  rfl

theorem ofSegments_eq_ok_iff {pieces : List Piece} {b : Bundle} :
    ofSegments (pieces.map Piece.toSegment) = .ok b ↔ MakesUp pieces b := by
  obtain ⟨dependencies, sourceMap, text⟩ := b
  rw [ofSegments, lastPayload?_map_toSegment, lastPayload?_map_toSegment, List.filterMap_map]
  cases htext : last? .text pieces with
  | none =>
    simp only [reduceCtorEq, false_iff]
    exact fun h ↦ by simpa [htext] using h.text
  | some text' =>
    simp only [Except.ok.injEq, mk.injEq]
    constructor
    · rintro ⟨rfl, rfl, rfl⟩
      exact ⟨rfl, rfl, htext.symm⟩
    · rintro ⟨hdependencies, hmap, h⟩
      rw [htext] at h
      exact ⟨hdependencies.symm, hmap.symm, (Option.some.inj h).symm⟩

theorem read_eq_ok_iff {contents : List Char} {b : Bundle} :
    read contents = .ok b ↔ ∃ pieces, Consists contents pieces ∧ MakesUp pieces b := by
  rw [read]
  constructor
  · intro h
    split at h
    next => cases h
    next body hbody =>
      obtain ⟨segments, hsegments, hmade⟩ := bind_eq_ok_iff.mp h
      obtain ⟨pieces, hsound, rfl, rfl⟩ := (readSegments_eq_ok_iff (Nat.le_refl _)).mp hsegments
      exact ⟨pieces, ⟨hsound, dropStart?_eq_some_iff.mp hbody⟩, ofSegments_eq_ok_iff.mp hmade⟩
  · rintro ⟨pieces, ⟨hsound, rfl⟩, hmakes⟩
    rw [dropStart?_eq_some_iff.mpr rfl]
    exact bind_eq_ok_iff.mpr ⟨_, (readSegments_eq_ok_iff (Nat.le_refl _)).mpr
      ⟨pieces, hsound, rfl, rfl⟩, ofSegments_eq_ok_iff.mpr hmakes⟩

theorem isSome_last?_iff {marker : Marker} {pieces : List Piece} :
    (last? marker pieces).isSome ↔ ∃ piece ∈ pieces, piece.marker = marker := by
  simp [last?]

/-- **The reader accepts exactly its grammar.**

* A text is read if and only if it is the header and then pieces, one of which at least is a text.
* It has at most one such list of pieces.
* What has been read holds the references of these pieces in order, the payload of the last source
  map, if there is one, and that of the last text.
* Any other text is a malformed bundle, and it makes no unit. -/
theorem read_exact (contents : List Char) :
    ((∃ b, read contents = .ok b) ↔
        ∃ pieces, Consists contents pieces ∧ ∃ piece ∈ pieces, piece.marker = .text) ∧
      (∀ pieces pieces', Consists contents pieces → Consists contents pieces' →
        pieces = pieces') ∧
      (∀ b pieces, read contents = .ok b → Consists contents pieces → MakesUp pieces b) ∧
      ((∃ b, read contents = .ok b) ∨ ∃ fault, read contents = .error fault ∧
        ∀ {ω χ : Type} (p : Platform ω χ) (l : Loader ω χ) (url : Url),
          l.createOfBundle p ⟨url, String.ofList contents⟩
            = (l, .error (.malformedBundle fault.message))) := by
  refine ⟨⟨?_, ?_⟩, fun _ _ ↦ Consists.unique, fun b pieces h hconsists ↦ ?_, ?_⟩
  · rintro ⟨b, h⟩
    obtain ⟨pieces, hconsists, hmakes⟩ := read_eq_ok_iff.mp h
    exact ⟨pieces, hconsists, isSome_last?_iff.mp (hmakes.text ▸ rfl)⟩
  · rintro ⟨pieces, hconsists, htext⟩
    obtain ⟨text, htext⟩ := Option.isSome_iff_exists.mp (isSome_last?_iff.mpr htext)
    exact ⟨⟨pieces.filterMap (·.reference?), last? .sourceMap pieces, text⟩,
      read_eq_ok_iff.mpr ⟨pieces, hconsists, rfl, rfl, htext.symm⟩⟩
  · obtain ⟨pieces', hconsists', hmakes⟩ := read_eq_ok_iff.mp h
    rwa [hconsists.unique hconsists']
  · cases hread : read contents with
    | ok b => exact .inl ⟨b, rfl⟩
    | error fault =>
      refine .inr ⟨fault, rfl, fun p l url ↦ ?_⟩
      rw [Loader.createOfBundle, String.toList_ofList, hread]

/-- A text of one piece, whose length is written with a sign and a leading zero. -/
theorem read_exact_signed :
    (∃ b, read "@STATIC;1.0;t;+02;𝄞".toList = .ok b) ∧
      ∀ pieces, Consists "@STATIC;1.0;t;+02;𝄞".toList pieces →
        pieces = [⟨⟨.text, ['𝄞']⟩, "+02".toList⟩] := by
  have hsound : Piece.IsSound ⟨⟨.text, ['𝄞']⟩, "+02".toList⟩ :=
    ⟨⟨"02".toList, .inr rfl, by decide, List.all_eq_true.mp rfl, rfl⟩, by decide⟩
  have hconsists : Consists "@STATIC;1.0;t;+02;𝄞".toList [⟨⟨.text, ['𝄞']⟩, "+02".toList⟩] :=
    ⟨by simpa using hsound, by decide⟩
  obtain ⟨haccepts, hunique, -⟩ := read_exact "@STATIC;1.0;t;+02;𝄞".toList
  exact ⟨haccepts.mpr ⟨_, hconsists, by simp⟩, fun pieces h ↦ hunique _ _ h hconsists⟩

end Bundle

end ScriptLoader
