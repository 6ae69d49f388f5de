import ScriptLoader.Proofs.Text.Base64
import ScriptLoader.SourceMap

/-!
# UTF-16 has one reading

A sequence of code units is text exactly if every surrogate in it belongs to a pair, and then it is
the text of one list of characters, whose bytes the conversion to UTF-8 gives.

What a unit means depends on its neighbour, so the proofs do not go through the units one by one. A
sequence is empty, or the units of a character come first, or a surrogate that stands alone; this is
an induction principle, `Utf16.induction`, and everything is shown along it.

## What is looked up

The conversion looks a character up by its code point, and it is prepared for code points that have
none: one beyond the last is replaced, and a surrogate fails. `scan` is the conversion with anything
else done there, and with errors that show. Whatever is done makes no difference, so it is never
done.
-/

namespace ScriptLoader.Utf16

variable {unit high low : UInt16} {units rest : List UInt16} {bytes : List UInt8} {c : Char}
  {cs : List Char}

/-! ## Surrogates -/

theorem isHigh_iff : isHigh unit = true ↔ 0xD800 ≤ unit.toNat ∧ unit.toNat ≤ 0xDBFF := by
  rw [isHigh, Bool.and_eq_true, decide_eq_true_iff, decide_eq_true_iff, UInt16.le_iff_toNat_le,
    UInt16.le_iff_toNat_le]
  rfl

theorem isLow_iff : isLow unit = true ↔ 0xDC00 ≤ unit.toNat ∧ unit.toNat ≤ 0xDFFF := by
  rw [isLow, Bool.and_eq_true, decide_eq_true_iff, decide_eq_true_iff, UInt16.le_iff_toNat_le,
    UInt16.le_iff_toNat_le]
  rfl

/-- Every surrogate belongs to a pair: a low one comes after a high one, and the other way round. -/
structure IsPaired (units : List UInt16) : Prop where
  high : ∀ {i unit}, units[i]? = some unit → isHigh unit = true →
    ∃ low, units[i + 1]? = some low ∧ isLow low = true
  low : ∀ {i unit}, units[i]? = some unit → isLow unit = true →
    ∃ j high, i = j + 1 ∧ units[j]? = some high ∧ isHigh high = true

/-- The first unit of a sequence is a surrogate without the other half of its pair. -/
def StartsAlone (unit : UInt16) (rest : List UInt16) : Prop :=
  isLow unit = true ∨ isHigh unit = true ∧ ∀ low ∈ rest.head?, isLow low = false

/-! ## Characters -/

theorem toNat_cases (c : Char) : c.toNat < 0xD800 ∨ 0xDFFF < c.toNat ∧ c.toNat < 0x110000 :=
  c.valid

theorem exists_char {codePoint : Nat} (h : codePoint.isValidChar) :
    ∃ c : Char, c.toNat = codePoint :=
  ⟨Char.ofNatAux codePoint h, rfl⟩

theorem ofChar_of_unit (hhigh : isHigh unit = false) (hlow : isLow unit = false) :
    ∃ c, ofChar c = [unit] ∧ c.toNat = unit.toNat := by
  have hlt := unit.toNat_lt
  rw [Bool.eq_false_iff, ne_eq, isHigh_iff] at hhigh
  rw [Bool.eq_false_iff, ne_eq, isLow_iff] at hlow
  have hvalid : unit.toNat.isValidChar := by
    unfold Nat.isValidChar
    omega
  obtain ⟨c, hc⟩ := exists_char hvalid
  refine ⟨c, ?_, hc⟩
  rw [ofChar, hc, if_pos hlt, UInt16.ofNat_toNat]

theorem ofChar_of_pair (hhigh : isHigh high = true) (hlow : isLow low = true) :
    ∃ c, ofChar c = [high, low] ∧ c.toNat = pairCodePoint high low := by
  rw [isHigh_iff] at hhigh
  rw [isLow_iff] at hlow
  have hvalid : (pairCodePoint high low).isValidChar := by
    unfold pairCodePoint Nat.isValidChar
    omega
  obtain ⟨c, hc⟩ := exists_char hvalid
  have hfirst : 0xD800 + (c.toNat - 0x10000) / 0x400 = high.toNat := by
    rw [hc, pairCodePoint]
    omega
  have hsecond : 0xDC00 + (c.toNat - 0x10000) % 0x400 = low.toNat := by
    rw [hc, pairCodePoint]
    omega
  refine ⟨c, ?_, hc⟩
  rw [ofChar, hfirst, hsecond, if_neg (by rw [hc, pairCodePoint]; omega), UInt16.ofNat_toNat,
    UInt16.ofNat_toNat]

theorem ofChar_cases (c : Char) :
    (∃ unit, ofChar c = [unit] ∧ isHigh unit = false ∧ isLow unit = false ∧
      c.toNat = unit.toNat) ∨
    ∃ high low, ofChar c = [high, low] ∧ isHigh high = true ∧ isLow low = true ∧
      c.toNat = pairCodePoint high low := by
  have hcases := toNat_cases c
  rw [ofChar]
  split
  next hsmall =>
    have hunit : (UInt16.ofNat c.toNat).toNat = c.toNat := by
      rw [UInt16.toNat_ofNat']
      omega
    refine .inl ⟨_, rfl, ?_, ?_, hunit.symm⟩
    · rw [Bool.eq_false_iff, ne_eq, isHigh_iff, hunit]
      omega
    · rw [Bool.eq_false_iff, ne_eq, isLow_iff, hunit]
      omega
  next hlarge =>
    have hhigh : (UInt16.ofNat (0xD800 + (c.toNat - 0x10000) / 0x400)).toNat
        = 0xD800 + (c.toNat - 0x10000) / 0x400 := by
      rw [UInt16.toNat_ofNat']
      omega
    have hlow : (UInt16.ofNat (0xDC00 + (c.toNat - 0x10000) % 0x400)).toNat
        = 0xDC00 + (c.toNat - 0x10000) % 0x400 := by
      rw [UInt16.toNat_ofNat']
      omega
    refine .inr ⟨_, _, rfl, ?_, ?_, ?_⟩
    · rw [isHigh_iff, hhigh]
      omega
    · rw [isLow_iff, hlow]
      omega
    · rw [pairCodePoint, hhigh, hlow]
      omega

/-- Units are read from the front: there are none left, or those of a character come first, or a
surrogate that stands alone. -/
@[elab_as_elim]
theorem induction {motive : List UInt16 → Prop} (nil : motive [])
    (char : ∀ c rest, motive rest → motive (ofChar c ++ rest))
    (alone : ∀ unit rest, StartsAlone unit rest → motive (unit :: rest)) (units : List UInt16) :
    motive units := by
  induction hlength : units.length using Nat.strong_induction_on generalizing units with
  | _ length ih =>
    subst hlength
    rcases units with _ | ⟨unit, rest⟩
    · exact nil
    cases hlow : isLow unit with
    | true => exact alone unit rest (.inl hlow)
    | false =>
      cases hhigh : isHigh unit with
      | false =>
        obtain ⟨c, hc, -⟩ := ofChar_of_unit hhigh hlow
        have hrest := ih rest.length (by simp) rest rfl
        simpa [hc] using char c rest hrest
      | true =>
        rcases rest with _ | ⟨low, rest⟩
        · exact alone unit [] (.inr ⟨hhigh, by simp⟩)
        cases hpair : isLow low with
        | false => exact alone unit (low :: rest) (.inr ⟨hhigh, by simpa using hpair⟩)
        | true =>
          obtain ⟨c, hc, -⟩ := ofChar_of_pair hhigh hpair
          have hrest := ih rest.length (by simp) rest rfl
          simpa [hc] using char c rest hrest

/-! ## Pairs -/

theorem isPaired_nil : IsPaired [] := ⟨by simp, by simp⟩

theorem not_isPaired_of_alone (h : StartsAlone unit rest) : ¬IsPaired (unit :: rest) := by
  intro hpaired
  rcases h with hlow | ⟨hhigh, hnext⟩
  · obtain ⟨j, high, hj, -⟩ := hpaired.low (i := 0) rfl hlow
    omega
  · obtain ⟨low, hlow, hpair⟩ := hpaired.high (i := 0) rfl hhigh
    rw [hnext low (by simpa [List.head?_eq_getElem?] using hlow)] at hpair
    cases hpair

theorem isPaired_cons (hhigh : isHigh unit = false) (hlow : isLow unit = false) :
    IsPaired (unit :: rest) ↔ IsPaired rest := by
  constructor
  · intro h
    refine ⟨fun {i _} hunit hsurrogate ↦ h.high (i := i + 1) hunit hsurrogate,
      fun {i other} hunit hsurrogate ↦ ?_⟩
    obtain ⟨j, first, hj, hfirst, hpair⟩ := h.low (i := i + 1) hunit hsurrogate
    obtain rfl : i = j := by omega
    cases i with
    | zero =>
      obtain rfl : unit = first := by simpa using hfirst
      rw [hhigh] at hpair
      cases hpair
    | succ i => exact ⟨i, first, rfl, hfirst, hpair⟩
  · intro h
    constructor
    · intro i other hunit hsurrogate
      cases i with
      | zero =>
        obtain rfl : unit = other := by simpa using hunit
        rw [hhigh] at hsurrogate
        cases hsurrogate
      | succ i => exact h.high (i := i) hunit hsurrogate
    · intro i other hunit hsurrogate
      cases i with
      | zero =>
        obtain rfl : unit = other := by simpa using hunit
        rw [hlow] at hsurrogate
        cases hsurrogate
      | succ i =>
        obtain ⟨j, first, rfl, hfirst, hpair⟩ := h.low (i := i) hunit hsurrogate
        exact ⟨j + 1, first, rfl, hfirst, hpair⟩

theorem isLow_of_isHigh (h : isHigh unit = true) : isLow unit = false := by
  rw [isHigh_iff] at h
  rw [Bool.eq_false_iff, ne_eq, isLow_iff]
  omega

theorem isPaired_cons_cons (hhigh : isHigh high = true) (hlow : isLow low = true) :
    IsPaired (high :: low :: rest) ↔ IsPaired rest := by
  have hnot : isHigh low = false := by
    by_contra hcontra
    rw [isLow_of_isHigh (Bool.eq_true_of_not_eq_false hcontra)] at hlow
    cases hlow
  constructor
  · intro h
    refine ⟨fun {i _} hunit hsurrogate ↦ h.high (i := i + 2) hunit hsurrogate,
      fun {i other} hunit hsurrogate ↦ ?_⟩
    obtain ⟨j, first, hj, hfirst, hpair⟩ := h.low (i := i + 2) hunit hsurrogate
    obtain rfl : i + 1 = j := by omega
    cases i with
    | zero =>
      obtain rfl : low = first := by simpa using hfirst
      rw [hnot] at hpair
      cases hpair
    | succ i => exact ⟨i, first, rfl, hfirst, hpair⟩
  · intro h
    constructor
    · intro i other hunit hsurrogate
      match i with
      | 0 => exact ⟨low, rfl, hlow⟩
      | 1 =>
        obtain rfl : low = other := by simpa using hunit
        rw [hnot] at hsurrogate
        cases hsurrogate
      | i + 2 => exact h.high (i := i) hunit hsurrogate
    · intro i other hunit hsurrogate
      match i with
      | 0 =>
        obtain rfl : high = other := by simpa using hunit
        rw [isLow_of_isHigh hhigh] at hsurrogate
        cases hsurrogate
      | 1 => exact ⟨0, high, rfl, rfl, hhigh⟩
      | i + 2 =>
        obtain ⟨j, first, rfl, hfirst, hpair⟩ := h.low (i := i) hunit hsurrogate
        exact ⟨j + 2, first, rfl, hfirst, hpair⟩

/-- The units of a character do not concern what comes after them. -/
theorem isPaired_ofChar_append (c : Char) : IsPaired (ofChar c ++ rest) ↔ IsPaired rest := by
  obtain ⟨unit, hc, hhigh, hlow, -⟩ | ⟨high, low, hc, hhigh, hlow, -⟩ := ofChar_cases c
  all_goals rw [hc]
  · exact isPaired_cons hhigh hlow
  · exact isPaired_cons_cons hhigh hlow

theorem isPaired_ofChars (cs : List Char) : IsPaired (ofChars cs) := by
  induction cs with
  | nil => exact isPaired_nil
  | cons c cs ih => exact (isPaired_ofChar_append c).mpr ih

/-- **Paired surrogates are text**, and no others are. -/
theorem isPaired_iff : IsPaired units ↔ ∃ cs, ofChars cs = units := by
  constructor
  · intro h
    induction units using induction with
    | nil => exact ⟨[], rfl⟩
    | char c rest ih =>
      obtain ⟨cs, rfl⟩ := ih ((isPaired_ofChar_append c).mp h)
      exact ⟨c :: cs, rfl⟩
    | alone unit rest halone => exact absurd h (not_isPaired_of_alone halone)
  · rintro ⟨cs, rfl⟩
    exact isPaired_ofChars cs

/-! ## The conversion -/

/-- The character at a code point, and what is done `otherwise`, when there is none. -/
def charAt {ε : Type} (otherwise : Nat → Except ε Char) (codePoint : Nat) : Except ε Char :=
  if h : codePoint.isValidChar then .ok (Char.ofNatAux codePoint h) else otherwise codePoint

/-- The conversion to UTF-8 with the error for a surrogate that stands alone, and with what is done
at a code point that has no character. -/
def scan {ε : Type} (malformed : ε) (otherwise : Nat → Except ε Char) :
    List UInt16 → Except ε (List UInt8)
  | [] => .ok []
  | unit :: rest =>
    if unit < 0x80 then (scan malformed otherwise rest).map (unit.toUInt8 :: ·)
    else if isHigh unit then
      match rest with
      | [] => .error malformed
      | low :: rest =>
        if isLow low then do
          let c ← charAt otherwise (pairCodePoint unit low)
          let bytes ← scan malformed otherwise rest
          .ok (String.utf8EncodeChar c ++ bytes)
        else .error malformed
    else if isLow unit then .error malformed
    else do
      let c ← charAt otherwise unit.toNat
      let bytes ← scan malformed otherwise rest
      .ok (String.utf8EncodeChar c ++ bytes)

theorem utf8EncodeChar_of_lt (h : c.toNat < 0x80) :
    String.utf8EncodeChar c = [UInt8.ofNat c.toNat] := by
  rw [String.utf8EncodeChar.eq_def]
  simp only [Char.toNat_val]
  rw [if_pos (by omega)]

section

variable {ε : Type} {malformed : ε} {otherwise : Nat → Except ε Char}

theorem charAt_toNat (c : Char) : charAt otherwise c.toNat = .ok c := by
  have hvalid : c.toNat.isValidChar := c.valid
  rw [charAt, dif_pos hvalid]
  rfl

theorem scan_char (c : Char) :
    scan malformed otherwise (ofChar c ++ rest)
      = (scan malformed otherwise rest).map (String.utf8EncodeChar c ++ ·) := by
  obtain ⟨unit, hc, hhigh, hlow, hunit⟩ | ⟨high, low, hc, hhigh, hlow, hpair⟩ := ofChar_cases c
  all_goals rw [hc]
  · rw [List.singleton_append, scan.eq_def]
    dsimp only
    rw [hhigh, hlow, ← hunit, charAt_toNat]
    split
    next hsmall =>
      have hascii : c.toNat < 0x80 := hunit ▸ UInt16.lt_iff_toNat_lt.mp hsmall
      rw [utf8EncodeChar_of_lt hascii, hunit]
      rfl
    next =>
      cases scan malformed otherwise rest <;> rfl
  · have hlarge : ¬high < 0x80 := by
      rw [isHigh_iff] at hhigh
      rw [UInt16.lt_iff_toNat_lt]
      simp only [UInt16.toNat_ofNat]
      omega
    rw [List.cons_append, List.singleton_append, scan.eq_def]
    dsimp only
    rw [if_neg hlarge, if_pos hhigh, if_pos hlow, ← hpair, charAt_toNat]
    cases scan malformed otherwise rest <;> rfl

theorem scan_alone (h : StartsAlone unit rest) :
    scan malformed otherwise (unit :: rest) = .error malformed := by
  have hlarge : ¬unit < 0x80 := by
    rw [StartsAlone, isLow_iff, isHigh_iff] at h
    rw [UInt16.lt_iff_toNat_lt]
    simp only [UInt16.toNat_ofNat]
    omega
  rw [scan.eq_def]
  dsimp only
  rw [if_neg hlarge]
  rcases h with hlow | ⟨hhigh, hnext⟩
  · have hhigh : isHigh unit = false := by
      by_contra hcontra
      rw [isLow_of_isHigh (Bool.eq_true_of_not_eq_false hcontra)] at hlow
      cases hlow
    rw [hhigh, hlow]
    rfl
  · rw [if_pos hhigh]
    rcases rest with _ | ⟨low, rest⟩
    · rfl
    · dsimp only
      rw [hnext low (by simp)]
      rfl

end

/-- What `toUtf8` does at a code point that has no character: it takes the replacement beyond the
last one, and fails at a surrogate. -/
def substitute (codePoint : Nat) : Except Unit Char :=
  if maxCodePoint < codePoint then .ok replacement else .error ()

theorem scalar?_eq (codePoint : Nat) :
    scalar? codePoint = (charAt substitute codePoint).toOption := by
  have hbound : maxCodePoint < codePoint → ¬codePoint.isValidChar := by
    unfold maxCodePoint Nat.isValidChar
    omega
  rw [scalar?, charAt, substitute]
  split <;> split <;> first | rfl | exact absurd ‹_› (hbound ‹_›)

/-- `toUtf8` is the conversion with its own substitute. -/
theorem toUtf8_eq_scan : toUtf8 units = (scan () substitute units).toOption := by
  -- the bytes of a character that is looked up come before those of the rest
  have hbytes (found : Except Unit Char) (scanned : Except Unit (List UInt8)) :
      (do
        let c ← found.toOption
        let bytes ← scanned.toOption
        some (String.utf8EncodeChar c ++ bytes)) =
      (do
        let c ← found
        let bytes ← scanned
        .ok (String.utf8EncodeChar c ++ bytes) : Except Unit (List UInt8)).toOption := by
    cases found <;> cases scanned <;> rfl
  fun_induction toUtf8 units with
  | case1 => rfl
  | case2 unit rest hsmall ih =>
    rw [scan.eq_def, ih]
    dsimp only
    rw [if_pos hsmall]
    cases scan () substitute rest <;> rfl
  | case3 unit hsmall hhigh =>
    rw [scan, if_neg hsmall, if_pos hhigh]
    rfl
  | case4 unit hsmall hhigh low rest hlow ih =>
    rw [scan, if_neg hsmall, if_pos hhigh, if_pos hlow, ih, scalar?_eq]
    exact hbytes _ _
  | case5 unit hsmall hhigh low rest hlow =>
    rw [scan, if_neg hsmall, if_pos hhigh, if_neg hlow]
    rfl
  | case6 unit rest hsmall hhigh hlow =>
    rw [scan.eq_def]
    dsimp only
    rw [if_neg hsmall, if_neg hhigh, if_pos hlow]
    rfl
  | case7 unit rest hsmall hhigh hlow ih =>
    rw [scan.eq_def, ih, scalar?_eq]
    dsimp only
    rw [if_neg hsmall, if_neg hhigh, if_neg hlow]
    exact hbytes _ _

theorem toUtf8_char (c : Char) :
    toUtf8 (ofChar c ++ rest) = (toUtf8 rest).map (String.utf8EncodeChar c ++ ·) := by
  rw [toUtf8_eq_scan, toUtf8_eq_scan, scan_char]
  cases scan () substitute rest <;> rfl

theorem toUtf8_alone (h : StartsAlone unit rest) : toUtf8 (unit :: rest) = none := by
  rw [toUtf8_eq_scan, scan_alone h]
  rfl

theorem toUtf8_ofChars (cs : List Char) : toUtf8 (ofChars cs) = some (Utf8.encode cs) := by
  induction cs with
  | nil => rfl
  | cons c cs ih =>
    rw [ofChars, List.flatMap_cons, toUtf8_char, ← ofChars, ih]
    rfl

/-- What is done where there is no character makes no difference. -/
theorem scan_eq {ε : Type} (malformed : ε) (otherwise : Nat → Except ε Char) (units : List UInt16) :
    scan malformed otherwise units = (toUtf8 units).elim (.error malformed) .ok := by
  induction units using induction with
  | nil => rfl
  | char c rest ih =>
    rw [scan_char, toUtf8_char, ih]
    cases toUtf8 rest <;> rfl
  | alone unit rest halone =>
    rw [scan_alone halone, toUtf8_alone halone]
    rfl

/-- The conversion gives the bytes of the text whose units it is given. -/
theorem toUtf8_eq_some_iff :
    toUtf8 units = some bytes ↔ ∃ cs, ofChars cs = units ∧ Utf8.encode cs = bytes := by
  constructor
  · intro h
    induction units using induction generalizing bytes with
    | nil =>
      obtain rfl : [] = bytes := Option.some.inj h
      exact ⟨[], rfl, rfl⟩
    | char c rest ih =>
      rw [toUtf8_char] at h
      obtain ⟨tail, htail, rfl⟩ := Option.map_eq_some_iff.mp h
      obtain ⟨cs, rfl, rfl⟩ := ih htail
      exact ⟨c :: cs, rfl, rfl⟩
    | alone unit rest halone =>
      rw [toUtf8_alone halone] at h
      cases h
  · rintro ⟨cs, rfl, rfl⟩
    exact toUtf8_ofChars cs

theorem isSome_toUtf8_iff : (toUtf8 units).isSome ↔ IsPaired units := by
  rw [isPaired_iff, Option.isSome_iff_exists]
  constructor
  · rintro ⟨bytes, h⟩
    obtain ⟨cs, hcs, -⟩ := toUtf8_eq_some_iff.mp h
    exact ⟨cs, hcs⟩
  · rintro ⟨cs, rfl⟩
    exact ⟨_, toUtf8_ofChars cs⟩

/-! ## Strings -/

theorem encode_toList (s : String) : Utf8.encode s.toList = s.toUTF8.data.toList := by
  rw [String.toUTF8_eq_toByteArray, ← String.utf8Encode_toList, List.utf8Encode,
    List.toList_data_toByteArray, Utf8.encode]

/-- **UTF-16 is converted by the standard.** The units have bytes exactly if every surrogate in them
belongs to a pair, and then the bytes are those of the text that the units encode. A string has the
same bytes by way of UTF-16, and as a source map the same base64. Nothing depends on what is done at
a code point that has no character. -/
theorem toUtf8_exact :
    (∀ units, (toUtf8 units).isSome ↔ IsPaired units) ∧
    (∀ units bytes, toUtf8 units = some bytes ↔
      ∃ cs, ofChars cs = units ∧ Utf8.encode cs = bytes) ∧
    (∀ s : String, toUtf8 (ofChars s.toList) = some s.toUTF8.data.toList) ∧
    (∀ s : String, ∃ text, SourceMapText.encode (.utf8 s) = .ok text ∧
      SourceMapText.encode (.utf16 (ofChars s.toList)) = .ok text ∧
      Base64.decode? text.toList = some s.toUTF8.data.toList) ∧
    ∀ (ε : Type) (malformed : ε) (otherwise : Nat → Except ε Char) (units : List UInt16),
      scan malformed otherwise units = (toUtf8 units).elim (.error malformed) .ok := by
  refine ⟨fun _ ↦ isSome_toUtf8_iff, fun _ _ ↦ toUtf8_eq_some_iff, fun s ↦ ?_, fun s ↦ ?_,
    fun _ ↦ scan_eq⟩
  · rw [toUtf8_ofChars, encode_toList]
  · refine ⟨String.ofList (Base64.encode (Utf8.encode s.toList)), rfl, ?_, ?_⟩
    · rw [SourceMapText.encode, SourceMapText.bytes?, toUtf8_ofChars]
    · rw [String.toList_ofList, Base64.decode?_encode, encode_toList]

end ScriptLoader.Utf16
