import Mathlib
import ScriptLoader.Text.Utf8

/-!
# UTF-8 has one reading

A byte sequence is read as the one text that is encoded by it, and as nothing when there is none. A
character is read back from each of the four widths that its bytes may have; the other way round, a
form that is longer than needed is refused, so what has been read is encoded by the same bytes.
-/

namespace ScriptLoader.Utf8

variable {byte : UInt8} {bytes rest : List UInt8} {c : Char} {cs : List Char}

theorem continuation?_eq_some_iff {bits : Nat} :
    continuation? byte = some bits ↔ byte.toNat = 0x80 + bits ∧ bits < 0x40 := by
  have hleast : (0x80 : UInt8).toNat = 0x80 := rfl
  have hend : (0xC0 : UInt8).toNat = 0xC0 := rfl
  rw [continuation?, Option.ite_none_right_eq_some, Option.some.injEq, UInt8.le_iff_toNat_le,
    UInt8.lt_iff_toNat_lt, hleast, hend]
  omega

theorem continuation?_ofNat {bits : Nat} (h : bits < 0x40) :
    continuation? (UInt8.ofNat (bits + 0x80)) = some bits := by
  rw [continuation?_eq_some_iff, UInt8.toNat_ofNat']
  omega

theorem charFrom?_eq_some_iff {least codePoint : Nat} :
    charFrom? least codePoint = some c ↔ c.toNat = codePoint ∧ least ≤ codePoint := by
  rw [charFrom?]
  by_cases hvalid : codePoint.isValidChar
  · have hchar : Char.ofNatAux codePoint hvalid = c ↔ c.toNat = codePoint := by
      rw [← Char.toNat_inj]
      exact eq_comm
    rw [dif_pos hvalid, Option.ite_none_right_eq_some, Option.some.injEq, hchar, and_comm]
  · rw [dif_neg hvalid]
    refine ⟨nofun, ?_⟩
    rintro ⟨rfl, -⟩
    exact absurd c.valid hvalid

/-! ## Reading one character -/

theorem decode?_one {codePoint : Nat} (h : codePoint < 0x80) :
    decode? (UInt8.ofNat codePoint :: rest) = (decode? rest).map (Char.ofNat codePoint :: ·) := by
  have hbyte : (UInt8.ofNat codePoint).toNat = codePoint := by
    rw [UInt8.toNat_ofNat']
    omega
  rw [decode?.eq_def]
  simp only [UInt8.lt_iff_toNat_lt, hbyte]
  rw [if_pos (by simpa using h)]

/-- A character is read back, whichever its width. -/
theorem decode?_encodeChar_append (c : Char) (rest : List UInt8) :
    decode? (String.utf8EncodeChar c ++ rest) = (decode? rest).map (c :: ·) := by
  have hbound : c.toNat < 0x110000 := by
    have := c.valid
    unfold UInt32.isValidChar Nat.isValidChar at this
    unfold Char.toNat
    omega
  rw [String.utf8EncodeChar.eq_def]
  simp only [Char.toNat_val]
  split_ifs with h1 h2 h3
  · rw [List.singleton_append, decode?_one (by omega), Char.ofNat_toNat]
  all_goals
    rw [decode?.eq_def]
    simp only [List.cons_append, List.nil_append, UInt8.lt_iff_toNat_lt, UInt8.toNat_ofNat',
      UInt8.toNat_ofNat]
  · rw [if_neg (by omega), if_neg (by omega), if_pos (by omega),
      continuation?_ofNat (by omega), Option.bind_eq_bind, Option.bind_some,
      charFrom?_eq_some_iff (c := c) |>.mpr (by omega)]
    cases decode? rest <;> rfl
  · rw [if_neg (by omega), if_neg (by omega), if_neg (by omega), if_pos (by omega),
      continuation?_ofNat (by omega), continuation?_ofNat (by omega), Option.bind_eq_bind,
      Option.bind_some, Option.bind_eq_bind, Option.bind_some,
      charFrom?_eq_some_iff (c := c) |>.mpr (by omega)]
    cases decode? rest <;> rfl
  · rw [if_neg (by omega), if_neg (by omega), if_neg (by omega), if_neg (by omega),
      if_pos (by omega), continuation?_ofNat (by omega), continuation?_ofNat (by omega),
      continuation?_ofNat (by omega), Option.bind_eq_bind, Option.bind_some, Option.bind_eq_bind,
      Option.bind_some, Option.bind_eq_bind, Option.bind_some,
      charFrom?_eq_some_iff (c := c) |>.mpr (by omega)]
    cases decode? rest <;> rfl

theorem decode?_encode_append (cs : List Char) (rest : List UInt8) :
    decode? (encode cs ++ rest) = (decode? rest).map (cs ++ ·) := by
  induction cs with
  | nil => simp [encode]
  | cons c cs ih =>
    rw [encode, List.flatMap_cons, List.append_assoc, decode?_encodeChar_append, ← encode, ih,
      Option.map_map]
    rfl

theorem decode?_encode (cs : List Char) : decode? (encode cs) = some cs := by
  simpa [decode?] using decode?_encode_append cs []

/-! ## What has been read -/

theorem encode_cons (c : Char) (cs : List Char) :
    encode (c :: cs) = String.utf8EncodeChar c ++ encode cs :=
  rfl

theorem encode_append (cs more : List Char) : encode (cs ++ more) = encode cs ++ encode more :=
  List.flatMap_append

theorem ofNat_eq_of_toNat (byte : UInt8) {value : Nat} (h : byte.toNat = value) :
    UInt8.ofNat value = byte := by
  rw [← h, UInt8.ofNat_toNat]

/-- What is read is encoded by the bytes that have been read. -/
theorem encode_of_decode? (h : decode? bytes = some cs) : encode cs = bytes := by
  -- one case for each width of a character, which the first byte tells
  fun_induction decode? bytes generalizing cs with
  | case1 => exact congrArg encode (Option.some.inj h).symm
  | case2 a rest ha ih =>
    obtain ⟨more, hmore, rfl⟩ := Option.map_eq_some_iff.mp h
    have hlow : a.toNat < 0x80 := UInt8.lt_iff_toNat_lt.mp ha
    have hchar : (Char.ofNat a.toNat).toNat = a.toNat := by
      rw [Char.toNat_ofNat, if_pos (.inl (by omega))]
    rw [encode_cons, ih hmore, String.utf8EncodeChar.eq_def]
    simp only [Char.toNat_val, hchar]
    rw [if_pos (by omega), UInt8.ofNat_toNat]
    rfl
  | case4 a hlow hcont htwo b rest ih =>
    obtain ⟨x, hx, h⟩ := Option.bind_eq_some_iff.mp h
    obtain ⟨c, hc, h⟩ := Option.bind_eq_some_iff.mp h
    obtain ⟨more, hmore, h⟩ := Option.bind_eq_some_iff.mp h
    obtain rfl := Option.some.inj h
    rw [continuation?_eq_some_iff] at hx
    rw [charFrom?_eq_some_iff] at hc
    simp only [UInt8.lt_iff_toNat_lt, UInt8.toNat_ofNat] at hlow hcont htwo
    rw [encode_cons, ih hmore, String.utf8EncodeChar.eq_def]
    simp only [Char.toNat_val]
    rw [if_neg (by omega), if_pos (by omega), ofNat_eq_of_toNat a (by omega),
      ofNat_eq_of_toNat b (by omega)]
    rfl
  | case6 a hlow hcont htwo hthree b b' rest ih =>
    obtain ⟨x, hx, h⟩ := Option.bind_eq_some_iff.mp h
    obtain ⟨y, hy, h⟩ := Option.bind_eq_some_iff.mp h
    obtain ⟨c, hc, h⟩ := Option.bind_eq_some_iff.mp h
    obtain ⟨more, hmore, h⟩ := Option.bind_eq_some_iff.mp h
    obtain rfl := Option.some.inj h
    rw [continuation?_eq_some_iff] at hx hy
    rw [charFrom?_eq_some_iff] at hc
    simp only [UInt8.lt_iff_toNat_lt, UInt8.toNat_ofNat] at hlow hcont htwo hthree
    rw [encode_cons, ih hmore, String.utf8EncodeChar.eq_def]
    simp only [Char.toNat_val]
    rw [if_neg (by omega), if_neg (by omega), if_pos (by omega),
      ofNat_eq_of_toNat a (by omega), ofNat_eq_of_toNat b (by omega),
      ofNat_eq_of_toNat b' (by omega)]
    rfl
  | case8 a hlow hcont htwo hthree hfour b b' b'' rest ih =>
    obtain ⟨x, hx, h⟩ := Option.bind_eq_some_iff.mp h
    obtain ⟨y, hy, h⟩ := Option.bind_eq_some_iff.mp h
    obtain ⟨z, hz, h⟩ := Option.bind_eq_some_iff.mp h
    obtain ⟨c, hc, h⟩ := Option.bind_eq_some_iff.mp h
    obtain ⟨more, hmore, h⟩ := Option.bind_eq_some_iff.mp h
    obtain rfl := Option.some.inj h
    rw [continuation?_eq_some_iff] at hx hy hz
    rw [charFrom?_eq_some_iff] at hc
    simp only [UInt8.lt_iff_toNat_lt, UInt8.toNat_ofNat] at hlow hcont htwo hthree hfour
    rw [encode_cons, ih hmore, String.utf8EncodeChar.eq_def]
    simp only [Char.toNat_val]
    rw [if_neg (by omega), if_neg (by omega), if_neg (by omega),
      ofNat_eq_of_toNat a (by omega), ofNat_eq_of_toNat b (by omega),
      ofNat_eq_of_toNat b' (by omega), ofNat_eq_of_toNat b'' (by omega)]
    rfl
  | case3 | case5 | case7 | case9 | case10 => cases h

/-- **UTF-8 has one reading**: the text that the bytes encode. -/
theorem decode?_eq_some_iff : decode? bytes = some cs ↔ encode cs = bytes := by
  refine ⟨encode_of_decode?, ?_⟩
  rintro rfl
  exact decode?_encode cs

end ScriptLoader.Utf8
