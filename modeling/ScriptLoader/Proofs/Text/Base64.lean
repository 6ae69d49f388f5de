import ScriptLoader.Proofs.Text.Utf8
import ScriptLoader.Text.Base64

/-!
# Base64 is read back

Three bytes are four digits, and the last one or two bytes are two or three digits with padding. A
pad is no digit, so the reader takes a padded group for the last one and no other.
-/

namespace ScriptLoader.Base64

theorem value?_digit {value : Nat} (h : value < 64) : value? (digit value) = some value := by
  revert value
  decide +kernel

theorem digit_ne {value : Nat} (h : value < 64) : digit value ≠ '=' ∧ digit value ≠ '\n' := by
  revert value
  decide +kernel

theorem newline_notMem_encode (bytes : List UInt8) : '\n' ∉ encode bytes := by
  have hdigit {value : Nat} (h : value < 64) : '\n' ≠ digit value := (digit_ne h).2.symm
  induction bytes using encode.induct with
  | case1 => exact List.not_mem_nil
  | case2 a =>
    have ha := a.toNat_lt
    simp only [encode, List.mem_cons, List.not_mem_nil, or_false, not_or]
    exact ⟨hdigit (by omega), hdigit (by omega), by decide, by decide⟩
  | case3 a b =>
    have ha := a.toNat_lt
    have hb := b.toNat_lt
    simp only [encode, List.mem_cons, List.not_mem_nil, or_false, not_or]
    exact ⟨hdigit (by omega), hdigit (by omega), hdigit (by omega), by decide⟩
  | case4 a b c rest ih =>
    have ha := a.toNat_lt
    have hb := b.toNat_lt
    have hc := c.toNat_lt
    simp only [encode, List.mem_cons, not_or]
    exact ⟨hdigit (by omega), hdigit (by omega), hdigit (by omega), hdigit (by omega), ih⟩

/-- Four digits stand for three bytes, whatever follows. -/
theorem decode?_quad {p q r s : Nat} (hp : p < 64) (hq : q < 64) (hr : r < 64) (hs : s < 64)
    (rest : List Char) :
    decode? (digit p :: digit q :: digit r :: digit s :: rest) =
      (decode? rest).map fun bytes ↦ UInt8.ofNat (p * 4 + q / 16) ::
        UInt8.ofNat (q % 16 * 16 + r / 4) :: UInt8.ofNat (r % 4 * 64 + s) :: bytes := by
  rw [decode?]
  · rw [value?_digit hp, value?_digit hq, value?_digit hr, value?_digit hs]
    cases decode? rest <;> rfl
  · exact fun _ heq ↦ absurd heq (digit_ne hs).1
  · exact fun heq ↦ absurd heq (digit_ne hs).1

/-- **Base64 is read back.** -/
theorem decode?_encode (bytes : List UInt8) : decode? (encode bytes) = some bytes := by
  induction bytes using encode.induct with
  | case1 => rfl
  | case2 a =>
    have ha := a.toNat_lt
    rw [encode, decode?, value?_digit (by omega), value?_digit (by omega)]
    have hbyte : UInt8.ofNat (a.toNat / 4 * 4 + a.toNat % 4 * 16 / 16) = a :=
      Utf8.ofNat_eq_of_toNat a (by omega)
    have hlow : a.toNat % 4 * 16 % 16 = 0 := by omega
    simp only [Option.bind_eq_bind, Option.bind_some, hlow, if_true, hbyte]
  | case3 a b =>
    have ha := a.toNat_lt
    have hb := b.toNat_lt
    rw [encode, decode?]
    · rw [value?_digit (by omega), value?_digit (by omega), value?_digit (by omega)]
      have hfirst : UInt8.ofNat (a.toNat / 4 * 4 + (a.toNat % 4 * 16 + b.toNat / 16) / 16) = a :=
        Utf8.ofNat_eq_of_toNat a (by omega)
      have hsecond : UInt8.ofNat ((a.toNat % 4 * 16 + b.toNat / 16) % 16 * 16 +
          b.toNat % 16 * 4 / 4) = b := Utf8.ofNat_eq_of_toNat b (by omega)
      have hlow : b.toNat % 16 * 4 % 4 = 0 := by omega
      simp only [Option.bind_eq_bind, Option.bind_some, hlow, if_true, hfirst, hsecond]
    · exact fun heq ↦ absurd heq (digit_ne (by omega)).1
  | case4 a b c rest ih =>
    have ha := a.toNat_lt
    have hb := b.toNat_lt
    have hc := c.toNat_lt
    rw [encode, decode?_quad (by omega) (by omega) (by omega) (by omega), ih, Option.map_some,
      Utf8.ofNat_eq_of_toNat a (by omega), Utf8.ofNat_eq_of_toNat b (by omega),
      Utf8.ofNat_eq_of_toNat c (by omega)]

end ScriptLoader.Base64
