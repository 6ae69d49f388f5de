import Mathlib.Data.Bool.AllAny
import ScriptLoader.Url.Parser

/-!
# What the parts of a URL are written with

Percent-encoding leaves no character that it encodes, since the triples it writes consist of percent
signs and digits. A host is free of the delimiters of a URL: a name has none of them, and an address
in brackets has only the colons between its pieces.
-/

namespace ScriptLoader

theorem mem_of_mem_fieldsAt {separator : Char} {cs field : List Char} {c : Char}
    (hfield : field ∈ fieldsAt separator cs) (hc : c ∈ field) : c ∈ cs ∧ c ≠ separator := by
  induction cs generalizing field with
  | nil =>
    rw [fieldsAt, List.mem_singleton] at hfield
    exact absurd (hfield ▸ hc) List.not_mem_nil
  | cons d rest ih =>
    rw [fieldsAt] at hfield
    split at hfield
    next =>
      rcases List.mem_cons.mp hfield with rfl | hfield
      · exact absurd hc List.not_mem_nil
      · exact ⟨List.mem_cons_of_mem _ (ih hfield hc).1, (ih hfield hc).2⟩
    next hd =>
      split at hfield
      next =>
        rw [List.mem_singleton] at hfield
        obtain rfl := List.mem_singleton.mp (hfield ▸ hc)
        exact ⟨List.mem_cons_self, hd⟩
      next first more heq =>
        rcases List.mem_cons.mp hfield with rfl | hfield
        · rcases List.mem_cons.mp hc with rfl | hc
          · exact ⟨List.mem_cons_self, hd⟩
          · have := ih (heq ▸ List.mem_cons_self) hc
            exact ⟨List.mem_cons_of_mem _ this.1, this.2⟩
        · have := ih (heq ▸ List.mem_cons_of_mem _ hfield) hc
          exact ⟨List.mem_cons_of_mem _ this.1, this.2⟩

theorem exists_digitChar_of_mem_toDigits {base n : Nat} (hbase : 1 < base) {c : Char}
    (h : c ∈ Nat.toDigits base n) : ∃ value : Nat, c = value.digitChar := by
  induction n using Nat.strongRecOn with
  | ind n ih =>
    rw [Nat.toDigits_eq_if hbase] at h
    split at h
    next => exact ⟨n, List.mem_singleton.mp h⟩
    next hn =>
      rcases List.mem_append.mp h with h | h
      · exact ih (n / base) (Nat.div_lt_self (by omega) hbase) h
      · exact ⟨n % base, List.mem_singleton.mp h⟩

/-! ## Encoded text -/

namespace Percent

def tripleChars : List Char := "%0123456789ABCDEF".toList

private theorem hexDigit_mem {value : Nat} (h : value < 16) : hexDigit value ∈ tripleChars := by
  have hall : ∀ v : Fin 16, hexDigit v ∈ tripleChars := by decide
  exact hall ⟨value, h⟩

theorem mem_tripleChars {byte : UInt8} {c : Char} (h : c ∈ triple byte) : c ∈ tripleChars := by
  simp only [triple, List.mem_cons, List.not_mem_nil, or_false] at h
  rcases h with rfl | rfl | rfl
  · decide
  · exact hexDigit_mem (Nat.div_lt_of_lt_mul byte.toNat_lt)
  · exact hexDigit_mem (Nat.mod_lt _ (by decide))

/-- Encoded text consists of triples and of characters that need not be encoded. -/
theorem mem_encode {set : Char → Bool} {cs : List Char} {c : Char} (h : c ∈ encode set cs) :
    c ∈ tripleChars ∨ set c = false ∧ c ∈ cs := by
  obtain ⟨d, hd, hc⟩ := List.mem_flatMap.mp h
  rw [encodeChar] at hc
  split at hc
  next =>
    obtain ⟨byte, -, hc⟩ := List.mem_flatMap.mp hc
    exact .inl (mem_tripleChars hc)
  next hplain =>
    obtain rfl := List.mem_singleton.mp hc
    simp only [Bool.or_eq_true, not_or, Bool.not_eq_true] at hplain
    exact .inr ⟨hplain.1, hd⟩

theorem eq_false_of_mem_encode {set : Char → Bool} (hset : ∀ c ∈ tripleChars, set c = false)
    {cs : List Char} {c : Char} (h : c ∈ encode set cs) : set c = false :=
  (mem_encode h).elim (hset c) And.left

end Percent

namespace Url

/-! ## Hosts -/

/-- A character that does not delimit the parts of a URL. -/
def isHostChar (c : Char) : Bool := !" /?#@[]:".toList.contains c

/-- What a host looks like: a name, or an address in brackets. -/
inductive IsHost : List Char → Prop
  | name {host : List Char} (h : ∀ c ∈ host, isHostChar c = true) : IsHost host
  | bracketed {pieces : List Char} (h : ∀ c ∈ pieces, isHostChar c = true ∨ c = ':') :
    IsHost ('[' :: pieces ++ [']'])

private theorem isHostChar_digitChar (value : Nat) : isHostChar value.digitChar = true := by
  by_cases h : value < 16
  · have hall : ∀ v : Fin 16, isHostChar v.val.digitChar = true := by decide
    exact hall ⟨value, h⟩
  · rw [Nat.digitChar_eq_star.mpr (by omega)]
    decide

private theorem isHostChar_of_mem_toDigits {base n : Nat} (hbase : 1 < base) {c : Char}
    (h : c ∈ Nat.toDigits base n) : isHostChar c = true := by
  obtain ⟨value, rfl⟩ := exists_digitChar_of_mem_toDigits hbase h
  exact isHostChar_digitChar value

private theorem isHostChar_showIpv4 {address : Nat} {c : Char} (h : c ∈ showIpv4 address) :
    isHostChar c = true := by
  have hdigit {n : Nat} : c ∈ Nat.toDigits 10 n → isHostChar c = true :=
    isHostChar_of_mem_toDigits (by decide)
  simp only [showIpv4, List.mem_append, List.mem_cons] at h
  rcases h with ((h | rfl | h) | rfl | h) | rfl | h
  all_goals first | exact hdigit h | decide

private theorem mem_showPieces {pieces : List Nat} {c : Char} (h : c ∈ showPieces pieces) :
    isHostChar c = true ∨ c = ':' := by
  have hdigit {n : Nat} (hc : c ∈ Nat.toDigits 16 n) : isHostChar c = true ∨ c = ':' :=
    .inl (isHostChar_of_mem_toDigits (by decide) hc)
  induction pieces using showPieces.induct with
  | case1 => cases h
  | case2 piece => exact hdigit h
  | case3 piece rest hrest ih =>
    rw [showPieces, List.mem_append, List.mem_cons] at h
    · rcases h with h | rfl | h
      · exact hdigit h
      · exact .inr rfl
      · exact ih h
    · exact hrest

private theorem isHost_parseBracketed {cs host : List Char} (h : parseBracketed cs = .ok host) :
    IsHost host := by
  rw [parseBracketed] at h
  split at h
  · cases h
  · split at h
    · obtain rfl := Except.ok.inj h
      refine .bracketed fun c hc ↦ ?_
      rw [showIpv6] at hc
      dsimp only at hc
      split at hc
      · exact mem_showPieces hc
      · simp only [List.mem_append, List.mem_cons] at hc
        rcases hc with hc | rfl | rfl | hc
        · exact mem_showPieces hc
        · exact .inr rfl
        · exact .inr rfl
        · exact mem_showPieces hc
    · cases h

/-! ## Domain names -/

namespace Punycode

private theorem isHostChar_digit {value : Nat} (h : value < 36) :
    isHostChar (digit value) = true := by
  have hall : ∀ v : Fin 36, isHostChar (digit v) = true := by decide
  exact hall ⟨value, h⟩

private theorem isHostChar_encodeDelta {bias fuel delta position : Nat} {c : Char}
    (h : c ∈ encodeDelta bias fuel delta position) : isHostChar c = true := by
  have hthreshold : threshold position bias ≤ 26 := by
    rw [threshold]
    split <;> omega
  induction fuel generalizing delta position with
  | zero =>
    obtain rfl := List.mem_singleton.mp h
    exact isHostChar_digit (Nat.mod_lt _ (by decide))
  | succ fuel ih =>
    rw [encodeDelta] at h
    split at h
    next hsmall =>
      obtain rfl := List.mem_singleton.mp h
      exact isHostChar_digit (by omega)
    next =>
      rcases List.mem_cons.mp h with rfl | h
      · have := Nat.mod_lt (delta - threshold position bias)
          (show 0 < 36 - threshold position bias by omega)
        exact isHostChar_digit (by omega)
      · refine ih h ?_
        rw [threshold]
        split <;> omega

/-- All that has been written so far may stand in a host. -/
private def Progress.IsPlain (p : Progress) : Prop := ∀ c ∈ p.output, isHostChar c = true

private theorem isPlain_scan {p : Progress} (h : p.IsPlain) (basic codePoint : Nat) (c : Char) :
    (scan basic codePoint p c).IsPlain := by
  rw [scan]
  split
  · exact h
  · split
    · exact List.forall_mem_append.mpr ⟨h, fun _ ↦ isHostChar_encodeDelta⟩
    · exact h

private theorem isPlain_foldl {p : Progress} (h : p.IsPlain) (basic codePoint : Nat)
    (label : List Char) : (label.foldl (scan basic codePoint) p).IsPlain := by
  induction label generalizing p with
  | nil => exact h
  | cons c rest ih => exact ih (isPlain_scan h basic codePoint c)

private theorem isPlain_insertAll {p : Progress} (h : p.IsPlain) (label : List Char)
    (basic : Nat) (codePoints : List Nat) (least : Nat) :
    (insertAll label basic codePoints least p).IsPlain := by
  induction codePoints generalizing p least with
  | nil => exact h
  | cons codePoint rest ih =>
    have hadvanced :
        { p with delta := p.delta + (codePoint - least) * (p.handled + 1) }.IsPlain := h
    rw [insertAll]
    refine ih (fun c hc ↦ ?_) (codePoint + 1)
    exact isPlain_foldl hadvanced basic codePoint label c hc

theorem isHostChar_encode {label : List Char} (hlabel : ∀ c ∈ label, isHostChar c = true)
    {c : Char} (h : c ∈ encode label) : isHostChar c = true := by
  refine isPlain_insertAll (fun c hc ↦ ?_) label _ _ _ c h
  dsimp only at hc
  split at hc
  · cases hc
  · rcases List.mem_append.mp hc with hc | hc
    · exact hlabel c (List.mem_filter.mp hc).1
    · obtain rfl := List.mem_singleton.mp hc
      decide

end Punycode

private theorem isHostChar_of_permitted (forbidden : Char → Bool)
    (hall : ∀ c ∈ " /?#@[]:".toList, forbidden c = true) {c : Char} (h : forbidden c = false) :
    isHostChar c = true := by
  cases hc : " /?#@[]:".toList.contains c with
  | true => exact absurd h (by simp [hall c (List.contains_iff_mem.mp hc)])
  | false => rw [isHostChar, hc, Bool.not_false]

private theorem isHostChar_asciiLabel {label : List Char}
    (hlabel : ∀ c ∈ label, isHostChar c = true) {c : Char} (h : c ∈ asciiLabel label) :
    isHostChar c = true := by
  rw [asciiLabel] at h
  split at h
  · exact hlabel c h
  · rcases List.mem_append.mp h with h | h
    · have hall : ∀ c ∈ "xn--".toList, isHostChar c = true :=
        List.all_iff_forall_prop.mp (by decide)
      exact hall c h
    · exact Punycode.isHostChar_encode hlabel h

private theorem isHostChar_joinLabels {labels : List (List Char)}
    (hlabels : ∀ label ∈ labels, ∀ c ∈ label, isHostChar c = true) {c : Char}
    (h : c ∈ joinLabels labels) : isHostChar c = true := by
  induction labels using joinLabels.induct with
  | case1 => cases h
  | case2 label => exact hlabels label List.mem_cons_self c h
  | case3 label rest hrest ih =>
    rw [joinLabels, List.mem_append, List.mem_cons] at h
    · rcases h with h | rfl | h
      · exact hlabels label List.mem_cons_self c h
      · decide
      · exact ih (fun label hlabel ↦ hlabels label (List.mem_cons_of_mem _ hlabel)) h
    · exact hrest

private theorem isHostChar_asciiDomain {cs domain : List Char} (h : asciiDomain? cs = some domain) :
    ∀ c ∈ domain, isHostChar c = true := by
  rw [asciiDomain?] at h
  split at h
  · cases h
  · next hplain =>
    obtain rfl := Option.some.inj h
    refine fun c ↦ isHostChar_joinLabels fun label hlabel ↦ ?_
    obtain ⟨field, hfield, rfl⟩ := List.mem_map.mp hlabel
    refine fun c ↦ isHostChar_asciiLabel fun d hd ↦ isHostChar_of_permitted
      isForbiddenInDomain (List.all_iff_forall_prop.mp (by decide)) ?_
    exact Bool.eq_false_iff.mpr fun hforbidden ↦
      hplain (List.any_eq_true.mpr ⟨d, (mem_of_mem_fieldsAt hfield hd).1, hforbidden⟩)

/-! ## Parsed hosts -/

theorem isHost_parseHost {cs host : List Char} (h : parseHost cs = .ok host) : IsHost host := by
  rw [parseHost.eq_def] at h
  split at h
  · exact isHost_parseBracketed h
  · split at h
    · cases h
    · cases h
    · next hdomain =>
      obtain ⟨decoded, -, hdomain⟩ := Option.bind_eq_some_iff.mp hdomain
      split at h
      · split at h
        · obtain rfl := Except.ok.inj h
          exact .name fun c ↦ isHostChar_showIpv4
        · cases h
      · obtain rfl := Except.ok.inj h
        exact .name (isHostChar_asciiDomain hdomain)

theorem isHost_parseRawHost {cs host : List Char} (h : parseRawHost cs = .ok host) :
    IsHost host := by
  rw [parseRawHost.eq_def] at h
  split at h
  · exact isHost_parseBracketed h
  · split at h
    · cases h
    · next hplain =>
      obtain rfl := Except.ok.inj h
      refine .name fun c hc ↦ ?_
      rcases Percent.mem_encode hc with htriple | ⟨-, hc⟩
      · have hall : ∀ c ∈ Percent.tripleChars, isHostChar c = true :=
          List.all_iff_forall_prop.mp (by decide)
        exact hall c htriple
      · refine isHostChar_of_permitted isForbiddenInRawHost
          (List.all_iff_forall_prop.mp (by decide)) ?_
        exact Bool.eq_false_iff.mpr fun hforbidden ↦
          hplain (List.any_eq_true.mpr ⟨c, hc, hforbidden⟩)

end Url

end ScriptLoader
