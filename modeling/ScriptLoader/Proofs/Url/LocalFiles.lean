import ScriptLoader.Proofs.Bundle.Descent
import ScriptLoader.Proofs.Bundle.Retrieving
import ScriptLoader.Proofs.Text.Utf8
import ScriptLoader.Proofs.Url.Text

/-!
# Local files and their URLs
-/

namespace ScriptLoader

theorem Path.joinFields_fieldsAt (path : Path) : joinFields (fieldsAt '/' path) = path := by
  induction path with
  | nil => rfl
  | cons c rest ih =>
    rw [fieldsAt]
    split_ifs with hc
    · obtain ⟨first, more, hfields⟩ := List.exists_cons_of_ne_nil (fieldsAt_ne_nil '/' rest)
      rw [hfields] at ih ⊢
      rw [joinFields, ih, hc]
      · rfl
      · simp
    · obtain ⟨first, more, hfields⟩ := List.exists_cons_of_ne_nil (fieldsAt_ne_nil '/' rest)
      rw [hfields] at ih ⊢
      cases more with
      | nil => exact congrArg _ ih
      | cons => exact congrArg _ ih

/-! ## Bytes -/

namespace Utf8

variable {byte : UInt8} {c : Char} {cs : List Char} {fields : List (List Char)}

theorem encodeChar_of_mem (h : byte ∈ String.utf8EncodeChar c) (hbyte : byte.toNat < 0x80) :
    String.utf8EncodeChar c = [byte] ∧ c.toNat = byte.toNat := by
  rw [String.utf8EncodeChar.eq_def] at h ⊢
  simp only [Char.toNat_val] at h ⊢
  split_ifs at h ⊢ with h1
  · obtain rfl := List.mem_singleton.mp h
    rw [UInt8.toNat_ofNat']
    exact ⟨rfl, by omega⟩
  all_goals
    simp only [List.mem_cons, List.not_mem_nil, or_false] at h
    rcases h with rfl | h
    all_goals simp only [← UInt8.toNat_inj, UInt8.toNat_ofNat'] at *
    all_goals omega

theorem slash_mem_encode_iff : 0x2F ∈ encode cs ↔ '/' ∈ cs := by
  rw [encode, List.mem_flatMap]
  constructor
  · rintro ⟨c, hc, hmem⟩
    have hvalue := (encodeChar_of_mem hmem (by decide)).2
    obtain rfl : c = '/' := Char.toNat_inj.mp hvalue
    exact hc
  · intro h
    exact ⟨'/', h, by decide⟩

theorem encode_joinFields (fields : List (List Char)) :
    encode (Path.joinFields fields) = List.intercalate [0x2F] (fields.map encode) := by
  fun_induction Path.joinFields fields with
  | case1 => rfl
  | case2 field => rw [List.map_singleton, List.intercalate_singleton]
  | case3 field rest hrest ih =>
    have hne : rest.map encode ≠ [] := by simpa using hrest
    rw [List.map_cons, List.intercalate_cons_of_ne_nil hne, ← ih, encode_append, encode_cons]
    rw [List.append_assoc]
    rfl

end Utf8

namespace Percent

variable {set : Char → Bool} {cs rest : List Char} {byte : UInt8} {bytes : List UInt8}

theorem hexValue?_hexDigit {value : Nat} (h : value < 16) :
    hexValue? (hexDigit value) = some value := by
  have hall : ∀ v : Fin 16, hexValue? (hexDigit v) = some v.val := by decide
  exact hall ⟨value, h⟩

theorem decode_triple_append (byte : UInt8) (rest : List Char) :
    decode (triple byte ++ rest) = byte :: decode rest := by
  have hbyte := byte.toNat_lt
  rw [triple, List.cons_append, List.cons_append, List.cons_append, List.nil_append, decode,
    hexValue?_hexDigit (by omega), hexValue?_hexDigit (Nat.mod_lt _ (by decide))]
  dsimp only
  rw [Nat.div_add_mod', UInt8.ofNat_toNat]

theorem decode_triples_append (bytes : List UInt8) (rest : List Char) :
    decode (bytes.flatMap triple ++ rest) = bytes ++ decode rest := by
  induction bytes with
  | nil => rfl
  | cons byte bytes ih =>
    rw [List.flatMap_cons, List.append_assoc, decode_triple_append, ih, List.cons_append]

theorem decode_cons {c : Char} (h : c ≠ '%') (rest : List Char) :
    decode (c :: rest) = String.utf8EncodeChar c ++ decode rest := by
  rw [decode.eq_def]
  split
  next heq => exact absurd (List.cons.inj heq).1 h
  next heq =>
    obtain ⟨rfl, rfl⟩ := List.cons.inj heq
    rfl
  next heq => cases heq

/-- What has been encoded is decoded again, when no percent sign has been left as it was. -/
theorem decode_encode (h : ∀ c ∈ cs, c = '%' → set c = true) :
    decode (encode set cs) = Utf8.encode cs := by
  induction cs with
  | nil => rfl
  | cons c cs ih =>
    rw [List.forall_mem_cons] at h
    rw [encode, List.flatMap_cons, ← encode, Utf8.encode_cons, encodeChar]
    split_ifs with hc
    · rw [decode_triples_append, ih h.2]
    · have hpercent : c ≠ '%' := fun heq ↦ hc (by simp [h.1 heq])
      rw [List.singleton_append, decode_cons hpercent, ih h.2]

theorem toNat_of_hexValue? {c : Char} {value : Nat} (h : hexValue? c = some value) :
    value < 16 ∧ (c.toNat = 48 + value ∧ value < 10 ∨
      (c.toNat = 87 + value ∨ c.toNat = 55 + value) ∧ 10 ≤ value) := by
  have hle {a b : Char} : a ≤ b ↔ a.toNat ≤ b.toNat := by
    rw [Char.le_def, UInt32.le_iff_toNat_le, Char.toNat_val, Char.toNat_val]
  have h0 : '0'.toNat = 48 := rfl
  have h9 : '9'.toNat = 57 := rfl
  have ha : 'a'.toNat = 97 := rfl
  have hf : 'f'.toNat = 102 := rfl
  have hA : 'A'.toNat = 65 := rfl
  have hF : 'F'.toNat = 70 := rfl
  simp only [hexValue?, hle, h0, h9, ha, hf, hA, hF] at h
  split_ifs at h <;> have := Option.some.inj h <;> omega

/-- The first character of a text is decoded to its bytes, unless it starts a triple. -/
theorem decode_cons_cases (c : Char) (cs : List Char) :
    decode (c :: cs) = String.utf8EncodeChar c ++ decode cs ∨
      ∃ high low rest h l, c :: cs = '%' :: high :: low :: rest ∧ hexValue? high = some h ∧
        hexValue? low = some l ∧ decode (c :: cs) = UInt8.ofNat (h * 16 + l) :: decode rest := by
  by_cases hc : c = '%'
  · subst hc
    match cs with
    | [] | [_] => exact .inl rfl
    | high :: low :: rest =>
      rw [decode]
      cases hhigh : hexValue? high with
      | none => exact .inl rfl
      | some h =>
        cases hlow : hexValue? low with
        | none => exact .inl rfl
        | some l => exact .inr ⟨high, low, rest, h, l, rfl, hhigh, hlow, rfl⟩
  · exact .inl (decode_cons hc cs)

/-- What a dot is decoded from. -/
theorem exists_of_decode_dot (h : decode cs = 0x2E :: bytes) :
    ∃ rest, decode rest = bytes ∧
      (cs = '.' :: rest ∨ cs = "%2e".toList ++ rest ∨ cs = "%2E".toList ++ rest) := by
  cases cs with
  | nil => cases h
  | cons c cs =>
    rcases decode_cons_cases c cs with hplain | ⟨high, low, rest, hi, lo, hcs, hhigh, hlow, htriple⟩
    · rw [hplain] at h
      have hmem : 0x2E ∈ String.utf8EncodeChar c := by
        have hne : String.utf8EncodeChar c ≠ [] := by
          rw [← List.length_pos_iff, String.length_utf8EncodeChar]
          exact Char.utf8Size_pos c
        obtain ⟨byte, more, heq⟩ := List.exists_cons_of_ne_nil hne
        rw [heq] at h ⊢
        exact (List.cons.inj h).1 ▸ List.mem_cons_self
      obtain ⟨hbytes, hvalue⟩ := Utf8.encodeChar_of_mem hmem (by decide)
      obtain rfl : c = '.' := Char.toNat_inj.mp hvalue
      rw [hbytes] at h
      exact ⟨cs, (List.cons.inj h).2, .inl rfl⟩
    · rw [htriple] at h
      obtain ⟨hbyte, hrest⟩ := List.cons.inj h
      refine ⟨rest, hrest, .inr ?_⟩
      have hvalue : (UInt8.ofNat (hi * 16 + lo)).toNat = 0x2E := congrArg UInt8.toNat hbyte
      have hhigh := toNat_of_hexValue? hhigh
      have hlow := toNat_of_hexValue? hlow
      rw [UInt8.toNat_ofNat'] at hvalue
      rw [hcs]
      obtain rfl : high = '2' := Char.toNat_inj.mp (show _ = 50 by omega)
      rcases (show low.toNat = 101 ∨ low.toNat = 69 by omega) with he | hE
      · obtain rfl : low = 'e' := Char.toNat_inj.mp he
        exact .inl rfl
      · obtain rfl : low = 'E' := Char.toNat_inj.mp hE
        exact .inr rfl

theorem eq_nil_of_decode (h : decode cs = []) : cs = [] := by
  cases cs with
  | nil => rfl
  | cons c cs =>
    have hlength : 0 < (String.utf8EncodeChar c).length :=
      String.length_utf8EncodeChar c ▸ Char.utf8Size_pos c
    rcases decode_cons_cases c cs with hplain | ⟨_, _, _, _, _, _, _, _, htriple⟩
    · rw [hplain, List.append_eq_nil_iff] at h
      simp [h.1] at hlength
    · rw [htriple] at h
      cases h

end Percent

namespace Url

variable {url : Url} {path : Path} {segment : List Char} {segments : List (List Char)}

/-! ## Dots in disguise -/

theorem decode_of_isDoubleDot (h : isDoubleDot segment = true) :
    Percent.decode segment = Utf8.encode ['.', '.'] := by
  rw [isDoubleDot, List.contains_iff_mem] at h
  rw [← String.toList_ofList (l := segment)]
  generalize String.ofList segment = text at h
  revert text
  decide

theorem decode_of_isSingleDot (h : isSingleDot segment = true) :
    Percent.decode segment = Utf8.encode ['.'] := by
  rw [isSingleDot, List.contains_iff_mem] at h
  rw [← String.toList_ofList (l := segment)]
  generalize String.ofList segment = text at h
  revert text
  decide

/-- A segment that is decoded to two dots is read as a step up. -/
theorem isDoubleDot_of_decode (h : Percent.decode segment = Utf8.encode ['.', '.']) :
    isDoubleDot segment = true := by
  obtain ⟨rest, hrest, hsegment⟩ := Percent.exists_of_decode_dot h
  obtain ⟨last, hlast, hdot⟩ := Percent.exists_of_decode_dot hrest
  obtain rfl := Percent.eq_nil_of_decode hlast
  rcases hsegment with rfl | rfl | rfl <;> rcases hdot with rfl | rfl | rfl <;> decide

/-! ## The path of a local file -/

theorem flatMap_cons_eq {fields : List (List UInt8)} (separator : UInt8)
    (hne : fields ≠ []) :
    fields.flatMap (separator :: ·) = separator :: List.intercalate [separator] fields := by
  induction fields with
  | nil => exact absurd rfl hne
  | cons field rest ih =>
    rcases List.eq_nil_or_concat rest with rfl | ⟨_, _, rfl⟩
    · simp
    · rw [List.flatMap_cons, ih (by simp), List.intercalate_cons_of_ne_nil (by simp)]
      simp

/-- A URL of a local file has a path, whose segments are decoded one by one; one that ends like a
drive letter gets another, empty name. -/
theorem exists_of_filePath? (h : url.filePath? = some path) :
    ∃ segments closing, url.segments? = some segments ∧ (closing = [] ∨ closing = [[]]) ∧
      Utf8.encode path = (segments.map Percent.decode ++ closing).flatMap (0x2F :: ·) := by
  obtain ⟨bytes, hbytes, hpath⟩ := Option.bind_eq_some_iff.mp h
  rw [Utf8.decode?_eq_some_iff] at hpath
  obtain ⟨segments, hsegments, hbytes⟩ := Option.bind_eq_some_iff.mp hbytes
  obtain ⟨-, -, hbytes⟩ := Option.bind_eq_some_iff.mp hbytes
  rw [hpath, ← Option.some.inj hbytes]
  split_ifs
  · exact ⟨segments, [[]], hsegments, .inr rfl, by simp [List.flatMap_map]⟩
  · exact ⟨segments, [], hsegments, .inl rfl, by simp [List.flatMap_map]⟩

/-- When no segment hides a slash, the fields of the path are what the segments are decoded to. -/
theorem encode_fieldsAt_of_filePath? (h : url.filePath? = some path)
    (hsegments : url.segments? = some segments)
    (hslash : ∀ segment ∈ segments, 0x2F ∉ Percent.decode segment) :
    ∃ closing, (closing = [] ∨ closing = [[]]) ∧
      (fieldsAt '/' path).map Utf8.encode = [] :: (segments.map Percent.decode ++ closing) := by
  obtain ⟨segments', closing, hsegments', hclosing, hbytes⟩ := exists_of_filePath? h
  obtain rfl := Option.some.inj (hsegments.symm.trans hsegments')
  refine ⟨closing, hclosing, ?_⟩
  obtain ⟨text, rfl⟩ := Path.exists_of_isAbsolute (isAbsolute_of_filePath? h)
  have hne : segments.map Percent.decode ++ closing ≠ [] := by
    intro hnil
    rw [hnil] at hbytes
    cases hbytes
  have htext : List.intercalate [0x2F] ((fieldsAt '/' text).map Utf8.encode)
      = List.intercalate [0x2F] (segments.map Percent.decode ++ closing) := by
    rw [flatMap_cons_eq _ hne] at hbytes
    rw [← Utf8.encode_joinFields, Path.joinFields_fieldsAt]
    exact (List.cons.inj hbytes).2
  have hplain : ∀ bytes ∈ (fieldsAt '/' text).map Utf8.encode, 0x2F ∉ bytes := by
    intro bytes hbytes
    obtain ⟨field, hfield, rfl⟩ := List.mem_map.mp hbytes
    exact mt Utf8.slash_mem_encode_iff.mp (Path.not_mem_of_mem_fieldsAt hfield)
  have hplain' : ∀ bytes ∈ segments.map Percent.decode ++ closing, 0x2F ∉ bytes := by
    intro bytes hbytes
    rcases List.mem_append.mp hbytes with hbytes | hbytes
    · obtain ⟨segment, hsegment, rfl⟩ := List.mem_map.mp hbytes
      exact hslash segment hsegment
    · rcases hclosing with rfl | rfl
      · cases hbytes
      · rw [List.mem_singleton.mp hbytes]
        exact List.not_mem_nil
  have hfields := congrArg (List.splitOn 0x2F) htext
  rw [List.splitOn_intercalate _ hplain (by simp [fieldsAt_ne_nil]),
    List.splitOn_intercalate _ hplain' hne] at hfields
  rw [fieldsAt, if_pos rfl, List.map_cons, hfields]
  rfl

/-- The path of a local file steps up only where a segment of the URL does, or hides a slash. -/
theorem not_mem_names_of_filePath? (h : url.filePath? = some path)
    (hplain : ∀ segments ∈ url.segments?, ∀ segment ∈ segments,
      isDoubleDot segment = false ∧ 0x2F ∉ Percent.decode segment) :
    ['.', '.'] ∉ Path.names path := by
  obtain ⟨segments, -, hsegments, -, -⟩ := exists_of_filePath? h
  have hplain := hplain segments hsegments
  obtain ⟨closing, hclosing, hfields⟩ :=
    encode_fieldsAt_of_filePath? h hsegments fun segment hsegment ↦ (hplain segment hsegment).2
  intro hup
  have hmem : Utf8.encode ['.', '.'] ∈ (fieldsAt '/' path).map Utf8.encode :=
    List.mem_map_of_mem (List.mem_filter.mp hup).1
  rw [hfields, List.mem_cons, List.mem_append] at hmem
  rcases hmem with hnil | hsegment | hclosed
  · cases hnil
  · obtain ⟨segment, hsegment, hdecode⟩ := List.mem_map.mp hsegment
    have := (hplain segment hsegment).1
    rw [isDoubleDot_of_decode hdecode] at this
    cases this
  · rcases hclosing with rfl | rfl
    · cases hclosed
    · cases List.mem_singleton.mp hclosed

end Url

end ScriptLoader
