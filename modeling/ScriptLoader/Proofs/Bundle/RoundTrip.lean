import ScriptLoader.Proofs.Bundle.Grammar
import ScriptLoader.Text.Utf8

/-!
# Bundles are read back

Writing a bundle gives a text with the pieces of its segments, and each length is written with the
shortest numeral. Payloads are not escaped; they may look like pieces, or like the header. Since a
text is cut into pieces in one way only, none of this matters.

A bundle is read back unless a payload has `2 ^ 64` code units or more, whose length is no length
any more. Such a text does not fit into the memory of a machine that counts bytes in 64 bits.
-/

namespace ScriptLoader

namespace Utf16

theorem length_ofChars_le (cs : List Char) : (ofChars cs).length ≤ (Utf8.encode cs).length := by
  induction cs with
  | nil => exact Nat.le_refl 0
  | cons c cs ih =>
    have hwidth : (ofChar c).length ≤ (String.utf8EncodeChar c).length := by
      rw [String.length_utf8EncodeChar, length_ofChar, width]
      split
      next => exact c.utf8Size_pos
      next hlarge =>
        have hval : 65535 < c.val := UInt32.lt_iff_toNat_lt.mpr (Nat.not_lt.mp hlarge)
        rw [Char.utf8Size_eq_four_iff.mpr hval]
        decide
    rw [ofChars, Utf8.encode, List.flatMap_cons, List.flatMap_cons, List.length_append,
      List.length_append]
    exact Nat.add_le_add hwidth ih

end Utf16

namespace Bundle

/-! ## What is written -/

def Piece.ofSegment (segment : Segment) : Piece :=
  { segment with numeral := Nat.toDigits 10 (Utf16.length segment.payload) }

def pieces (b : Bundle) : List Piece := b.segments.map Piece.ofSegment

variable (b : Bundle)

theorem write_eq : b.write = header ++ b.pieces.flatMap Piece.write := by
  rw [write, pieces, List.flatMap_map]
  rfl

theorem denotes_of_mem_pieces {piece : Piece} (h : piece ∈ b.pieces) :
    Denotes piece.numeral piece.units := by
  obtain ⟨segment, -, rfl⟩ := List.mem_map.mp h
  rw [Piece.units, Utf16.length_ofChars]
  exact .toDigits _

/-! ## What is read back -/

theorem Segment.reference?_ofReference (r : Reference) : (ofReference r).reference? = some r := by
  obtain ⟨locator, _ | _⟩ := r <;> simp [ofReference, reference?]

theorem Segment.marker_ofReference_ne (r : Reference) : (ofReference r).marker ≠ .sourceMap := by
  obtain ⟨locator, _ | _⟩ := r <;> simp [ofReference]

theorem filterMap_reference?_segments :
    b.segments.filterMap Segment.reference? = b.dependencies := by
  obtain ⟨dependencies, sourceMap, text⟩ := b
  have hreferences : (dependencies.map Segment.ofReference).filterMap Segment.reference?
      = dependencies := by
    rw [List.filterMap_map, show Segment.reference? ∘ Segment.ofReference = some from
      funext Segment.reference?_ofReference, List.filterMap_some]
  cases sourceMap <;> simp [segments, hreferences, Segment.reference?]

theorem lastPayload?_text_segments : lastPayload? .text b.segments = some b.text := by
  simp [lastPayload?, segments]

theorem lastPayload?_sourceMap_segments : lastPayload? .sourceMap b.segments = b.sourceMap := by
  obtain ⟨dependencies, sourceMap, text⟩ := b
  have hreferences :
      (dependencies.map Segment.ofReference).filter (·.marker = .sourceMap) = [] := by
    simp [List.filter_eq_nil_iff, Segment.marker_ofReference_ne]
  rw [lastPayload?, segments, List.filter_append, List.filter_append, hreferences]
  cases sourceMap <;> simp

theorem makesUp_pieces : MakesUp b.pieces b := by
  have hsegments : b.pieces.map Piece.toSegment = b.segments := by
    rw [pieces, List.map_map]
    exact List.map_id _
  refine ofSegments_eq_ok_iff.mp ?_
  rw [hsegments, ofSegments, lastPayload?_text_segments, lastPayload?_sourceMap_segments,
    filterMap_reference?_segments]

/-- Every text of a bundle has a length that can be read. -/
def IsFramable : Prop := ∀ segment ∈ b.segments, (Utf16.ofChars segment.payload).length < 2 ^ 64

/-- Every text of a bundle fits into a memory of less than `2 ^ 63` bytes. -/
def FitsMemory : Prop := ∀ segment ∈ b.segments, (Utf8.encode segment.payload).length < 2 ^ 63

variable {b}

theorem FitsMemory.isFramable (h : b.FitsMemory) : b.IsFramable := fun segment hsegment ↦ by
  have hbytes := h segment hsegment
  have hunits := Utf16.length_ofChars_le segment.payload
  omega

/-- The lengths of a framable bundle are sound, and so is what is written. -/
theorem consists_pieces_iff : Consists b.write b.pieces ↔ b.IsFramable := by
  constructor
  · intro h segment hsegment
    exact (h.sound _ (List.mem_map_of_mem hsegment)).units_lt
  · refine fun h ↦ ⟨fun piece hpiece ↦ ⟨b.denotes_of_mem_pieces hpiece, ?_⟩, b.write_eq⟩
    obtain ⟨segment, hsegment, rfl⟩ := List.mem_map.mp hpiece
    exact h segment hsegment

/-- **A bundle is read back as it was written** if the lengths of its texts can be read, and only
then. They can for all texts that fit into memory. -/
theorem read_write (b : Bundle) :
    (read b.write = .ok b ↔ b.IsFramable) ∧ (b.FitsMemory → read b.write = .ok b) := by
  have hiff : read b.write = .ok b ↔ b.IsFramable := by
    rw [read_eq_ok_iff, ← consists_pieces_iff]
    constructor
    · rintro ⟨pieces, hconsists, -⟩
      have hpieces : pieces = b.pieces :=
        Piece.flatMap_write_inj (fun piece hpiece ↦ (hconsists.sound piece hpiece).denotes)
          (fun piece ↦ b.denotes_of_mem_pieces)
          (List.append_cancel_left (hconsists.text.symm.trans b.write_eq))
      rwa [← hpieces]
    · exact fun h ↦ ⟨b.pieces, h, b.makesUp_pieces⟩
  exact ⟨hiff, fun h ↦ hiff.mpr h.isFramable⟩

/-- A bundle whose texts look like bundles and like pieces, with an empty source map. -/
def disguised : Bundle where
  dependencies := [⟨"@STATIC;1.0;t;1;x", true⟩, ⟨"I;2;𝄞", false⟩]
  sourceMap := some ""
  text := "S;0;\n;𝄞"

theorem read_write_disguised : disguised.FitsMemory ∧ read disguised.write = .ok disguised := by
  have hfits : disguised.FitsMemory := by
    unfold FitsMemory
    decide +kernel
  exact ⟨hfits, (read_write disguised).2 hfits⟩

end Bundle

end ScriptLoader
