import TypesetKernel.Proofs.FontMetrics.Restored

/-!
Bytes of a font metric file that decoding never rests on: header words that make up no complete
field, what stands in a block behind its text, all of the face word but the face itself and one bit,
and the tables that are only known by their sizes. Files that differ in such bytes alone decode to
the same font metrics, or are rejected for the same reason (`ofBytes_of_alike`).
-/

namespace TypesetKernel

namespace Bytes

variable {file : Bytes} {offset : Nat}

/-- The highest bit and the lowest byte of a word. -/
theorem wordAt_ends (inside : offset + 4 ≤ file.length) :
    (0x80000000 ≤ UInt32.ofNat (file.wordAt offset) ↔ 1 ≤ file.byteAt offset / 128) ∧
      (UInt32.ofNat (file.wordAt offset)).toUInt8 = file.byteAt (offset + 3) := by
  have word := ofWord_wordAt inside
  have first := byteAt_part file offset (show 0 < 4 by decide)
  have last := byteAt_part file offset (show 3 < 4 by decide)
  rw [Nat.add_zero] at first
  generalize UInt32.ofNat (file.wordAt offset) = n at word ⊢
  have bound := n.toNat_lt
  rw [← first, ← last, ← word]
  simp only [ofWord, ofNat, byteAt, List.nil_append, List.cons_append, List.getD_cons_zero,
    List.getD_cons_succ]
  constructor
  · rw [UInt32.le_iff_toNat_le, UInt8.le_iff_toNat_le, UInt8.toNat_div, UInt8.toNat_ofNat']
    change 0x80000000 ≤ n.toNat ↔ 1 ≤ _ / 128
    omega
  · rfl

end Bytes

/-! ## What a file leaves unsaid -/

namespace Header

/-- The bytes of a header of the given number of words that stand behind the last field which it
holds completely. -/
def Spare (words offset : Nat) : Prop :=
  offset < 24 + 4 * words ∧
    (3 ≤ words ∧ words ≤ 11 ∧ 32 ≤ offset ∨ 13 ≤ words ∧ words ≤ 16 ∧ 72 ≤ offset ∨
      19 ≤ words ∧ 96 ≤ offset)

/-- The bytes of the two blocks of a header that stand behind their texts. -/
def Padding (words : Nat) (file : Bytes) (offset : Nat) : Prop :=
  12 ≤ words ∧ 33 + (file.byteAt 32).toNat ≤ offset ∧ offset < 72 ∨
    17 ≤ words ∧ 73 + (file.byteAt 72).toNat ≤ offset ∧ offset < 92

instance (words offset : Nat) : Decidable (Spare words offset) :=
  inferInstanceAs (Decidable (_ ∧ _))

instance (words : Nat) (file : Bytes) (offset : Nat) : Decidable (Padding words file offset) :=
  inferInstanceAs (Decidable (_ ∨ _))

end Header

namespace FontMetrics

variable {file other : Bytes} {offset width count : Nat}

/-- The bytes of a file that decoding does not rest on. -/
def Ignored (file : Bytes) (offset : Nat) : Prop :=
  Header.Spare (file.halfAt 2) offset ∨ Header.Padding (file.halfAt 2) file offset ∨
    18 ≤ file.halfAt 2 ∧ (offset = 93 ∨ offset = 94) ∨ decodedExtent file ≤ offset

/-- The first byte of the face word, of which decoding rests on the highest bit only. -/
def Flags (file : Bytes) (offset : Nat) : Prop := 18 ≤ file.halfAt 2 ∧ offset = 92

/-- The bytes of a file that decoding rests on as a whole. -/
def Significant (file : Bytes) (offset : Nat) : Prop := ¬ Ignored file offset ∧ ¬ Flags file offset

instance (file : Bytes) (offset : Nat) : Decidable (Ignored file offset) :=
  inferInstanceAs (Decidable (_ ∨ _))

instance (file : Bytes) (offset : Nat) : Decidable (Flags file offset) :=
  inferInstanceAs (Decidable (_ ∧ _))

/-- Two files of one size that differ only in what decoding does not rest on. None of the counts is
part of that, so both files begin with the same ones. -/
structure Alike (file other : Bytes) : Prop where
  size : other.length = file.length
  bytes : ∀ offset < file.length, other.byteAt offset = file.byteAt offset ∨
    Ignored file offset ∨
      Flags file offset ∧ other.byteAt offset / 128 = file.byteAt offset / 128

/-- The header is not longer than all the parts that are decoded. -/
theorem header_le_decodedExtent (file : Bytes) : 24 + 4 * file.halfAt 2 ≤ decodedExtent file := by
  unfold decodedExtent
  omega

/-- Decoding rests on the counts, on the fields that the header holds completely, and on the tables
that follow the header as far as they are decoded. -/
theorem significant_of_field (decoded : offset < decodedExtent file) (field : offset < 32 ∨
      12 ≤ file.halfAt 2 ∧ offset < 72 ∧ offset < 33 + (file.byteAt 32).toNat ∨
      17 ≤ file.halfAt 2 ∧ 72 ≤ offset ∧ offset < 92 ∧ offset < 73 + (file.byteAt 72).toNat ∨
      18 ≤ file.halfAt 2 ∧ offset = 95 ∨ 24 + 4 * file.halfAt 2 ≤ offset) :
    Significant file offset := by
  unfold Significant Ignored Flags Header.Spare Header.Padding
  rcases field with early | scheme | identifier | face | behind <;> omega

/-! ## What both files say -/

namespace Alike

theorem getElem?_eq (alike : Alike file other) (read : Significant file offset) :
    other[offset]? = file[offset]? := by
  by_cases inside : offset < file.length
  · have insideToo : offset < other.length := by rwa [alike.size]
    have same : other.byteAt offset = file.byteAt offset := by
      rcases alike.bytes offset inside with same | ignored | flags
      · exact same
      · exact absurd ignored read.1
      · exact absurd flags.1 read.2
    simp only [Bytes.byteAt, List.getD_eq_getElem?_getD, List.getElem?_eq_getElem inside,
      List.getElem?_eq_getElem insideToo, Option.getD_some] at same ⊢
    rw [same]
  · have outside : other.length ≤ offset := by
      rw [alike.size]
      exact Nat.le_of_not_lt inside
    rw [List.getElem?_eq_none (Nat.le_of_not_lt inside), List.getElem?_eq_none outside]

theorem byteAt_eq (alike : Alike file other) (read : Significant file offset) :
    other.byteAt offset = file.byteAt offset := by
  simp only [Bytes.byteAt, List.getD_eq_getElem?_getD, alike.getElem?_eq read]

theorem part_eq (alike : Alike file other)
    (read : ∀ i, offset ≤ i → i < offset + width → Significant file i) :
    (other.drop offset).take width = (file.drop offset).take width := by
  apply Bytes.part_congr
  intro i low high
  exact alike.getElem?_eq (read i low high)

theorem wordAt_eq (alike : Alike file other)
    (read : ∀ i, offset ≤ i → i < offset + 4 → Significant file i) :
    other.wordAt offset = file.wordAt offset :=
  congrArg Bytes.value (alike.part_eq read)

/-! ### The counts and the rules of the format -/

theorem counts (alike : Alike file other) : Counts.stated other = Counts.stated file := by
  have half (place : Nat) (isCount : place < 12) :
      other.halfAt (2 * place) = file.halfAt (2 * place) := by
    have extent := header_le_decodedExtent file
    refine congrArg Bytes.value (alike.part_eq fun i _ _ => ?_)
    apply significant_of_field <;> omega
  have listed : (Counts.stated other).toList = (Counts.stated file).toList := by
    rw [Counts.toList_stated, Counts.toList_stated]
    apply List.map_congr_left
    intro place member
    rw [half place (List.mem_range.mp member)]
  apply Option.some_injective
  rw [← Counts.ofList?_toList, ← Counts.ofList?_toList, listed]

theorem schemeLength (alike : Alike file other) (held : 12 ≤ file.halfAt 2) :
    other.byteAt 32 = file.byteAt 32 := by
  have extent := header_le_decodedExtent file
  apply alike.byteAt_eq
  apply significant_of_field <;> omega

theorem identifierLength (alike : Alike file other) (held : 17 ≤ file.halfAt 2) :
    other.byteAt 72 = file.byteAt 72 := by
  have extent := header_le_decodedExtent file
  apply alike.byteAt_eq
  apply significant_of_field <;> omega

theorem textFault?_eq (alike : Alike file other) :
    Header.textFault? (file.halfAt 2) other = Header.textFault? (file.halfAt 2) file := by
  have scheme : 12 ≤ file.halfAt 2 ∧ 39 < (other.byteAt 32).toNat
      ↔ 12 ≤ file.halfAt 2 ∧ 39 < (file.byteAt 32).toNat :=
    and_congr_right fun held => by rw [alike.schemeLength held]
  have identifier : 17 ≤ file.halfAt 2 ∧ 19 < (other.byteAt 72).toNat
      ↔ 17 ≤ file.halfAt 2 ∧ 19 < (file.byteAt 72).toNat :=
    and_congr_right fun held => by rw [alike.identifierLength held]
  unfold Header.textFault?
  simp only [scheme, identifier]

/-- Both files break the same rule first. -/
theorem firstFault?_eq (alike : Alike file other) (size : Nat) :
    firstFault? size other = firstFault? size file := by
  have length : other.halfAt 0 = file.halfAt 0 := by
    have same := congrArg (fun c : Counts => c.file.toNat) alike.counts
    simpa only [Counts.stated, Bytes.toNat_ofNat_halfAt] using same
  by_cases room : size < 24
  · simp only [firstFault?, if_pos room]
  by_cases short : file.halfAt 0 < 6
  · simp only [firstFault?, if_neg room, length, if_pos short]
  rw [FontMetrics.firstFault?_eq room (by rwa [length]), FontMetrics.firstFault?_eq room short,
    alike.counts]
  simp only [Counts.stated, Bytes.toNat_ofNat_halfAt, alike.textFault?_eq]

/-! ### The header -/

/-- A text is what stands in its block before the padding. -/
theorem textAt_eq (alike : Alike file other) {capacity : Nat}
    (length : other.byteAt offset = file.byteAt offset)
    (read : ∀ i, offset + 1 ≤ i → i < offset + 1 + (file.byteAt offset).toNat →
      i < offset + 1 + capacity → Significant file i) :
    other.textAt offset capacity = file.textAt offset capacity := by
  have text : (other.drop (offset + 1)).take (min (file.byteAt offset).toNat capacity)
      = (file.drop (offset + 1)).take (min (file.byteAt offset).toNat capacity) := by
    apply alike.part_eq
    intro i low high
    exact read i low (by omega) (by omega)
  unfold Bytes.textAt
  rw [length, List.take_take, List.take_take, text]

theorem faceWord_eq (alike : Alike file other) (held : 18 ≤ file.halfAt 2)
    (whole : decodedExtent file ≤ file.length) :
    let word := UInt32.ofNat (file.wordAt 92)
    let wordToo := UInt32.ofNat (other.wordAt 92)
    (0x80000000 ≤ wordToo ↔ 0x80000000 ≤ word) ∧ wordToo.toUInt8 = word.toUInt8 := by
  have extent := header_le_decodedExtent file
  have room : 92 + 4 ≤ file.length := by omega
  have roomToo : 92 + 4 ≤ other.length := by rwa [alike.size]
  have flags : other.byteAt 92 / 128 = file.byteAt 92 / 128 := by
    rcases alike.bytes 92 (by omega) with same | ignored | flags
    · rw [same]
    · unfold Ignored Header.Spare Header.Padding at ignored
      omega
    · exact flags.2
  have face : other.byteAt 95 = file.byteAt 95 := by
    apply alike.byteAt_eq
    apply significant_of_field <;> omega
  obtain ⟨high, low⟩ := Bytes.wordAt_ends room
  obtain ⟨highToo, lowToo⟩ := Bytes.wordAt_ends roomToo
  exact ⟨by rw [high, highToo, flags], by rw [low, lowToo, face]⟩

theorem header_eq (alike : Alike file other) (whole : decodedExtent file ≤ file.length) :
    Header.stated (file.halfAt 2) other = Header.stated (file.halfAt 2) file := by
  have extent := header_le_decodedExtent file
  have checksum (held : 1 ≤ file.halfAt 2) : other.wordAt 24 = file.wordAt 24 := by
    apply alike.wordAt_eq
    intros
    apply significant_of_field <;> omega
  have designSize (held : 2 ≤ file.halfAt 2) : other.wordAt 28 = file.wordAt 28 := by
    apply alike.wordAt_eq
    intros
    apply significant_of_field <;> omega
  have scheme (held : 12 ≤ file.halfAt 2) : other.textAt 32 39 = file.textAt 32 39 := by
    apply alike.textAt_eq (alike.schemeLength held)
    intros
    apply significant_of_field <;> omega
  have identifier (held : 17 ≤ file.halfAt 2) : other.textAt 72 19 = file.textAt 72 19 := by
    apply alike.textAt_eq (alike.identifierLength held)
    intros
    apply significant_of_field <;> omega
  unfold Header.stated
  simp only [Header.mk.injEq]
  refine ⟨?_, ?_, ?_, ?_, ?_, ?_⟩
  · exact ite_congr rfl (fun held => by rw [checksum held]) fun _ => rfl
  · exact ite_congr rfl (fun held => by rw [designSize held]) fun _ => rfl
  · exact ite_congr rfl scheme fun _ => rfl
  · exact ite_congr rfl identifier fun _ => rfl
  · by_cases held : 18 ≤ file.halfAt 2
    · simp only [if_pos held, (alike.faceWord_eq held whole).1]
    · simp only [if_neg held]
  · by_cases held : 18 ≤ file.halfAt 2
    · simp only [if_pos held, (alike.faceWord_eq held whole).2]
    · simp only [if_neg held]

/-! ### The tables -/

/-- All bytes from the header to the tables that are not decoded count. -/
theorem table_part_eq (alike : Alike file other) (behind : 24 + 4 * file.halfAt 2 ≤ offset)
    (within : offset + width ≤ decodedExtent file) :
    (other.drop offset).take width = (file.drop offset).take width := by
  apply alike.part_eq
  intros
  apply significant_of_field <;> omega

theorem charInfosAt_eq (alike : Alike file other) (behind : 24 + 4 * file.halfAt 2 ≤ offset)
    (within : offset + 4 * count ≤ decodedExtent file) :
    other.charInfosAt offset count = file.charInfosAt offset count := by
  apply List.map_congr_left
  intro i member
  have bound := List.mem_range.mp member
  rw [alike.table_part_eq (by omega) (by omega)]

theorem dimensionsAt_eq (alike : Alike file other) (behind : 24 + 4 * file.halfAt 2 ≤ offset)
    (within : offset + 4 * count ≤ decodedExtent file) :
    other.dimensionsAt offset count = file.dimensionsAt offset count := by
  apply List.map_congr_left
  intro i member
  have bound := List.mem_range.mp member
  rw [Bytes.wordAt, Bytes.wordAt, alike.table_part_eq (by omega) (by omega)]

/-- Both files state the same font metrics. -/
theorem stated_eq (alike : Alike file other) (whole : decodedExtent file ≤ file.length) :
    stated other = stated file := by
  have header := alike.header_eq whole
  have extent := decodedExtent_eq file
  have length : (Counts.stated file).header.toNat = file.halfAt 2 :=
    Bytes.toNat_ofNat_halfAt file 2
  unfold Counts.decodedWords at extent
  rw [length] at extent
  unfold stated
  rw [alike.counts]
  unfold statedFor
  simp only [length, header]
  rw [alike.charInfosAt_eq (by omega) (by omega), alike.dimensionsAt_eq (by omega) (by omega),
    alike.dimensionsAt_eq (by omega) (by omega), alike.dimensionsAt_eq (by omega) (by omega),
    alike.dimensionsAt_eq (by omega) (by omega)]

end Alike

/-- Files that differ only in what decoding does not rest on decode to the same font metrics, or are
rejected for the same reason. -/
theorem ofBytes_of_alike (alike : Alike file other) : ofBytes other = ofBytes file := by
  rw [ofBytes_eq_verdict, ofBytes_eq_verdict, alike.size]
  unfold verdict
  rw [alike.firstFault?_eq]
  cases sound : firstFault? file.length file with
  | some fault => rfl
  | none =>
    have extent := (decodedExtent_of_sound sound).2
    rw [alike.stated_eq (by omega)]

/-- A header with two texts and a word to spare, and a table of one word that is not decoded. -/
theorem ofBytes_of_alike_face :
    let file (padding flags : UInt8) : Bytes :=
      [0, 26, 0, 19, 0, 1, 0, 0, 0, 0, 0, 0, 0, 0, 0, 0, 0, 1, 0, 0, 0, 0, 0, 0] ++
        [1, 2, 3, 4, 0, 160, 0, 0] ++ [2, 65, 66] ++ List.replicate 37 padding ++
        [1, 88] ++ List.replicate 18 padding ++ [flags, padding, padding, 5] ++
        List.replicate 8 padding
    file 7 0xFF ≠ file 0 0x80 ∧ Alike (file 0 0x80) (file 7 0xFF) ∧
      ofBytes (file 7 0xFF) = ofBytes (file 0 0x80) ∧
      ofBytes (file 0 0x80) = .ok (stated (file 0 0x80)) := by
  intro file
  have alike : Alike (file 0 0x80) (file 7 0xFF) := ⟨by decide, by decide⟩
  exact ⟨by decide, alike, ofBytes_of_alike alike, ofBytes_eq_ok_iff.mpr ⟨by decide, rfl⟩⟩

end FontMetrics

end TypesetKernel
