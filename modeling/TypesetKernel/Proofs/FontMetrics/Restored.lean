import TypesetKernel.Proofs.FontMetrics.File

/-!
Writing a font metric file again from what decoding made of it. Every part of the file up to the
tables that are not decoded is cut into words, and the words put together again are the part, so
the file that is written has the bytes of the old one up to there and zeros behind them. These bytes
are the ones that decoding rests on, so it decodes to the same font metrics (`encode_ofMetrics`).
-/

namespace TypesetKernel

/-! ## Parts cut into blocks -/

namespace Bytes

variable {file : Bytes} {offset width : Nat}

theorem ofNat_value_block (inside : offset + width ≤ file.length) :
    ofNat width (value ((file.drop offset).take width)) = (file.drop offset).take width := by
  have whole := ofNat_value ((file.drop offset).take width)
  rwa [length_block inside] at whole

theorem ofHalf_halfAt (inside : offset + 2 ≤ file.length) :
    ofHalf (UInt16.ofNat (file.halfAt offset)) = (file.drop offset).take 2 := by
  rw [ofHalf, toNat_ofNat_halfAt]
  exact ofNat_value_block inside

theorem ofWord_wordAt (inside : offset + 4 ≤ file.length) :
    ofWord (UInt32.ofNat (file.wordAt offset)) = (file.drop offset).take 4 :=
  ofWord_value (length_block inside)

end Bytes

theorem Counts.bytes_stated {file : Bytes} (room : 24 ≤ file.length) :
    (stated file).bytes = file.take 24 := by
  have listed : (stated file).toList
      = (List.range 12).map fun i => UInt16.ofNat (file.halfAt (0 + 2 * i)) := rfl
  have halves : ∀ i ∈ List.range 12, Bytes.ofHalf (UInt16.ofNat (file.halfAt (0 + 2 * i)))
      = (file.drop (0 + 2 * i)).take 2 := by
    intro i member
    have bound := List.mem_range.mp member
    exact Bytes.ofHalf_halfAt (by omega)
  rw [bytes, listed, List.flatMap_map, List.flatMap_congr halves, Bytes.flatMap_blocks]
  rfl

namespace Header

/-- Whole words are put together from their bytes and taken apart again. -/
theorem flatMap_wordsOfBytes {bs : Bytes} {count : Nat} (whole : bs.length = 4 * count) :
    (wordsOfBytes bs).flatMap Bytes.ofWord = bs ∧ (wordsOfBytes bs).length = count := by
  induction count generalizing bs with
  | zero =>
    obtain rfl := List.eq_nil_of_length_eq_zero whole
    exact ⟨rfl, rfl⟩
  | succ count ih =>
    match bs, whole with
    | a :: b :: c :: d :: rest, whole =>
      have behind : rest.length = 4 * count := by
        simp only [List.length_cons] at whole
        omega
      obtain ⟨same, length⟩ := ih behind
      have first : Bytes.ofWord (UInt32.ofNat (Bytes.value [a, b, c, d])) = [a, b, c, d] :=
        Bytes.ofWord_value rfl
      refine ⟨?_, ?_⟩
      · rw [wordsOfBytes, List.flatMap_cons, same]
        exact congrArg (· ++ rest) first
      · rw [wordsOfBytes, List.length_cons, length]

/-- The words of the header that a file says it has. -/
def wordsOf (file : Bytes) : List UInt32 :=
  wordsOfBytes ((file.drop 24).take (4 * file.halfAt 2))

end Header

/-- Four bytes are the bytes of the character word that they make up. -/
theorem CharWord.bytes_ofBytes? {bs : Bytes} (four : bs.length = 4) :
    ((ofBytes? bs).getD .zero).bytes = bs := by
  match bs, four with
  | [_, _, _, _], _ => rfl

namespace Bytes

variable {file : Bytes} {offset count : Nat}

theorem flatMap_charInfosAt (inside : offset + 4 * count ≤ file.length) :
    ((file.charInfosAt offset count).map CharInfo.pack).flatMap CharWord.bytes
      = (file.drop offset).take (4 * count) := by
  have words : ∀ i ∈ List.range count,
      ((CharWord.ofBytes? ((file.drop (offset + 4 * i)).take 4)).getD .zero).unpack.pack.bytes
        = (file.drop (offset + 4 * i)).take 4 := by
    intro i member
    have bound := List.mem_range.mp member
    rw [CharInfo.pack_unpack]
    exact CharWord.bytes_ofBytes? (length_block (by omega))
  rw [charInfosAt, List.map_map, List.flatMap_map]
  exact (List.flatMap_congr words).trans (flatMap_blocks file offset 4 count)

theorem tableBytes_dimensionsAt (inside : offset + 4 * count ≤ file.length) :
    FontMetrics.File.tableBytes ((file.dimensionsAt offset count).map FixWord.raw)
      = (file.drop offset).take (4 * count) := by
  have words : ∀ i ∈ List.range count,
      ofWord (FixWord.ofWord (UInt32.ofNat (file.wordAt (offset + 4 * i)))).raw.toUInt32
        = (file.drop (offset + 4 * i)).take 4 := by
    intro i member
    have bound := List.mem_range.mp member
    exact ofWord_wordAt (by omega)
  rw [FontMetrics.File.tableBytes, dimensionsAt, List.map_map, List.flatMap_map]
  exact (List.flatMap_congr words).trans (flatMap_blocks file offset 4 count)

end Bytes

namespace FontMetrics

open Decoder (EndsEarly outcome)

variable {file other : Bytes} {m : FontMetrics}

/-! ## The bytes that decoding rests on -/

/-- The tables that are not decoded are what an accepted file has behind the decoded parts. -/
theorem decodedExtent_of_sound (sound : firstFault? file.length file = none) :
    4 * (file.halfAt 0 - file.halfAt 16 - file.halfAt 18 - file.halfAt 20 - file.halfAt 22)
        = decodedExtent file ∧
      file.length = decodedExtent file + 4 * (Counts.stated file).undecoded.words := by
  obtain ⟨size, whole, -⟩ := (firstFault?_eq_none_iff rfl).mp sound
  have words := Counts.stated_words file
  have undecoded : (Counts.stated file).undecoded.words
      = file.halfAt 16 + file.halfAt 18 + file.halfAt 20 + file.halfAt 22 := by
    simp only [TableSizes.words, Counts.stated, Bytes.toNat_ofNat_halfAt]
  rw [whole] at words
  simp only [Counts.stated, Bytes.toNat_ofNat_halfAt] at size words
  rw [undecoded, decodedExtent]
  omega

/-- Two files of one size that agree up to the tables that are not decoded are decoded alike: what
decoding makes of their common beginning rests on no byte behind it. -/
theorem ofBytes_of_agrees (accepted : ofBytes file = .ok m) (size : other.length = file.length)
    (agrees : other.take (decodedExtent file) = file.take (decodedExtent file)) :
    ofBytes other = .ok m := by
  have extent := (decodedExtent_of_sound (ofBytes_eq_ok_iff.mp accepted).1).2
  let s : ByteStream := .claiming (file.take (decodedExtent file)) file.length
  have held : s.contents <+: file := List.take_prefix _ _
  have heldToo : s.contents <+: other := by
    change file.take (decodedExtent file) <+: other
    rw [← agrees]
    exact List.take_prefix _ _
  obtain ⟨whole, early⟩ := outcome_of_shortage held rfl
  have complete : ¬ EndsEarly (outcome (decode s)) := by
    rw [early m accepted]
    change ¬ (file.take (decodedExtent file)).length < decodedExtent file
    rw [List.length_take]
    omega
  have alike := (outcome_of_shortage heldToo size.symm).1
  rw [← alike.resolve_right complete, whole.resolve_right complete, accepted]

/-! ## Writing the parts again -/

namespace File

/-- The file made of the words of a header and of font metrics with an entry for each code of their
range. -/
def ofMetrics (header : List UInt32) (m : FontMetrics)
    (complete : m.charInfos.length = codeCount m.lower m.upper) : File where
  lower := m.lower
  upper := m.upper
  header := header
  charWords := m.charInfos.map CharInfo.pack
  widths := m.widths.map FixWord.raw
  heights := m.heights.map FixWord.raw
  depths := m.depths.map FixWord.raw
  italics := m.italics.map FixWord.raw
  undecoded := m.undecoded
  length_charWords := by rw [List.length_map, complete]

theorem complete_stated (file : Bytes) :
    (stated file).charInfos.length = codeCount (stated file).lower (stated file).upper := by
  simp [stated, statedFor, Bytes.charInfosAt, Counts.chars]

/-- What an accepted file is written again as. -/
def restored (file : Bytes) : File :=
  ofMetrics (Header.wordsOf file) (stated file) (complete_stated file)

theorem header_restored (sound : firstFault? file.length file = none) :
    (restored file).header.flatMap Bytes.ofWord
        = (file.drop 24).take (4 * (Counts.stated file).header.toNat) ∧
      (restored file).header.length = (Counts.stated file).header.toNat := by
  obtain ⟨-, extent⟩ := decodedExtent_of_sound sound
  have header : (Counts.stated file).header.toNat = file.halfAt 2 := Bytes.toNat_ofNat_halfAt _ _
  rw [decodedExtent] at extent
  rw [header]
  exact Header.flatMap_wordsOfBytes (Bytes.length_block (by omega))

theorem size_restored (sound : firstFault? file.length file = none) :
    (restored file).size = (Counts.stated file).words := by
  rw [size, (header_restored sound).2]
  simp only [restored, ofMetrics, stated, statedFor, Bytes.charInfosAt, Bytes.dimensionsAt,
    List.length_map, List.length_range]
  rfl

theorem counts_restored (sound : firstFault? file.length file = none) :
    (restored file).counts = Counts.stated file := by
  obtain ⟨-, whole, -⟩ := (firstFault?_eq_none_iff rfl).mp sound
  rw [counts, size_restored sound, whole, (header_restored sound).2]
  simp only [restored, ofMetrics, stated, statedFor, Bytes.charInfosAt, Bytes.dimensionsAt,
    List.length_map, List.length_range, UInt16.ofNat_toNat]

/-- Every part up to the tables that are not decoded is written as it was. -/
theorem encode_restored (sound : firstFault? file.length file = none) :
    (restored file).encode = file.take (decodedExtent file) ++
      List.replicate (4 * (Counts.stated file).undecoded.words) 0 := by
  obtain ⟨-, extent⟩ := decodedExtent_of_sound sound
  rw [← decodedExtent_eq] at extent ⊢
  unfold Counts.decodedWords at extent ⊢
  have counts : (restored file).counts.bytes = file.take 24 := by
    rw [counts_restored sound, Counts.bytes_stated (by omega)]
  have table (offset count : Nat) (inside : offset + 4 * count ≤ file.length) :=
    Bytes.tableBytes_dimensionsAt inside
  rw [encode, encodeWith, counts, bodyBytes, (header_restored sound).1, ← List.append_assoc]
  refine congrArg (· ++ _) ?_
  simp only [restored, ofMetrics, stated, statedFor]
  rw [Bytes.flatMap_charInfosAt (by omega), table _ _ (by omega), table _ _ (by omega),
    table _ _ (by omega), table _ _ (by omega)]
  -- Each part starts where the ones before it end.
  simp only [← List.append_assoc, ← List.take_add]
  congr 1
  omega

/-- An accepted file can be written again from its font metrics and the words of its header: the new
file is as long as the old one, has its bytes up to the tables that are not decoded, the counts
included, and zeros behind them, and it decodes to the same font metrics. -/
theorem encode_ofMetrics (accepted : ofBytes file = .ok m) :
    ∃ complete : m.charInfos.length = codeCount m.lower m.upper,
      let again := (ofMetrics (Header.wordsOf file) m complete).encode
      let kept :=
        4 * (file.halfAt 0 - file.halfAt 16 - file.halfAt 18 - file.halfAt 20 - file.halfAt 22)
      again.length = file.length ∧ 24 ≤ kept ∧ kept ≤ file.length ∧
        again = file.take kept ++ List.replicate (file.length - kept) 0 ∧
        ofBytes again = .ok m := by
  obtain ⟨sound, rfl⟩ := ofBytes_eq_ok_iff.mp accepted
  refine ⟨complete_stated file, ?_⟩
  intro again kept
  obtain ⟨boundary, extent⟩ := decodedExtent_of_sound sound
  have start : 24 ≤ decodedExtent file := by
    rw [decodedExtent]
    omega
  have written : again = file.take (decodedExtent file) ++
      List.replicate (file.length - decodedExtent file) 0 := by
    rw [extent, Nat.add_sub_cancel_left]
    exact encode_restored sound
  have length : again.length = file.length := by
    rw [written, List.length_append, List.length_take, List.length_replicate]
    omega
  have agrees : again.take (decodedExtent file) = file.take (decodedExtent file) := by
    rw [written, List.take_append_of_le_length (by rw [List.length_take]; omega), List.take_take,
      Nat.min_self]
  have kept : kept = decodedExtent file := boundary
  rw [kept]
  exact ⟨length, start, by omega, written, ofBytes_of_agrees accepted length agrees⟩

/-- A character, a width and a ligature program of two words, which comes out as zeros. -/
theorem encode_ofMetrics_ligatures :
    let file : Bytes := [0, 12, 0, 2, 0, 65, 0, 65, 0, 1, 0, 0, 0, 0, 0, 0, 0, 2, 0, 0, 0, 0, 0, 0,
      1, 2, 3, 4, 0, 160, 0, 0, 0, 0xA3, 0xB6, 42, 0xFF, 0xF8, 0, 0, 128, 0, 5, 6, 7, 8, 9, 10]
    ∃ m complete, ofBytes file = .ok m ∧
      (ofMetrics [0x01020304, 0x00A00000] m complete).encode
        = file.take 40 ++ [0, 0, 0, 0, 0, 0, 0, 0] := by
  intro file
  have accepted : ofBytes file = .ok (stated file) :=
    ofBytes_eq_ok_iff.mpr ⟨by decide, rfl⟩
  obtain ⟨complete, -, -, -, written, -⟩ := encode_ofMetrics accepted
  exact ⟨stated file, complete, accepted, written⟩

end File

end FontMetrics

end TypesetKernel
