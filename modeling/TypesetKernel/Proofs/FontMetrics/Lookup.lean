import TypesetKernel.Proofs.FontMetrics.Restored

/-!
What a look-up of a character finds in a file. An accepted file holds one word for each code of its
range, and three bytes of this word point into four tables of words. Every look-up is answered from
these places of the file: no entry is taken from a neighbouring character or a neighbouring table
(`lookups_read_file`).
-/

namespace TypesetKernel

/-! ## Words of a file -/

namespace Bytes

variable {file : Bytes} {offset first count : Nat}

/-- The signed number in the word at a position, counted in words; none behind the end. -/
def signedWord? (file : Bytes) (position : Nat) : Option Int :=
  if 4 * position + 4 ≤ file.length then some ((file.wordAt (4 * position) : Int).bmod (2 ^ 32))
  else none

/-- An entry of the table of `count` words that begins at the word `first`. A table counts as zero
behind its end, whatever follows it in the file. -/
def entry? (file : Bytes) (first count index : Nat) : Option Int :=
  if index < count then file.signedWord? (first + index) else some 0

theorem entry?_eq (inside : 4 * (first + count) ≤ file.length) (index : UInt8) :
    file.entry? first count index.toNat
      = some (FontMetrics.entry (file.dimensionsAt (4 * first) count) index).raw.toInt := by
  unfold entry? FontMetrics.entry
  rw [List.getD_eq_getElem?_getD, dimensionsAt, List.getElem?_map]
  by_cases within : index.toNat < count
  · have word : 4 * (first + index.toNat) = 4 * first + 4 * index.toNat := Nat.mul_add _ _ _
    rw [if_pos within, signedWord?, if_pos (by omega), List.getElem?_range within, word]
    simp [FixWord.ofWord]
  · rw [if_neg within, List.getElem?_eq_none (by simpa using within)]
    rfl

theorem getElem?_charInfosAt (file : Bytes) (offset count i : Nat) :
    (file.charInfosAt offset count)[i]? = if i < count then
      some ((CharWord.ofBytes? ((file.drop (offset + 4 * i)).take 4)).getD .zero).unpack
    else none := by
  rw [charInfosAt, List.getElem?_map]
  by_cases within : i < count
  · rw [if_pos within, List.getElem?_range within, Option.map_some]
  · rw [if_neg within, List.getElem?_eq_none (by simpa using within), Option.map_none]

/-- The word that stands at an offset, byte by byte. -/
def charWordAt (file : Bytes) (offset : Nat) : CharWord where
  width := file.byteAt offset
  heightDepth := file.byteAt (offset + 1)
  italicTag := file.byteAt (offset + 2)
  remainder := file.byteAt (offset + 3)

theorem ofBytes?_block (inside : offset + 4 ≤ file.length) :
    CharWord.ofBytes? ((file.drop offset).take 4) = some (file.charWordAt offset) := by
  have four := length_block inside
  have bytes (i : Nat) (within : i < 4) := byteAt_part file offset within
  rw [charWordAt, ← Nat.add_zero offset, ← bytes 0 (by decide), Nat.add_zero, ← bytes 1 (by decide),
    ← bytes 2 (by decide), ← bytes 3 (by decide)]
  match (file.drop offset).take 4, four with
  | [_, _, _, _], _ => rfl

end Bytes

/-! ## Characters of a file -/

namespace FontMetrics

variable {file : Bytes} {m : FontMetrics}

/-- The range of a file covers a code. -/
def Covers (file : Bytes) (code : UInt8) : Prop :=
  file.halfAt 4 ≤ code.toNat ∧ code.toNat ≤ file.halfAt 6

instance (file : Bytes) (code : UInt8) : Decidable (Covers file code) :=
  inferInstanceAs (Decidable (_ ∧ _))

/-- The offset of the word of a character. -/
def charOffset (file : Bytes) (code : UInt8) : Nat :=
  24 + 4 * (file.halfAt 2 + code.toNat - file.halfAt 4)

/-- The entry of a covered code is the word at its place; the entries of a file lie within it. -/
theorem charInfo?_stated (whole : decodedExtent file ≤ file.length) (code : UInt8) :
    (stated file).charInfo? code =
      if Covers file code then some (file.charWordAt (charOffset file code)).unpack else none := by
  have lower : (stated file).lower.toNat = file.halfAt 4 := Bytes.toNat_ofNat_halfAt _ _
  have infos : (stated file).charInfos
      = file.charInfosAt (24 + 4 * file.halfAt 2) (file.halfAt 6 + 1 - file.halfAt 4) := by
    simp only [stated, statedFor, Counts.chars, codeCount, Counts.stated, Bytes.toNat_ofNat_halfAt]
  unfold charInfo?
  rw [lower, infos, Bytes.getElem?_charInfosAt]
  by_cases above : file.halfAt 4 ≤ code.toNat
  · rw [if_pos above]
    by_cases below : code.toNat ≤ file.halfAt 6
    · have place : 24 + 4 * file.halfAt 2 + 4 * (code.toNat - file.halfAt 4)
          = charOffset file code := by
        rw [charOffset]
        omega
      have inside : charOffset file code + 4 ≤ file.length := by
        rw [decodedExtent] at whole
        omega
      rw [if_pos (by omega), if_pos ⟨above, below⟩, place, Bytes.ofBytes?_block inside,
        Option.getD_some]
    · rw [if_neg (by omega), if_neg fun covered => below covered.2]
  · rw [if_neg above, if_neg fun covered => above covered.1]

/-- The tables stand one behind the other, and their positions are those of whole words. -/
theorem tables_stated (file : Bytes) :
    let chars := 6 + file.halfAt 2 + (file.halfAt 6 + 1 - file.halfAt 4)
    (stated file).widths = file.dimensionsAt (4 * chars) (file.halfAt 8) ∧
    (stated file).heights
      = file.dimensionsAt (4 * (chars + file.halfAt 8)) (file.halfAt 10) ∧
    (stated file).depths
      = file.dimensionsAt (4 * (chars + file.halfAt 8 + file.halfAt 10)) (file.halfAt 12) ∧
    (stated file).italics = file.dimensionsAt
      (4 * (chars + file.halfAt 8 + file.halfAt 10 + file.halfAt 12)) (file.halfAt 14) := by
  simp only [stated, statedFor, Counts.chars, codeCount, Counts.stated, Bytes.toNat_ofNat_halfAt]
  refine ⟨?_, ?_, ?_, ?_⟩ <;> congr 1 <;> omega

theorem dimensions?_stated (whole : decodedExtent file ≤ file.length) (code : UInt8) :
    (stated file).dimensions? code =
      if Covers file code ∧ file.byteAt (charOffset file code) ≠ 0 then
        let info := (file.charWordAt (charOffset file code)).unpack
        some { width := entry (stated file).widths info.widthIndex
               height := entry (stated file).heights info.heightIndex
               depth := entry (stated file).depths info.depthIndex
               italicCorrection := entry (stated file).italics info.italicIndex }
      else none := by
  rw [dimensions?, charInfo?_stated whole]
  by_cases covered : Covers file code
  · by_cases absent : file.byteAt (charOffset file code) = 0
    · rw [if_pos covered, if_neg fun present => present.2 absent, Option.filter_some, if_neg]
      · rfl
      · simp [CharInfo.isPresent, CharWord.unpack, Bytes.charWordAt, absent]
    · rw [if_pos covered, if_pos ⟨covered, absent⟩, Option.filter_some, if_pos]
      · rfl
      · simp [CharInfo.isPresent, CharWord.unpack, Bytes.charWordAt, absent]
  · rw [if_neg covered, if_neg fun present => covered present.1]
    rfl

/-- Looking up a code in the font metrics of a file. There is an entry exactly for the codes of the
range and a character exactly where the word of the code does not begin with a zero, and the
dimensions of a character are the words of the file that its indices point at, or zero where an
index passes the end of its own table. The null font has no characters. -/
theorem lookups_read_file :
    (∀ (file : Bytes) (m : FontMetrics), ofBytes file = .ok m → ∀ code : UInt8,
      let lh := file.halfAt 2
      let bc := file.halfAt 4
      let ec := file.halfAt 6
      let nw := file.halfAt 8
      let nh := file.halfAt 10
      let nd := file.halfAt 12
      let ni := file.halfAt 14
      let chars := 6 + lh + (ec + 1 - bc)
      let word := 24 + 4 * (lh + code.toNat - bc)
      ((m.charInfo? code).isSome ↔ bc ≤ code.toNat ∧ code.toNat ≤ ec) ∧
      ((m.dimensions? code).isSome ↔
        (bc ≤ code.toNat ∧ code.toNat ≤ ec) ∧ file.byteAt word ≠ 0) ∧
      ∀ d, m.dimensions? code = some d →
        file.entry? chars nw (file.byteAt word).toNat = some d.width.raw.toInt ∧
        file.entry? (chars + nw) nh ((file.byteAt (word + 1)).toNat / 16)
          = some d.height.raw.toInt ∧
        file.entry? (chars + nw + nh) nd ((file.byteAt (word + 1)).toNat % 16)
          = some d.depth.raw.toInt ∧
        file.entry? (chars + nw + nh + nd) ni ((file.byteAt (word + 2)).toNat / 4)
          = some d.italicCorrection.raw.toInt) ∧
    ∀ code : UInt8, null.charInfo? code = none ∧ null.dimensions? code = none := by
  constructor
  · intro file m accepted code lh bc ec nw nh nd ni chars word
    obtain ⟨sound, rfl⟩ := ofBytes_eq_ok_iff.mp accepted
    have whole : decodedExtent file ≤ file.length := by
      rw [(decodedExtent_of_sound sound).2]
      exact Nat.le_add_right _ _
    have extent : 4 * (chars + nw + nh + nd + ni) ≤ file.length := whole
    refine ⟨?_, ?_, ?_⟩
    · rw [charInfo?_stated whole, Option.isSome_ite]
      exact Iff.rfl
    · rw [dimensions?_stated whole, Option.isSome_ite]
      exact Iff.rfl
    · intro d found
      rw [dimensions?_stated whole, Option.ite_none_right_eq_some] at found
      obtain ⟨-, found⟩ := found
      cases found
      obtain ⟨widths, heights, depths, italics⟩ := tables_stated file
      rw [widths, heights, depths, italics, ← Bytes.entry?_eq (by omega),
        ← Bytes.entry?_eq (by omega), ← Bytes.entry?_eq (by omega), ← Bytes.entry?_eq (by omega)]
      exact ⟨rfl, rfl, rfl, rfl⟩
  · intro code
    have noEntry : null.charInfo? code = none := by
      unfold charInfo?
      split <;> rfl
    exact ⟨noEntry, by rw [dimensions?, noEntry]; rfl⟩

/-- A character whose depth and italic indices pass the ends of their tables, where a depth would be
read from the words behind it, and whose height is negative. -/
theorem lookups_read_file_short_tables :
    let file : Bytes := [0, 12, 0, 0, 0, 65, 0, 65, 0, 2, 0, 1, 0, 1, 0, 0, 0, 0, 0, 1, 0, 0, 0, 0,
      1, 0x01, 4, 0, 0, 0, 0, 0, 0, 8, 0, 0, 0xFF, 0xFC, 0, 0, 0, 1, 0, 0, 0, 3, 0, 0]
    ∃ m d, ofBytes file = .ok m ∧ m.charInfo? 66 = none ∧ m.dimensions? 65 = some d ∧
      d.width.raw.toInt = 2 ^ 19 ∧ d.height.raw.toInt = -2 ^ 18 ∧ d.depth.raw.toInt = 0 ∧
      d.italicCorrection.raw.toInt = 0 := by
  intro file
  have accepted : ofBytes file = .ok (stated file) := ofBytes_eq_ok_iff.mpr ⟨by decide, rfl⟩
  obtain ⟨-, present, entries⟩ := lookups_read_file.1 file _ accepted 65
  obtain ⟨beyond, -⟩ := lookups_read_file.1 file _ accepted 66
  obtain ⟨d, found⟩ := Option.isSome_iff_exists.mp (present.mpr (by decide))
  obtain ⟨width, height, depth, italic⟩ := entries d found
  refine ⟨_, d, accepted, ?_, found, ?_, ?_, ?_, ?_⟩
  · exact Option.not_isSome_iff_eq_none.mp (mt beyond.mp (by decide))
  · exact Option.some.inj (width.symm.trans (by decide))
  · exact Option.some.inj (height.symm.trans (by decide))
  · exact Option.some.inj (depth.symm.trans (by decide))
  · exact Option.some.inj (italic.symm.trans (by decide))

end FontMetrics

end TypesetKernel
