import TypesetKernel.FontMetrics.File
import TypesetKernel.Proofs.Bytes
import TypesetKernel.Proofs.FontMetrics.Decode

/-!
Writing a font metric file and decoding it again. A file decodes if and only if its counts fit into
16 bits and its range and its header texts obey the format, and then it decodes to the parts it was
written from (`ofBytes_encode`). Every part stands where the counts of the file say, since all parts
are made of words.
-/

namespace TypesetKernel

/-! ## The counts -/

/-- Counts that have been written are the counts that the file states. -/
theorem Counts.stated_of_holds {file : Bytes} {c : Counts} (held : file.Holds 0 c.bytes) :
    stated file = c := by
  have written : ((List.range 12).map fun i => UInt16.ofNat (file.halfAt (0 + 2 * i)))
      = c.toList := by
    apply List.ext_getElem
    · rfl
    · intro i _ inside
      have half := held.blockAt Bytes.length_ofHalf (List.getElem?_eq_getElem inside)
      rw [List.getElem_map, List.getElem_range, Bytes.halfAt, half, Bytes.value_ofHalf,
        UInt16.ofNat_toNat]
  have listed : some (stated file) = ofList? ((List.range 12).map fun i =>
      UInt16.ofNat (file.halfAt (0 + 2 * i))) := rfl
  rw [written, ofList?_toList] at listed
  exact Option.some.inj listed

/-! ## The parts behind the counts -/

namespace CharWord

@[simp] theorem length_bytes (w : CharWord) : w.bytes.length = 4 := rfl

theorem ofBytes?_bytes (w : CharWord) : ofBytes? w.bytes = some w := rfl

/-- The indices by the bits of the word: the height index is the upper half of a byte and the depth
index the lower one, the italic index is the upper six bits of a byte and the tag the lower two. -/
def info (w : CharWord) : CharInfo where
  widthIndex := w.width
  heightIndex := w.heightDepth >>> 4
  depthIndex := w.heightDepth &&& 0x0F
  italicIndex := w.italicTag >>> 2
  tag := w.italicTag &&& 0x03
  remainder := w.remainder

/-- Bits are separated by dividing by powers of two. -/
theorem unpack_eq_info (w : CharWord) : w.unpack = w.info := by
  have height : w.heightDepth / (16 : UInt8) = w.heightDepth >>> 4 := by
    apply UInt8.toNat_inj.mp
    simp [Nat.shiftRight_eq_div_pow]
  have depth : w.heightDepth % 16 = w.heightDepth &&& 0x0F := by
    apply UInt8.toNat_inj.mp
    simp [Nat.and_two_pow_sub_one_eq_mod w.heightDepth.toNat 4]
  have italic : w.italicTag / (4 : UInt8) = w.italicTag >>> 2 := by
    apply UInt8.toNat_inj.mp
    simp [Nat.shiftRight_eq_div_pow]
  have tag : w.italicTag % 4 = w.italicTag &&& 0x03 := by
    apply UInt8.toNat_inj.mp
    simp [Nat.and_two_pow_sub_one_eq_mod w.italicTag.toNat 2]
  rw [unpack, info, height, depth, italic, tag]

/-- Packing the indices gives the word back. -/
theorem pack_info (w : CharWord) : w.info.pack = w := by
  rw [← unpack_eq_info, CharInfo.pack_unpack]

end CharWord

namespace Bytes

theorem Holds.dimensionsAt_eq {file : Bytes} {offset : Nat} {table : List Int32}
    (held : Holds file offset (FontMetrics.File.tableBytes table)) :
    file.dimensionsAt offset table.length = table.map FixWord.mk := by
  apply List.ext_getElem
  · simp [dimensionsAt]
  · intro i _ inside
    rw [List.length_map] at inside
    have word := held.blockAt (fun raw : Int32 => length_ofWord raw.toUInt32)
      (List.getElem?_eq_getElem inside)
    simp only [dimensionsAt, List.getElem_map, List.getElem_range, wordAt, word, value_ofWord,
      UInt32.ofNat_toNat]
    rfl

theorem Holds.charInfosAt_eq {file : Bytes} {offset : Nat} {words : List CharWord}
    (held : Holds file offset (words.flatMap CharWord.bytes)) :
    file.charInfosAt offset words.length = words.map CharWord.info := by
  apply List.ext_getElem
  · simp [charInfosAt]
  · intro i _ inside
    rw [List.length_map] at inside
    have word := held.blockAt CharWord.length_bytes (List.getElem?_eq_getElem inside)
    simp only [charInfosAt, List.getElem_map, List.getElem_range, word, CharWord.ofBytes?_bytes,
      Option.getD_some, CharWord.unpack_eq_info]

/-- A written word begins with its highest byte. -/
theorem Holds.byteAt_word {file : Bytes} {offset : Nat} {words : List UInt32}
    (held : Holds file offset (words.flatMap ofWord)) {i : Nat} (inside : i < words.length) :
    (file.byteAt (offset + 4 * i)).toNat = (words.getD i 0).toNat / 2 ^ 24 := by
  have word := held.blockAt length_ofWord (List.getElem?_eq_getElem inside)
  have first : file.byteAt (offset + 4 * i)
      = byteAt ((file.drop (offset + 4 * i)).take 4) 0 := by
    simp [byteAt]
  have value : words.getD i 0 = words[i] := by
    rw [List.getD_eq_getElem?_getD, List.getElem?_eq_getElem inside, Option.getD_some]
  have bound := words[i].toNat_lt
  rw [first, word, value]
  simp only [ofWord, ofNat, byteAt, List.nil_append, List.cons_append, List.getD_cons_zero,
    UInt8.toNat_ofNat']
  omega

/-- The text in a block that begins with its length byte. -/
def blockText (block : Bytes) : String :=
  Utf8.decode ((block.drop 1).take (block.byteAt 0).toNat)

theorem textAt_eq_blockText (file : Bytes) (offset capacity : Nat) :
    file.textAt offset capacity = blockText ((file.drop offset).take (capacity + 1)) := by
  have length : file.byteAt offset = byteAt ((file.drop offset).take (capacity + 1)) 0 := by
    simp [byteAt]
  have text : (file.drop (offset + 1)).take capacity
      = ((file.drop offset).take (capacity + 1)).drop 1 := by
    rw [List.drop_take, List.drop_drop, Nat.add_sub_cancel]
  rw [textAt, blockText, length, text]

end Bytes

namespace Header

/-- The header that is made up of the given words. Words behind the last complete field are left
out. -/
def ofWords (words : List UInt32) : Header where
  checksum := words.getD 0 0
  designSize := FixWord.ofWord (words.getD 1 0)
  codingScheme :=
    if 12 ≤ words.length then Bytes.blockText (((words.drop 2).take 10).flatMap Bytes.ofWord)
    else ""
  identifier :=
    if 17 ≤ words.length then Bytes.blockText (((words.drop 12).take 5).flatMap Bytes.ofWord)
    else ""
  sevenBitSafe := decide (0x80000000 ≤ words.getD 17 0)
  face := (words.getD 17 0).toUInt8

section Written

variable {file : Bytes} {words : List UInt32} (held : file.Holds 24 (words.flatMap Bytes.ofWord))

include held

private theorem word_at (i : Nat) :
    (if i + 1 ≤ words.length then UInt32.ofNat (file.wordAt (24 + 4 * i)) else 0)
      = words.getD i 0 := by
  rw [List.getD_eq_getElem?_getD]
  by_cases inside : i < words.length
  · have found := List.getElem?_eq_getElem inside
    have word := held.blockAt Bytes.length_ofWord found
    rw [if_pos (Nat.succ_le_of_lt inside), Bytes.wordAt, word, Bytes.value_ofWord,
      UInt32.ofNat_toNat, found, Option.getD_some]
  · rw [if_neg (by omega), List.getElem?_eq_none (Nat.le_of_not_lt inside), Option.getD_none]

private theorem text_at {first count capacity : Nat} (inside : first + count ≤ words.length)
    (whole : capacity + 1 = 4 * count) :
    file.textAt (24 + 4 * first) capacity
      = Bytes.blockText (((words.drop first).take count).flatMap Bytes.ofWord) := by
  rw [Bytes.textAt_eq_blockText, whole, held.blocksAt Bytes.length_ofWord inside]

/-- Header words that have been written behind the counts are the header that the file states. -/
theorem stated_of_holds : stated words.length file = ofWords words := by
  have checksum := word_at held 0
  have designSize := word_at held 1
  have faceWord := word_at held 17
  have absent : FixWord.zero = FixWord.ofWord 0 := rfl
  unfold stated ofWords
  dsimp only
  rw [Header.mk.injEq]
  refine ⟨checksum, ?_, ?_, ?_, ?_, ?_⟩
  · rw [absent, ← apply_ite FixWord.ofWord]
    exact congrArg FixWord.ofWord designSize
  · split
    · exact text_at held (show 2 + 10 ≤ words.length by omega) rfl
    · rfl
  · split
    · exact text_at held (show 12 + 5 ≤ words.length by omega) rfl
    · rfl
  · exact congrArg (fun word => decide (0x80000000 ≤ word)) faceWord
  · exact congrArg UInt32.toUInt8 faceWord

end Written

end Header

namespace FontMetrics.File

/-- The font metrics that the parts of a file make up. -/
def metrics (f : File) : FontMetrics where
  header := Header.ofWords f.header
  lower := f.lower
  upper := f.upper
  charInfos := f.charWords.map CharWord.info
  widths := f.widths.map FixWord.mk
  heights := f.heights.map FixWord.mk
  depths := f.depths.map FixWord.mk
  italics := f.italics.map FixWord.mk
  undecoded := f.undecoded

/-- Counts up to 16 bits are written as they are. -/
private theorem toNat_count {n : Nat} (fits : n ≤ 65535) : (UInt16.ofNat n).toNat = n := by
  rw [UInt16.toNat_ofNat']
  exact Nat.mod_eq_of_lt (by omega)

private theorem length_header (words : List UInt32) :
    (words.flatMap Bytes.ofWord).length = 4 * words.length :=
  Bytes.length_flatMap Bytes.length_ofWord words

private theorem length_charWords_bytes (words : List CharWord) :
    (words.flatMap CharWord.bytes).length = 4 * words.length :=
  Bytes.length_flatMap CharWord.length_bytes words

private theorem length_table (table : List Int32) : (tableBytes table).length = 4 * table.length :=
  Bytes.length_flatMap (fun raw : Int32 => Bytes.length_ofWord raw.toUInt32) table

theorem length_encode (f : File) : f.encode.length = 4 * f.size := by
  simp only [encode, encodeWith, bodyBytes, List.length_append, Counts.length_bytes, Counts.size,
    List.length_replicate, length_header, length_charWords_bytes, length_table, size]
  omega

theorem stated_counts (f : File) : Counts.stated f.encode = f.counts :=
  Counts.stated_of_holds (Bytes.Holds.whole _).left

theorem counts_exact {f : File} (fits : f.size ≤ 65535) :
    f.counts.file.toNat = f.size ∧ f.counts.header.toNat = f.header.length ∧
    f.counts.widths.toNat = f.widths.length ∧ f.counts.heights.toNat = f.heights.length ∧
    f.counts.depths.toNat = f.depths.length ∧ f.counts.italics.toNat = f.italics.length := by
  have parts : f.header.length ≤ f.size ∧ f.widths.length ≤ f.size ∧ f.heights.length ≤ f.size ∧
      f.depths.length ≤ f.size ∧ f.italics.length ≤ f.size := by
    unfold size
    omega
  exact ⟨toNat_count fits, toNat_count (by omega), toNat_count (by omega), toNat_count (by omega),
    toNat_count (by omega), toNat_count (by omega)⟩

private theorem chars_counts (f : File) : f.counts.chars = f.charWords.length :=
  f.length_charWords.symm

theorem words_counts {f : File} (fits : f.size ≤ 65535) : f.counts.words = f.size := by
  obtain ⟨-, header, widths, heights, depths, italics⟩ := counts_exact fits
  rw [Counts.words, Counts.decodedWords, header, chars_counts, widths, heights, depths, italics]
  rfl

private theorem holds_body (f : File) : f.encode.Holds 24 f.bodyBytes := by
  have body := (Bytes.Holds.whole f.encode).right
  rwa [Counts.length_bytes, Nat.zero_add] at body

theorem holds_header (f : File) : f.encode.Holds 24 (f.header.flatMap Bytes.ofWord) := by
  have body := holds_body f
  simp only [bodyBytes, List.append_assoc] at body
  exact body.left

/-- Every part stands where the counts say if they are exact. -/
theorem stated_encode {f : File} (fits : f.size ≤ 65535) : stated f.encode = f.metrics := by
  obtain ⟨-, header, widths, heights, depths, italics⟩ := counts_exact fits
  have atHeader := holds_body f
  simp only [bodyBytes, List.append_assoc] at atHeader
  have atChars := atHeader.right
  have atWidths := atChars.right
  have atHeights := atWidths.right
  have atDepths := atHeights.right
  have atItalics := atDepths.right
  simp only [length_header, length_charWords_bytes, length_table]
    at atChars atWidths atHeights atDepths atItalics
  rw [stated, stated_counts, statedFor, metrics, FontMetrics.mk.injEq]
  rw [header, chars_counts, widths, heights, depths, italics]
  exact ⟨Header.stated_of_holds atHeader.left, rfl, rfl, atChars.left.charInfosAt_eq,
    atWidths.left.dimensionsAt_eq, atHeights.left.dimensionsAt_eq, atDepths.left.dimensionsAt_eq,
    atItalics.left.dimensionsAt_eq, rfl⟩

/-- A file breaks no rule if and only if its counts are exact and what it was made of is within the
limits. Counts that are cut contradict the size. -/
theorem firstFault?_encode (f : File) :
    firstFault? f.encode.length f.encode = none ↔
      f.size ≤ 65535 ∧ f.upper.toNat ≤ 255 ∧ f.lower.toNat ≤ f.upper.toNat + 1 ∧
      f.undecoded.extensible.toNat ≤ 256 ∧
      (12 ≤ f.header.length → (f.header.getD 2 0).toNat / 2 ^ 24 ≤ 39) ∧
      (17 ≤ f.header.length → (f.header.getD 12 0).toNat / 2 ^ 24 ≤ 19) := by
  rw [firstFault?_eq_none_iff f.stated_counts, length_encode]
  by_cases fits : f.size ≤ 65535
  · obtain ⟨file, header, -⟩ := counts_exact fits
    have scheme (stage : 12 ≤ f.header.length) := (holds_header f).byteAt_word (i := 2) (by omega)
    have identifier (stage : 17 ≤ f.header.length) :=
      (holds_header f).byteAt_word (i := 12) (by omega)
    rw [file, header, words_counts fits]
    constructor
    · rintro ⟨-, -, upper, lower, recipes, schemeFits, identifierFits⟩
      refine ⟨fits, upper, lower, recipes, ?_, ?_⟩
      · intro stage
        rw [← scheme stage]
        exact schemeFits stage
      · intro stage
        rw [← identifier stage]
        exact identifierFits stage
    · rintro ⟨-, upper, lower, recipes, schemeFits, identifierFits⟩
      refine ⟨rfl, rfl, upper, lower, recipes, ?_, ?_⟩
      · intro stage
        rw [scheme stage]
        exact schemeFits stage
      · intro stage
        rw [identifier stage]
        exact identifierFits stage
  · have declared : f.counts.file.toNat < 65536 := f.counts.file.toNat_lt
    constructor
    · rintro ⟨whole, -⟩
      omega
    · rintro ⟨small, -⟩
      exact absurd small fits

/-- A file that is written decodes if and only if its counts fit and its parts are within the limits
of the format, and then to exactly these parts; packing the entries of its characters gives the
words that were written. -/
theorem ofBytes_encode (f : File) :
    ((∃ metrics, ofBytes f.encode = .ok metrics) ↔
      f.size ≤ 65535 ∧ f.upper.toNat ≤ 255 ∧ f.lower.toNat ≤ f.upper.toNat + 1 ∧
      f.undecoded.extensible.toNat ≤ 256 ∧
      (12 ≤ f.header.length → (f.header.getD 2 0).toNat / 2 ^ 24 ≤ 39) ∧
      (17 ≤ f.header.length → (f.header.getD 12 0).toNat / 2 ^ 24 ≤ 19)) ∧
    ∀ metrics, ofBytes f.encode = .ok metrics →
      metrics = f.metrics ∧ metrics.charInfos.map CharInfo.pack = f.charWords := by
  constructor
  · rw [← firstFault?_encode]
    simp [ofBytes_eq_ok_iff]
  · intro metrics decoded
    obtain ⟨sound, states⟩ := ofBytes_eq_ok_iff.mp decoded
    have parts : metrics = f.metrics := by
      rw [← states]
      exact stated_encode ((firstFault?_encode f).mp sound).1
    refine ⟨parts, ?_⟩
    rw [parts, File.metrics, List.map_map]
    exact List.map_id'' CharWord.pack_info f.charWords

end FontMetrics.File

end TypesetKernel
