import TypesetKernel.Proofs.FontMetrics.Decode
import TypesetKernel.Proofs.FontMetrics.Restored
import TypesetKernel.Proofs.Utf8

/-!
How long the two texts of a header can become. A text is declared by a length byte that the block
behind it has room for, and this bounds its bytes. A text that is declared in UTF-8 is as long as
its bytes; any other text may exceed the capacity of its block by two bytes for each replacement
character, up to three times the capacity (`headerTexts_bounded`), and the bound can be reached
(`headerTexts_exceed`).

When a complete header is written, a text goes into a block of fixed capacity behind its length, of
which only the lowest byte is written; the block is filled up with zeros or cut, so every field
keeps its place. A text whose length byte exceeds the block is rejected. Any other one comes back as
far as its length byte goes (`ofBytes_encode_words`), and a text that fits into its block comes back
as it was.
-/

namespace TypesetKernel

/-! ## Declared texts -/

namespace Header

/-- The bytes that a header of the given number of words declares as a text, behind the length byte
at an offset. A header that does not reach to the end of the block, its word `last`, declares
none. -/
def declaredText (words last offset : Nat) (file : Bytes) : Bytes :=
  if last ≤ words then (file.drop (offset + 1)).take (file.byteAt offset).toNat else []

variable {words last offset capacity : Nat} {file : Bytes}

theorem length_declaredText (fits : last ≤ words → (file.byteAt offset).toNat ≤ capacity) :
    (declaredText words last offset file).length ≤ capacity := by
  unfold declaredText
  split
  case isTrue held => exact Nat.le_trans (List.length_take_le _ _) (fits held)
  case isFalse => exact Nat.zero_le _

/-- A text is what its declared bytes are read as. -/
theorem text_eq_decode (fits : last ≤ words → (file.byteAt offset).toNat ≤ capacity) :
    (if last ≤ words then file.textAt offset capacity else "")
      = Utf8.decode (declaredText words last offset file) := by
  unfold declaredText
  split
  case isTrue held => rw [Bytes.textAt, List.take_take, Nat.min_eq_left (fits held)]
  case isFalse => rfl

end Header

namespace FontMetrics

variable {file : Bytes} {m : FontMetrics}

/-- The two texts of an accepted file are read from bytes that fit into their blocks. -/
theorem texts_of_accepted (accepted : ofBytes file = .ok m) :
    let scheme := Header.declaredText (file.halfAt 2) 12 32 file
    let identifier := Header.declaredText (file.halfAt 2) 17 72 file
    (m.header.codingScheme = Utf8.decode scheme ∧ scheme.length ≤ 39) ∧
      m.header.identifier = Utf8.decode identifier ∧ identifier.length ≤ 19 := by
  obtain ⟨sound, rfl⟩ := ofBytes_eq_ok_iff.mp accepted
  obtain ⟨-, -, -, -, -, scheme, identifier⟩ := (firstFault?_eq_none_iff rfl).mp sound
  have words : (Counts.stated file).header.toNat = file.halfAt 2 := Bytes.toNat_ofNat_halfAt _ _
  rw [words] at scheme identifier
  have header : (stated file).header = Header.stated (file.halfAt 2) file := by
    rw [← words]
    rfl
  rw [header]
  exact ⟨⟨Header.text_eq_decode scheme, Header.length_declaredText scheme⟩,
    Header.text_eq_decode identifier, Header.length_declaredText identifier⟩

/-- The coding scheme and the identifier of an accepted file have at most 39 and 19 bytes, and two
more for each replacement character, so at most three times as many. A text that is declared in
UTF-8 keeps to the capacity of its block. -/
theorem headerTexts_bounded (accepted : ofBytes file = .ok m) :
    let scheme := m.header.codingScheme
    let identifier := m.header.identifier
    (scheme.utf8ByteSize ≤ 39 + 2 * scheme.toList.count Utf8.replacement ∧
      scheme.utf8ByteSize ≤ 3 * 39) ∧
    (identifier.utf8ByteSize ≤ 19 + 2 * identifier.toList.count Utf8.replacement ∧
      identifier.utf8ByteSize ≤ 3 * 19) ∧
    (∀ s, Header.declaredText (file.halfAt 2) 12 32 file = Utf8.encode s →
      scheme = s ∧ s.utf8ByteSize ≤ 39) ∧
    ∀ s, Header.declaredText (file.halfAt 2) 17 72 file = Utf8.encode s →
      identifier = s ∧ s.utf8ByteSize ≤ 19 := by
  obtain ⟨⟨scheme, schemeFits⟩, identifier, identifierFits⟩ := texts_of_accepted accepted
  dsimp only
  rw [scheme, identifier]
  exact ⟨Utf8.utf8ByteSize_decode_le_of_fits schemeFits,
    Utf8.utf8ByteSize_decode_le_of_fits identifierFits,
    fun _ => Utf8.decode_of_encoded schemeFits, fun _ => Utf8.decode_of_encoded identifierFits⟩

/-- A header whose coding scheme is text, with a character of two bytes, and whose identifier is a
byte that cannot begin a character. -/
theorem headerTexts_bounded_accent :
    let file : Bytes := [0, 23, 0, 17, 0, 1, 0, 0] ++ List.replicate 24 0 ++
      [3, 84, 0xC3, 0xA9] ++ List.replicate 36 0 ++ [1, 0xFF] ++ List.replicate 18 0
    ∃ m, ofBytes file = .ok m ∧ m.header.codingScheme = "Té" ∧
      m.header.codingScheme.utf8ByteSize ≤ 39 ∧ m.header.identifier.utf8ByteSize ≤ 3 * 19 := by
  intro file
  have accepted : ofBytes file = .ok (stated file) := ofBytes_eq_ok_iff.mpr ⟨by decide, rfl⟩
  obtain ⟨-, ⟨-, identifier⟩, verbatim, -⟩ := headerTexts_bounded accepted
  obtain ⟨scheme, short⟩ := verbatim "Té" (by rw [Utf8.encode_eq]; decide)
  exact ⟨_, accepted, scheme, by rw [scheme]; exact short, identifier⟩

/-- Two texts that fill their blocks with bytes that cannot begin a character. Both are accepted,
and have 117 and 57 bytes. -/
theorem headerTexts_exceed :
    let file : Bytes := [0, 23, 0, 17, 0, 1, 0, 0] ++ List.replicate 24 0 ++
      39 :: List.replicate 39 0xFF ++ 19 :: List.replicate 19 0xFF
    ∃ m, ofBytes file = .ok m ∧ m.header.codingScheme.utf8ByteSize = 117 ∧
      m.header.identifier.utf8ByteSize = 57 := by
  intro file
  have accepted : ofBytes file = .ok (stated file) := ofBytes_eq_ok_iff.mpr ⟨by decide, rfl⟩
  exact ⟨_, accepted, by decide, by decide⟩

end FontMetrics

/-! ## Parts of a written header -/

namespace Bytes.Holds

variable {file part : Bytes} {offset : Nat}

theorem take_eq (held : Holds file offset part) : (file.drop offset).take part.length = part :=
  (List.prefix_iff_eq_take.mp held).symm

theorem wordAt_eq {word : UInt32} (held : Holds file offset (ofWord word)) :
    UInt32.ofNat (file.wordAt offset) = word := by
  have bytes := held.take_eq
  rw [length_ofWord] at bytes
  rw [wordAt, bytes, value_ofWord, UInt32.ofNat_toNat]

end Bytes.Holds

namespace Header

variable {h : Header} {file : Bytes} {offset capacity : Nat} {s : String}

/-! ## Blocks of text -/

/-- The bytes of a text as far as its length byte goes. -/
def counted (s : String) : Bytes := (Utf8.encode s).take (s.utf8ByteSize % 256)

theorem textBlock_eq (capacity : Nat) (s : String) : textBlock capacity s
    = UInt8.ofNat s.utf8ByteSize :: (Utf8.encode s ++ List.replicate capacity 0).take capacity := by
  simp only [textBlock, List.cons_append, List.take_succ_cons, Utf8.length_encode]

@[simp] theorem length_textBlock (capacity : Nat) (s : String) :
    (textBlock capacity s).length = capacity + 1 := by
  simp [textBlock_eq]

theorem byteAt_of_holds_textBlock (held : file.Holds offset (textBlock capacity s)) :
    (file.byteAt offset).toNat = s.utf8ByteSize % 256 := by
  have block := held.take_eq
  rw [length_textBlock] at block
  have first := Bytes.byteAt_part file offset (Nat.succ_pos capacity)
  rw [block, textBlock_eq] at first
  rw [← Nat.add_zero offset, ← first]
  exact UInt8.toNat_ofNat'

/-- The length byte of a text counts bytes of the text, not of what fills the block. -/
theorem blockText_textBlock (fits : s.utf8ByteSize % 256 ≤ capacity) :
    Bytes.blockText (textBlock capacity s) = Utf8.decode (counted s) := by
  have length : (Bytes.byteAt (textBlock capacity s) 0).toNat = s.utf8ByteSize % 256 :=
    byteAt_of_holds_textBlock (Bytes.Holds.whole _)
  have within : s.utf8ByteSize % 256 ≤ (Utf8.encode s).length := by
    rw [Utf8.length_encode]
    exact Nat.mod_le _ _
  rw [Bytes.blockText, length, textBlock_eq, List.drop_one, List.tail_cons, List.take_take,
    Nat.min_eq_left fits, List.take_append_of_le_length within, counted]

theorem textAt_of_holds_textBlock (held : file.Holds offset (textBlock capacity s))
    (fits : s.utf8ByteSize % 256 ≤ capacity) :
    file.textAt offset capacity = Utf8.decode (counted s) := by
  have block := held.take_eq
  rw [length_textBlock] at block
  rw [Bytes.textAt_eq_blockText, block, blockText_textBlock fits]

/-- A text that fits into a block is counted as a whole. -/
theorem decode_counted (short : s.utf8ByteSize < 256) : Utf8.decode (counted s) = s := by
  rw [counted, Nat.mod_eq_of_lt short, ← Utf8.length_encode, List.take_length, Utf8.decode_encode]

/-! ## Headers -/

theorem length_bytes (h : Header) : h.bytes.length = 4 * 18 := by
  simp [bytes, Decoder.codingSchemeCapacity, Decoder.identifierCapacity]

theorem length_words (h : Header) : h.words.length = 18 :=
  (flatMap_wordsOfBytes h.length_bytes).2

theorem flatMap_words (h : Header) : h.words.flatMap Bytes.ofWord = h.bytes :=
  (flatMap_wordsOfBytes h.length_bytes).1

/-- What a header becomes when the lengths of its texts are cut to a byte. -/
def cut (h : Header) : Header :=
  { h with
    codingScheme := Utf8.decode (counted h.codingScheme)
    identifier := Utf8.decode (counted h.identifier) }

/-- The last word of a header has its flag in the highest bit and its face in the lowest byte. -/
def faceWord (h : Header) : UInt32 :=
  UInt32.ofNat (Bytes.value [if h.sevenBitSafe then 0x80 else 0, 0, 0, h.face])

theorem ofWord_faceWord (h : Header) :
    Bytes.ofWord h.faceWord = [if h.sevenBitSafe then 0x80 else 0, 0, 0, h.face] :=
  Bytes.ofWord_value rfl

theorem toNat_faceWord (h : Header) :
    h.faceWord.toNat = (if h.sevenBitSafe then 0x80000000 else 0) + h.face.toNat := by
  have bound := h.face.toNat_lt
  rw [faceWord, UInt32.toNat_ofNat']
  cases h.sevenBitSafe with
  | false => simp [Bytes.value]
  | true =>
    simp [Bytes.value]
    omega

theorem sevenBitSafe_faceWord (h : Header) : decide (0x80000000 ≤ h.faceWord) = h.sevenBitSafe := by
  have bound := h.face.toNat_lt
  have limit : (0x80000000 : UInt32).toNat = 0x80000000 := rfl
  rw [Bool.eq_iff_iff, decide_eq_true_eq, UInt32.le_iff_toNat_le, toNat_faceWord, limit]
  cases h.sevenBitSafe with
  | false =>
    simp
    omega
  | true => simp

theorem face_faceWord (h : Header) : h.faceWord.toUInt8 = h.face := by
  have bound := h.face.toNat_lt
  apply UInt8.toNat_inj.mp
  rw [UInt32.toNat_toUInt8, toNat_faceWord]
  split <;> omega

section Written

variable (held : file.Holds 24 h.bytes)

include held

/-- Whatever the texts are, every field of a header stands at its offset. -/
theorem holds_fields :
    file.Holds 24 (Bytes.ofWord h.checksum) ∧ file.Holds 28 (Bytes.ofWord h.designSize.toWord) ∧
    file.Holds 32 (textBlock Decoder.codingSchemeCapacity h.codingScheme) ∧
    file.Holds 72 (textBlock Decoder.identifierCapacity h.identifier) ∧
    file.Holds 92 (Bytes.ofWord h.faceWord) := by
  -- The offsets are the same for all texts, since only their capacities count for the lengths.
  rw [bytes, ← ofWord_faceWord] at held
  simp only [List.append_assoc] at held
  have atSize := held.right
  have atScheme := atSize.right
  have atIdentifier := atScheme.right
  have atFace := atIdentifier.right
  simp only [Bytes.length_ofWord, length_textBlock] at atSize atScheme atIdentifier atFace
  exact ⟨held.left, atSize.left, atScheme.left, atIdentifier.left, atFace⟩

/-- The texts of a header are too long if and only if their length bytes are. -/
theorem textFault?_of_holds : textFault? 18 file =
    if 39 < h.codingScheme.utf8ByteSize % 256 then some .codingSchemeTooLong
    else if 19 < h.identifier.utf8ByteSize % 256 then some .identifierTooLong
    else none := by
  obtain ⟨-, -, scheme, identifier, -⟩ := holds_fields held
  simp [textFault?, byteAt_of_holds_textBlock scheme, byteAt_of_holds_textBlock identifier]

theorem stated_of_holds_bytes (schemeFits : h.codingScheme.utf8ByteSize % 256 ≤ 39)
    (identifierFits : h.identifier.utf8ByteSize % 256 ≤ 19) : stated 18 file = h.cut := by
  obtain ⟨checksum, designSize, scheme, identifier, face⟩ := holds_fields held
  have schemeText := textAt_of_holds_textBlock scheme schemeFits
  have identifierText := textAt_of_holds_textBlock identifier identifierFits
  simp [stated, cut, checksum.wordAt_eq, designSize.wordAt_eq, face.wordAt_eq, schemeText,
    identifierText, sevenBitSafe_faceWord, face_faceWord]

end Written

end Header

namespace FontMetrics

/-! ## Files with complete headers -/

/-- The file has no more words than its counts can state, its range is one of byte codes and its
recipes are not too many. -/
structure File.Sized (f : File) : Prop where
  size : f.size ≤ 65535
  upper : f.upper.toNat ≤ 255
  lower : f.lower.toNat ≤ f.upper.toNat + 1
  recipes : f.undecoded.extensible.toNat ≤ 256

variable {f : File} {h : Header}

/-- Nothing but the texts of its header can be wrong with a file of valid sizes. -/
theorem File.Sized.firstFault?_eq (sized : f.Sized) :
    firstFault? f.encode.length f.encode = Header.textFault? f.header.length f.encode := by
  obtain ⟨file, header, -⟩ := File.counts_exact sized.size
  have sound : f.counts.fault? f.encode.length = none := by
    refine Counts.fault?_eq_none_iff.mpr ⟨?_, ?_, sized.upper, sized.lower, sized.recipes⟩
    · rw [file, File.length_encode]
    · rw [file, File.words_counts sized.size]
  have least : 6 ≤ f.size := by
    unfold File.size
    omega
  have declared : f.encode.halfAt 0 = f.size := by
    rw [← file, ← f.stated_counts, Counts.stated, Bytes.toNat_ofNat_halfAt]
  rw [FontMetrics.firstFault?_eq, f.stated_counts, sound, header, Option.none_or]
  · rw [File.length_encode]
    omega
  · rw [declared]
    omega

/-- A file of valid sizes with a complete header is decoded as far as the length bytes of the texts
allow. -/
theorem ofBytes_of_sized (sized : f.Sized) (written : f.header = h.words) :
    let scheme := h.codingScheme.utf8ByteSize % 256
    let identifier := h.identifier.utf8ByteSize % 256
    (39 < scheme → ofBytes f.encode = .error .codingSchemeTooLong) ∧
    (scheme ≤ 39 → 19 < identifier → ofBytes f.encode = .error .identifierTooLong) ∧
    (scheme ≤ 39 → identifier ≤ 19 → ofBytes f.encode = .ok (stated f.encode) ∧
      (stated f.encode).header = h.cut) := by
  intro scheme identifier
  have length : f.header.length = 18 := by rw [written, Header.length_words]
  have held : f.encode.Holds 24 h.bytes := by
    rw [← Header.flatMap_words, ← written]
    exact f.holds_header
  have fault := sized.firstFault?_eq
  rw [length, Header.textFault?_of_holds held] at fault
  have decoded := ofBytes_eq_verdict f.encode
  rw [verdict, fault] at decoded
  refine ⟨fun long => ?_, fun schemeFits long => ?_, fun schemeFits identifierFits => ?_⟩
  · rw [decoded, if_pos long]
  · rw [decoded, if_neg (Nat.not_lt.mpr schemeFits), if_pos long]
  · have words : (Counts.stated f.encode).header.toNat = 18 := by
      rw [f.stated_counts, (File.counts_exact sized.size).2.1, length]
    constructor
    · rw [decoded, if_neg (Nat.not_lt.mpr schemeFits), if_neg (Nat.not_lt.mpr identifierFits)]
    · rw [stated, statedFor, words]
      exact Header.stated_of_holds_bytes held schemeFits identifierFits

/-- A complete header has 18 words, whatever its texts are. A file of valid sizes with such a header
is rejected for its coding scheme if and only if the lowest byte of the length of this text is above
39, otherwise for its identifier if and only if the one of that text is above 19, and otherwise
decoded with the header it was made from, each text as far as its length byte goes. A text that fits
into its block is a whole one. -/
theorem ofBytes_encode_words (h : Header) :
    h.words.length = 18 ∧ ∀ f : File, f.header = h.words → f.Sized →
      let scheme := h.codingScheme
      let identifier := h.identifier
      (ofBytes f.encode = .error .codingSchemeTooLong ↔ 39 < scheme.utf8ByteSize % 256) ∧
      (scheme.utf8ByteSize % 256 ≤ 39 →
        (ofBytes f.encode = .error .identifierTooLong ↔ 19 < identifier.utf8ByteSize % 256)) ∧
      (scheme.utf8ByteSize % 256 ≤ 39 → identifier.utf8ByteSize % 256 ≤ 19 →
        ∃ m, ofBytes f.encode = .ok m ∧
          m.header = { h with
            codingScheme :=
              Utf8.decode ((Utf8.encode scheme).take (scheme.utf8ByteSize % 256))
            identifier :=
              Utf8.decode ((Utf8.encode identifier).take (identifier.utf8ByteSize % 256)) } ∧
          (scheme.utf8ByteSize ≤ 39 → m.header.codingScheme = scheme) ∧
          (identifier.utf8ByteSize ≤ 19 → m.header.identifier = identifier)) := by
  refine ⟨h.length_words, fun f written sized => ?_⟩
  obtain ⟨schemeLong, identifierLong, decoded⟩ := ofBytes_of_sized sized written
  refine ⟨⟨fun rejected => ?_, schemeLong⟩,
    fun schemeFits => ⟨fun rejected => ?_, identifierLong schemeFits⟩,
    fun schemeFits identifierFits => ?_⟩
  · by_contra short
    have schemeFits := Nat.le_of_not_lt short
    obtain long | identifierFits := Nat.lt_or_ge 19 (h.identifier.utf8ByteSize % 256)
    · rw [identifierLong schemeFits long] at rejected
      cases rejected
    · rw [(decoded schemeFits identifierFits).1] at rejected
      cases rejected
  · by_contra short
    rw [(decoded schemeFits (Nat.le_of_not_lt short)).1] at rejected
    cases rejected
  · obtain ⟨accepted, header⟩ := decoded schemeFits identifierFits
    refine ⟨_, accepted, header, fun short => ?_, fun short => ?_⟩
    · rw [header]
      exact Header.decode_counted (by omega)
    · rw [header]
      exact Header.decode_counted (by omega)

/-- An identifier of 257 bytes, of which only the first is counted. It is the first of two bytes of
a character, so a replacement character is read in its place. -/
theorem ofBytes_encode_words_split :
    let h : Header :=
      { checksum := 0xCAFE, designSize := ⟨0xA00000⟩, codingScheme := "Té", face := 2,
        identifier := String.ofList (List.replicate 128 'é' ++ ['m']), sevenBitSafe := true }
    let f : File := { lower := 1, upper := 0, header := h.words }
    h.identifier.utf8ByteSize = 257 ∧ f.Sized ∧
      ∃ m, ofBytes f.encode = .ok m ∧ m.header = { h with identifier := "\uFFFD" } := by
  intro h f
  have length : h.words.length = 18 := (ofBytes_encode_words h).1
  have sized : f.Sized := by
    have size : f.size = 24 := by simp [File.size, f, length, codeCount, TableSizes.words]
    exact ⟨by omega, by decide, by decide, by decide⟩
  have scheme : h.codingScheme.utf8ByteSize = 3 := by
    rw [← Utf8.length_encode, Utf8.encode_eq]
    decide
  have accent : 'é'.utf8Size = 2 := rfl
  have letter : 'm'.utf8Size = 1 := rfl
  have identifier : h.identifier.utf8ByteSize = 257 := by
    rw [Utf8.utf8ByteSize_ofList]
    simp [accent, letter]
  have beginning : Utf8.decode ((Utf8.encode h.identifier).take 1) = "\uFFFD" := by
    rw [Utf8.encode_eq, String.toList_ofList]
    decide
  obtain ⟨m, accepted, header, verbatim, -⟩ :=
    ((ofBytes_encode_words h).2 f rfl sized).2.2 (by omega) (by omega)
  have whole := verbatim (by omega)
  rw [header] at whole
  refine ⟨identifier, sized, m, accepted, ?_⟩
  rw [header, Header.mk.injEq, identifier]
  exact ⟨rfl, rfl, whole, beginning, rfl, rfl⟩

end FontMetrics

end TypesetKernel
