import Mathlib.Tactic.SplitIfs
import TypesetKernel.Proofs.Decoder

/-!
Where everything stands in a font metric file. `Counts.stated`, `Header.stated` and
`FontMetrics.stated` take what a file says from fixed places of it, `FontMetrics.firstFault?` is the
first rule of the format that a file breaks, and `FontMetrics.decode_reads` says that decoding finds
the one or the other.
-/

namespace TypesetKernel

/-- The text in a block of the given capacity behind its length byte. -/
def Bytes.textAt (file : Bytes) (offset capacity : Nat) : String :=
  Utf8.decode (((file.drop (offset + 1)).take capacity).take (file.byteAt offset).toNat)

def Bytes.dimensionsAt (file : Bytes) (offset count : Nat) : List FixWord :=
  (List.range count).map fun i => FixWord.ofWord (UInt32.ofNat (file.wordAt (offset + 4 * i)))

def Bytes.charInfosAt (file : Bytes) (offset count : Nat) : List CharInfo :=
  (List.range count).map fun i =>
    ((CharWord.ofBytes? ((file.drop (offset + 4 * i)).take 4)).getD .zero).unpack

/-- The counts that a file begins with. -/
def Counts.stated (file : Bytes) : Counts where
  file := UInt16.ofNat (file.halfAt 0)
  header := UInt16.ofNat (file.halfAt 2)
  lower := UInt16.ofNat (file.halfAt 4)
  upper := UInt16.ofNat (file.halfAt 6)
  widths := UInt16.ofNat (file.halfAt 8)
  heights := UInt16.ofNat (file.halfAt 10)
  depths := UInt16.ofNat (file.halfAt 12)
  italics := UInt16.ofNat (file.halfAt 14)
  undecoded :=
    { ligKern := UInt16.ofNat (file.halfAt 16)
      kern := UInt16.ofNat (file.halfAt 18)
      extensible := UInt16.ofNat (file.halfAt 20)
      params := UInt16.ofNat (file.halfAt 22) }

/-- The header of the given number of words behind the counts. -/
def Header.stated (words : Nat) (file : Bytes) : Header :=
  let faceWord := if 18 ≤ words then UInt32.ofNat (file.wordAt 92) else 0
  { checksum := if 1 ≤ words then UInt32.ofNat (file.wordAt 24) else 0
    designSize := if 2 ≤ words then FixWord.ofWord (UInt32.ofNat (file.wordAt 28)) else .zero
    codingScheme := if 12 ≤ words then file.textAt 32 Decoder.codingSchemeCapacity else ""
    identifier := if 17 ≤ words then file.textAt 72 Decoder.identifierCapacity else ""
    sevenBitSafe := decide (0x80000000 ≤ faceWord)
    face := faceWord.toUInt8 }

/-- The first text of a header of the given number of words that is too long for its block. -/
def Header.textFault? (words : Nat) (file : Bytes) : Option Diagnostic :=
  if 12 ≤ words ∧ 39 < (file.byteAt 32).toNat then some .codingSchemeTooLong
  else if 17 ≤ words ∧ 19 < (file.byteAt 72).toNat then some .identifierTooLong
  else none

namespace FontMetrics

/-- The font metrics of a file with the given counts. -/
def statedFor (c : Counts) (file : Bytes) : FontMetrics :=
  let chars := 24 + 4 * c.header.toNat
  let widths := chars + 4 * c.chars
  let heights := widths + 4 * c.widths.toNat
  let depths := heights + 4 * c.heights.toNat
  let italics := depths + 4 * c.depths.toNat
  { header := Header.stated c.header.toNat file
    lower := c.lower
    upper := c.upper
    charInfos := file.charInfosAt chars c.chars
    widths := file.dimensionsAt widths c.widths.toNat
    heights := file.dimensionsAt heights c.heights.toNat
    depths := file.dimensionsAt depths c.depths.toNat
    italics := file.dimensionsAt italics c.italics.toNat
    undecoded := c.undecoded }

def stated (file : Bytes) : FontMetrics := statedFor (Counts.stated file) file

/-- The first rule of the format that a file breaks, if its reported size is `size`. All numbers are
natural numbers, so no sum is too large for them. -/
def firstFault? (size : Nat) (file : Bytes) : Option Diagnostic :=
  let lf := file.halfAt 0
  let lh := file.halfAt 2
  let bc := file.halfAt 4
  let ec := file.halfAt 6
  let ne := file.halfAt 20
  let parts := 6 + lh + (ec + 1 - bc) + file.halfAt 8 + file.halfAt 10 + file.halfAt 12
    + file.halfAt 14 + file.halfAt 16 + file.halfAt 18 + ne + file.halfAt 22
  if size < 24 then some .fileTooSmall
  else if lf < 6 then some .fileLengthTooSmall
  else if 4 * lf ≠ size then some (.fileSizeMismatch (4 * lf) size)
  else if ec > 255 ∨ bc > ec + 1 then some (.badCharacterRange bc ec)
  else if ne > 256 then some (.tooManyExtensible ne)
  else if parts ≠ lf then some (.inconsistentSizes parts lf)
  else if 12 ≤ lh ∧ 39 < (file.byteAt 32).toNat then some .codingSchemeTooLong
  else if 17 ≤ lh ∧ 19 < (file.byteAt 72).toNat then some .identifierTooLong
  else none

/-- What decoding makes of a file: what it states, or the first rule that it breaks. -/
def verdict (size : Nat) (file : Bytes) : Except Diagnostic FontMetrics :=
  match firstFault? size file with
  | some fault => .error fault
  | none => .ok (stated file)

end FontMetrics

namespace Decoder

variable {file : Bytes} {start : Nat}

private theorem text_of_fits {capacity : Nat} (tooLong : Diagnostic)
    (fits : (file.byteAt start).toNat ≤ capacity) :
    Reads file start (text capacity tooLong) (.ok (file.textAt start capacity))
      (start + 1 + capacity) := by
  unfold text
  refine Reads.byte.bind ?_
  rw [if_neg (Nat.not_lt.mpr fits)]
  exact (Reads.take capacity).bind (.pure _)

private theorem text_of_exceeds {capacity : Nat} (tooLong : Diagnostic)
    (exceeds : capacity < (file.byteAt start).toNat) :
    Reads file start (text capacity tooLong) (.error tooLong) (start + 1) := by
  unfold text
  refine Reads.byte.bind ?_
  rw [if_pos exceeds]
  exact .throw _

/-- A field that the header reaches starts at a fixed offset, since all fields before it are reached
as well. -/
private theorem header_of_fits {words : Nat} (fits : Header.textFault? words file = none) :
    ∃ stop ≤ 24 + 4 * words,
      Reads file 24 (header words) (.ok (Header.stated words file)) stop := by
  have texts : (12 ≤ words → (file.byteAt 32).toNat ≤ 39) ∧
      (17 ≤ words → (file.byteAt 72).toNat ≤ 19) := by
    unfold Header.textFault? at fits
    split_ifs at fits
    omega
  refine ⟨_, ?_, (Reads.field 28 fun _ => .word).bind ((Reads.field 32 fun held => ?_).bind
    ((Reads.field 72 fun held => ?_).bind ((Reads.field 92 fun held => ?_).bind
      ((Reads.field 96 fun held => ?_).bind (.pure _)))))⟩
  · split_ifs <;> omega
  · rw [if_pos (by omega)]
    exact Reads.word.map _
  · rw [if_pos (by omega)]
    exact text_of_fits _ (texts.1 held)
  · rw [if_pos (by omega)]
    exact text_of_fits _ (texts.2 held)
  · rw [if_pos (by omega)]
    exact .word

private theorem header_of_fault {words : Nat} {fault : Diagnostic}
    (found : Header.textFault? words file = some fault) :
    ∃ stop ≤ 24 + 4 * words, Reads file 24 (header words) (.error fault) stop := by
  unfold Header.textFault? at found
  split_ifs at found with scheme identifier
  · cases found
    refine ⟨33, by omega, ?_⟩
    unfold header field
    rw [if_pos (by omega), if_pos (by omega), if_pos scheme.1]
    exact Reads.word.bind ((Reads.word.map _).bind (text_of_exceeds _ scheme.2).stop)
  · cases found
    have fits : (file.byteAt 32).toNat ≤ 39 := by omega
    refine ⟨73, by omega, ?_⟩
    unfold header field
    rw [if_pos (by omega), if_pos (by omega), if_pos (by omega), if_pos identifier.1]
    exact Reads.word.bind ((Reads.word.map _).bind
      ((text_of_fits _ fits).bind (text_of_exceeds _ identifier.2).stop))

private theorem counts_read :
    Reads file 2 (reading (Counts.read (UInt16.ofNat (file.halfAt 0)))) (.ok (Counts.stated file))
      24 := by
  simp only [Counts.read, reading_bind, reading_pure]
  exact Reads.half.bind (Reads.half.bind (Reads.half.bind (Reads.half.bind (Reads.half.bind
    (Reads.half.bind (Reads.half.bind (Reads.half.bind (Reads.half.bind (Reads.half.bind
      (Reads.half.bind (.pure _)))))))))))

private theorem length_lt_six : UInt16.ofNat (file.halfAt 0) < 6 ↔ file.halfAt 0 < 6 := by
  rw [UInt16.lt_iff_toNat_lt, Bytes.toNat_ofNat_halfAt]
  rfl

private theorem counts_of_short (size : Nat) (short : file.halfAt 0 < 6) :
    Reads file 0 (counts size) (.error .fileLengthTooSmall) 2 := by
  refine Reads.half.bind ?_
  rw [if_pos (length_lt_six.mpr short)]
  exact .throw _

private theorem counts_of_fault {size : Nat} {fault : Diagnostic} (long : ¬ file.halfAt 0 < 6)
    (found : (Counts.stated file).fault? size = some fault) :
    Reads file 0 (counts size) (.error fault) 24 := by
  refine Reads.half.bind ?_
  rw [if_neg (mt length_lt_six.mp long)]
  refine counts_read.bind ?_
  rw [found]
  exact .throw _

private theorem counts_of_sound {size : Nat} (long : ¬ file.halfAt 0 < 6)
    (sound : (Counts.stated file).fault? size = none) :
    Reads file 0 (counts size) (.ok (Counts.stated file)) 24 := by
  refine Reads.half.bind ?_
  rw [if_neg (mt length_lt_six.mp long)]
  refine counts_read.bind ?_
  rw [sound]
  exact .pure _

private theorem charInfo_reads :
    Reads file start charInfo
      (.ok ((CharWord.ofBytes? ((file.drop start).take 4)).getD .zero).unpack) (start + 4) :=
  (Reads.take 4).bind (.pure _)

private theorem charInfos_read (count : Nat) :
    Reads file start (times count charInfo) (.ok (file.charInfosAt start count))
      (start + 4 * count) :=
  Reads.times (fun _ => charInfo_reads) count

private theorem table_reads (count : Nat) :
    Reads file start (table count) (.ok (file.dimensionsAt start count)) (start + 4 * count) :=
  Reads.times (fun _ => Reads.word.map _) count

/-- A body whose header texts fit is read up to the tables that are not decoded. -/
private theorem body_reads {c : Counts} (fits : Header.textFault? c.header.toNat file = none) :
    Reads file 24 (body c) (.ok (FontMetrics.statedFor c file)) (4 * c.decodedWords) := by
  obtain ⟨stop, within, read⟩ := header_of_fits fits
  have extent : 24 + 4 * c.header.toNat + 4 * c.chars + 4 * c.widths.toNat + 4 * c.heights.toNat
      + 4 * c.depths.toNat + 4 * c.italics.toNat = 4 * c.decodedWords := by
    unfold Counts.decodedWords
    omega
  rw [← extent]
  exact read.bind ((Reads.seek within).bind ((charInfos_read _).bind ((table_reads _).bind
    ((table_reads _).bind ((table_reads _).bind ((table_reads _).bind (.pure _)))))))

end Decoder

namespace Counts

/-- Counts that break no rule are in balance with each other and with the size. -/
theorem fault?_eq_none_iff {c : Counts} {size : Nat} : c.fault? size = none ↔
    4 * c.file.toNat = size ∧ c.words = c.file.toNat ∧ c.upper.toNat ≤ 255 ∧
      c.lower.toNat ≤ c.upper.toNat + 1 ∧ c.undecoded.extensible.toNat ≤ 256 := by
  unfold fault?
  split_ifs <;> simp only [true_iff, false_iff] <;> omega

/-- The counts of a sound file add up to its size. -/
theorem size_of_sound {c : Counts} {size : Nat} (sound : c.fault? size = none) :
    4 * c.words = size := by
  obtain ⟨length, balance, -⟩ := fault?_eq_none_iff.mp sound
  rw [balance, length]

/-- The parts that are decoded begin with the header and lie within the file. -/
theorem header_within (c : Counts) :
    6 + c.header.toNat ≤ c.decodedWords ∧ c.decodedWords ≤ c.words := by
  unfold words decodedWords
  omega

/-- The counts stand one behind the other, two bytes each. -/
theorem toList_stated (file : Bytes) : (stated file).toList
    = (List.range 12).map fun place => UInt16.ofNat (file.halfAt (2 * place)) := rfl

/-- The twelve numbers say how many words there are. -/
theorem stated_words (file : Bytes) : (stated file).words
    = 6 + file.halfAt 2 + (file.halfAt 6 + 1 - file.halfAt 4) + file.halfAt 8 + file.halfAt 10
      + file.halfAt 12 + file.halfAt 14 + file.halfAt 16 + file.halfAt 18 + file.halfAt 20
      + file.halfAt 22 := by
  simp only [words, decodedWords, chars, codeCount, TableSizes.words, stated,
    Bytes.toNat_ofNat_halfAt]
  omega

end Counts

namespace FontMetrics

theorem firstFault?_eq {size : Nat} {file : Bytes} (room : ¬ size < 24)
    (long : ¬ file.halfAt 0 < 6) :
    firstFault? size file = ((Counts.stated file).fault? size).or
      (Header.textFault? (Counts.stated file).header.toNat file) := by
  unfold firstFault? Counts.fault? Header.textFault?
  rw [Counts.stated_words]
  simp only [Counts.stated, Bytes.toNat_ofNat_halfAt, if_neg room, if_neg long]
  split_ifs <;> rfl

/-- A file that breaks no rule is as long as it says, its parts add up to this length, and its
range, its recipes and its header texts are within their limits. -/
theorem firstFault?_eq_none_iff {size : Nat} {file : Bytes} {c : Counts}
    (counts : Counts.stated file = c) :
    firstFault? size file = none ↔
      4 * c.file.toNat = size ∧ c.words = c.file.toNat ∧ c.upper.toNat ≤ 255 ∧
      c.lower.toNat ≤ c.upper.toNat + 1 ∧ c.undecoded.extensible.toNat ≤ 256 ∧
      (12 ≤ c.header.toNat → (file.byteAt 32).toNat ≤ 39) ∧
      (17 ≤ c.header.toNat → (file.byteAt 72).toNat ≤ 19) := by
  subst counts
  rw [Counts.stated_words]
  simp only [Counts.stated, Bytes.toNat_ofNat_halfAt]
  unfold firstFault?
  dsimp only
  split_ifs <;> simp only [true_iff, false_iff] <;> omega

/-- Decoding finds what the file states or the first rule that it breaks, and rests this on no byte
behind the reported size. -/
theorem decode_reads {size : Nat} (room : ¬ size < 24) (file : Bytes) :
    ∃ extent ≤ size, Decoder.Reads file 0 (Decoder.counts size >>= Decoder.body)
        (verdict size file) extent ∧
      (firstFault? size file = none → extent = 4 * (Counts.stated file).decodedWords) := by
  unfold verdict
  by_cases short : file.halfAt 0 < 6
  · have fault : firstFault? size file = some .fileLengthTooSmall := by
      simp only [firstFault?, if_neg room, if_pos short]
    rw [fault]
    exact ⟨2, by omega, (Decoder.counts_of_short size short).stop, nofun⟩
  rw [firstFault?_eq room short]
  cases sound : (Counts.stated file).fault? size with
  | some fault => exact ⟨24, by omega, (Decoder.counts_of_fault short sound).stop, nofun⟩
  | none =>
    have read := Decoder.counts_of_sound short sound
    have whole := Counts.size_of_sound sound
    obtain ⟨header, decoded⟩ := (Counts.stated file).header_within
    rw [Option.none_or]
    cases texts : Header.textFault? (Counts.stated file).header.toNat file with
    | some fault =>
      obtain ⟨stop, within, rejected⟩ := Decoder.header_of_fault texts
      exact ⟨stop, by omega, read.bind rejected.stop, nofun⟩
    | none => exact ⟨_, by omega, read.bind (Decoder.body_reads texts), fun _ => rfl⟩

end FontMetrics

end TypesetKernel
