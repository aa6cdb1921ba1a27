import TypesetKernel.Bytes
import TypesetKernel.FontMetrics.Basic

/-!
Decoding a font metric file from a stream. The twelve counts at its start say how long it is and how
many words each of its parts has. They are checked against each other and against the reported size
before anything else is read, in sums without any bound. Header fields are read as far as the header
reaches and the rest of it is skipped; the tables that are only known by their sizes are not read at
all. The result is either complete font metrics or a diagnostic, which belongs to one check. Each
check has a name and a kind: the file breaks the format, could not be read, or ended in the middle
of a read that its reported size promised.
-/

namespace TypesetKernel

/-! ## Diagnostics -/

/-- Why a font metric file was rejected. -/
inductive Diagnostic where
  /-- There is no room for the counts at the start of a file. -/
  | fileTooSmall
  /-- The declared length does not even cover the counts. -/
  | fileLengthTooSmall
  /-- The declared length, in bytes, is not the size. -/
  | fileSizeMismatch (claimed size : Nat)
  /-- The range of character codes leaves the codes of a byte or is turned around. -/
  | badCharacterRange (lower upper : Nat)
  /-- There are more extensible recipes than characters. -/
  | tooManyExtensible (count : Nat)
  /-- The parts do not add up to the declared length. -/
  | inconsistentSizes (parts declared : Nat)
  /-- The length byte of the coding scheme exceeds its block. -/
  | codingSchemeTooLong
  /-- The length byte of the font identifier exceeds its block. -/
  | identifierTooLong
  | unreadable (location : String) (failure : ReadFailure)
  /-- The stream held fewer bytes than it reported. -/
  | endOfStream (cause : EndOfStream)
  deriving DecidableEq, Repr

namespace Diagnostic

inductive Kind where
  /-- The bytes are no font metric file. -/
  | format
  /-- There are no bytes. -/
  | reading
  /-- A promised byte was missing. -/
  | internal
  deriving DecidableEq, Repr

inductive Check where
  | fileTooSmall
  | fileLengthTooSmall
  | fileSizeMismatch
  | badCharacterRange
  | tooManyExtensibleCharacters
  | inconsistentSubFileSizes
  | codingSchemeTooLong
  | fontIdentifierTooLong
  | fileUnreadable
  | unexpectedEndOfStream
  deriving DecidableEq, Repr

def kind : Diagnostic → Kind
  | .unreadable .. => .reading
  | .endOfStream _ => .internal
  | _ => .format

def check : Diagnostic → Check
  | .fileTooSmall => .fileTooSmall
  | .fileLengthTooSmall => .fileLengthTooSmall
  | .fileSizeMismatch .. => .fileSizeMismatch
  | .badCharacterRange .. => .badCharacterRange
  | .tooManyExtensible _ => .tooManyExtensibleCharacters
  | .inconsistentSizes .. => .inconsistentSubFileSizes
  | .codingSchemeTooLong => .codingSchemeTooLong
  | .identifierTooLong => .fontIdentifierTooLong
  | .unreadable .. => .fileUnreadable
  | .endOfStream _ => .unexpectedEndOfStream

def Check.name : Check → String
  | .fileTooSmall => "file-too-small"
  | .fileLengthTooSmall => "file-length-too-small"
  | .fileSizeMismatch => "file-size-mismatch"
  | .badCharacterRange => "bad-character-range"
  | .tooManyExtensibleCharacters => "too-many-extensible-characters"
  | .inconsistentSubFileSizes => "inconsistent-sub-file-sizes"
  | .codingSchemeTooLong => "coding-scheme-too-long"
  | .fontIdentifierTooLong => "font-identifier-too-long"
  | .fileUnreadable => "read-file"
  | .unexpectedEndOfStream => "unexpected-end-of-stream"

def message : Diagnostic → String
  | .fileTooSmall => "TFM file not large enough."
  | .fileLengthTooSmall => "TFM file not large enough to hold its header."
  | .fileSizeMismatch claimed size => s!"TFM file claims {claimed} bytes, but has {size}."
  | .badCharacterRange lower upper => s!"Bad character range {lower}..{upper} in TFM file."
  | .tooManyExtensible count =>
    s!"Extensible character table has {count} entries; at most 256 are allowed."
  | .inconsistentSizes parts declared =>
    s!"Table sizes add up to {parts} words, but the file has {declared}."
  | .codingSchemeTooLong => "TFM header has a bad character coding scheme length byte."
  | .identifierTooLong => "TFM header has a bad font identifier length byte."
  | .unreadable location failure =>
    s!"Could not read font metric file {location}: {failure.message}"
  | .endOfStream cause => s!"Internal error while decoding font metrics: {cause.message}"

end Diagnostic

/-! ## Counts -/

/-- The counts of a font metric file. All but the range of character codes are numbers of words. -/
structure Counts where
  file : UInt16
  header : UInt16
  lower : UInt16
  upper : UInt16
  widths : UInt16
  heights : UInt16
  depths : UInt16
  italics : UInt16
  undecoded : TableSizes
  deriving DecidableEq, Repr

namespace Counts

/-- The number of bytes that the counts take up. -/
def size : Nat := 24

def toList (c : Counts) : List UInt16 :=
  [c.file, c.header, c.lower, c.upper, c.widths, c.heights, c.depths, c.italics,
    c.undecoded.ligKern, c.undecoded.kern, c.undecoded.extensible, c.undecoded.params]

def ofList? : List UInt16 → Option Counts
  | [file, header, lower, upper, widths, heights, depths, italics, ligKern, kern, extensible,
      params] =>
    some { file, header, lower, upper, widths, heights, depths, italics,
           undecoded := { ligKern, kern, extensible, params } }
  | _ => none

/-- Replaces the count at a place of the file; there are twelve places. -/
def set? (c : Counts) (place : Nat) (count : UInt16) : Option Counts :=
  if place < 12 then ofList? (c.toList.set place count) else none

def bytes (c : Counts) : Bytes := c.toList.flatMap Bytes.ofHalf

def chars (c : Counts) : Nat := codeCount c.lower c.upper

/-- The number of words of the counts, the header, the character entries and the four tables of
dimensions. -/
def decodedWords (c : Counts) : Nat :=
  6 + c.header.toNat + c.chars + c.widths.toNat + c.heights.toNat + c.depths.toNat
    + c.italics.toNat

/-- The number of words of all parts together. -/
def words (c : Counts) : Nat := c.decodedWords + c.undecoded.words

/-- The first rule that the counts of a file of the given size break. The declared length has been
found to cover the counts before. -/
def fault? (c : Counts) (size : Nat) : Option Diagnostic :=
  if 4 * c.file.toNat ≠ size then
    some (.fileSizeMismatch (4 * c.file.toNat) size)
  else if c.upper.toNat > 255 ∨ c.lower.toNat > c.upper.toNat + 1 then
    some (.badCharacterRange c.lower.toNat c.upper.toNat)
  else if c.undecoded.extensible.toNat > 256 then
    some (.tooManyExtensible c.undecoded.extensible.toNat)
  else if c.words ≠ c.file.toNat then
    some (.inconsistentSizes c.words c.file.toNat)
  else none

/-- Reads the counts that follow the length of the file. -/
def read (file : UInt16) : ByteStream.Reader Counts := do
  let header ← ByteStream.half
  let lower ← ByteStream.half
  let upper ← ByteStream.half
  let widths ← ByteStream.half
  let heights ← ByteStream.half
  let depths ← ByteStream.half
  let italics ← ByteStream.half
  let ligKern ← ByteStream.half
  let kern ← ByteStream.half
  let extensible ← ByteStream.half
  let params ← ByteStream.half
  return { file, header, lower, upper, widths, heights, depths, italics,
           undecoded := { ligKern, kern, extensible, params } }

@[simp] theorem ofList?_toList (c : Counts) : ofList? c.toList = some c := rfl

@[simp] theorem length_bytes (c : Counts) : c.bytes.length = size := by
  simp [bytes, toList, size]

end Counts

/-! ## Files -/

/-- A step of decoding. -/
abbrev Decoder (α : Type) := EStateM Diagnostic ByteStream α

namespace Decoder

/-- Reads from the stream; the end of the stream becomes a diagnostic. -/
def reading {α : Type} (read : ByteStream.Reader α) : Decoder α :=
  EStateM.adaptExcept Diagnostic.endOfStream read

def times {α : Type} (count : Nat) (step : Decoder α) : Decoder (List α) :=
  (List.replicate count step).mapM id

/-- Makes the stream big-endian, the byte order of font metric files. -/
def useBigEndian : Decoder Unit := modify fun s => { s with order := .big }

/-- Reads a text in a block of fixed capacity behind a byte that gives its length. -/
def text (capacity : Nat) (tooLong : Diagnostic) : Decoder String := do
  let length ← reading ByteStream.byte
  if length.toNat > capacity then
    throw tooLong
  else
    let block ← reading (ByteStream.take capacity)
    return Utf8.decode (block.take length.toNat)

def codingSchemeCapacity : Nat := 39

def identifierCapacity : Nat := 19

/-- Reads a field that ends with the given word of a header; a shorter header leaves it out. -/
def field {α : Type} (words last : Nat) (read : Decoder α) (absent : α) : Decoder α :=
  if last ≤ words then read else pure absent

/-- Reads the header fields that a header of the given number of words holds completely. -/
def header (words : Nat) : Decoder Header := do
  let checksum ← field words 1 (reading ByteStream.word) 0
  let designSize ← field words 2 (FixWord.ofWord <$> reading ByteStream.word) .zero
  let codingScheme ← field words 12 (text codingSchemeCapacity .codingSchemeTooLong) ""
  let identifier ← field words 17 (text identifierCapacity .identifierTooLong) ""
  let faceWord ← field words 18 (reading ByteStream.word) 0
  return { checksum, designSize, codingScheme, identifier,
           sevenBitSafe := decide (0x80000000 ≤ faceWord), face := faceWord.toUInt8 }

def charInfo : Decoder CharInfo := do
  let bs ← reading (ByteStream.take 4)
  return ((CharWord.ofBytes? bs).getD .zero).unpack

def table (count : Nat) : Decoder (List FixWord) :=
  times count (FixWord.ofWord <$> reading ByteStream.word)

/-- Reads the counts and checks them against each other and against the size of the stream. -/
def counts (size : Nat) : Decoder Counts := do
  let file ← reading ByteStream.half
  if file < 6 then
    throw .fileLengthTooSmall
  else
    let counts ← reading (Counts.read file)
    match counts.fault? size with
    | some fault => throw fault
    | none => return counts

def body (c : Counts) : Decoder FontMetrics := do
  let header ← header c.header.toNat
  reading (ByteStream.seek (Counts.size + 4 * c.header.toNat))
  let charInfos ← times c.chars charInfo
  let widths ← table c.widths.toNat
  let heights ← table c.heights.toNat
  let depths ← table c.depths.toNat
  let italics ← table c.italics.toNat
  return { header, lower := c.lower, upper := c.upper, charInfos, widths, heights, depths,
           italics, undecoded := c.undecoded }

end Decoder

namespace FontMetrics

/-- Decodes a font metric file that starts at the beginning of the stream. -/
def decode : Decoder FontMetrics := do
  Decoder.useBigEndian
  let size := (← get).size
  if size < Counts.size then
    throw .fileTooSmall
  else
    Decoder.reading (ByteStream.seek 0)
    Decoder.body (← Decoder.counts size)

def ofBytes (bs : Bytes) : Except Diagnostic FontMetrics :=
  match decode (ByteStream.ofBytes bs) with
  | .ok metrics _ => .ok metrics
  | .error diagnostic _ => .error diagnostic

/-- Decodes what reading a file gave. -/
def ofFile (location : String) (contents : Except ReadFailure Bytes) :
    Except Diagnostic FontMetrics :=
  match contents with
  | .ok bs => ofBytes bs
  | .error failure => .error (.unreadable location failure)

end FontMetrics

end TypesetKernel
