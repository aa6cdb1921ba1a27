import TypesetKernel.FontMetrics.Decode

/-!
Font metric files written from their parts. The counts at the start are taken from the parts and
cut to 16 bits, so a file whose parts are too large contradicts itself. The tables that are never
decoded are written as zeros.
-/

namespace TypesetKernel

namespace Header

/-- A text in a block of fixed capacity behind its length byte. The length is cut to a byte and the
text to the block, which is filled up with zeros. -/
def textBlock (capacity : Nat) (s : String) : Bytes :=
  let bs := Utf8.encode s
  (UInt8.ofNat bs.length :: bs ++ List.replicate capacity 0).take (capacity + 1)

/-- The words that bytes make up, four each; an incomplete word is left out. -/
def wordsOfBytes : Bytes → List UInt32
  | a :: b :: c :: d :: rest => UInt32.ofNat (Bytes.value [a, b, c, d]) :: wordsOfBytes rest
  | _ => []

def bytes (h : Header) : Bytes :=
  Bytes.ofWord h.checksum ++ Bytes.ofWord h.designSize.toWord
    ++ textBlock Decoder.codingSchemeCapacity h.codingScheme
    ++ textBlock Decoder.identifierCapacity h.identifier
    ++ [if h.sevenBitSafe then 0x80 else 0, 0, 0, h.face]

/-- The words of a complete header, 18 in number. -/
def words (h : Header) : List UInt32 := wordsOfBytes h.bytes

end Header

namespace FontMetrics

/-- The parts of a font metric file. There is a character word for each code of the range. -/
structure File where
  lower : UInt16
  upper : UInt16
  header : List UInt32 := []
  charWords : List CharWord := List.replicate (codeCount lower upper) .zero
  widths : List Int32 := []
  heights : List Int32 := []
  depths : List Int32 := []
  italics : List Int32 := []
  undecoded : TableSizes := {}
  length_charWords : charWords.length = codeCount lower upper := by simp
  deriving DecidableEq, Repr

namespace File

/-- A file without characters in its range and without any tables. -/
def blank (lower upper : UInt16) : File := { lower, upper }

/-- Sets the word of a character code, if the code is in the range. -/
def setCharWord? (f : File) (code : UInt8) (word : CharWord) : Option File :=
  if f.lower.toNat ≤ code.toNat ∧ code.toNat - f.lower.toNat < f.charWords.length then
    some { f with
      charWords := f.charWords.set (code.toNat - f.lower.toNat) word
      length_charWords := by rw [List.length_set]; exact f.length_charWords }
  else none

def size (f : File) : Nat :=
  6 + f.header.length + f.charWords.length + f.widths.length + f.heights.length
    + f.depths.length + f.italics.length + f.undecoded.words

/-- The counts that the file starts with, cut to 16 bits. -/
def counts (f : File) : Counts where
  file := UInt16.ofNat f.size
  header := UInt16.ofNat f.header.length
  lower := f.lower
  upper := f.upper
  widths := UInt16.ofNat f.widths.length
  heights := UInt16.ofNat f.heights.length
  depths := UInt16.ofNat f.depths.length
  italics := UInt16.ofNat f.italics.length
  undecoded := f.undecoded

def tableBytes (table : List Int32) : Bytes := table.flatMap fun raw => Bytes.ofWord raw.toUInt32

def bodyBytes (f : File) : Bytes :=
  f.header.flatMap Bytes.ofWord ++ f.charWords.flatMap CharWord.bytes
    ++ tableBytes f.widths ++ tableBytes f.heights ++ tableBytes f.depths ++ tableBytes f.italics
    ++ List.replicate (4 * f.undecoded.words) 0

/-- The file with counts of its own. -/
def encodeWith (f : File) (counts : Counts) : Bytes := counts.bytes ++ f.bodyBytes

def encode (f : File) : Bytes := f.encodeWith f.counts

end File

end FontMetrics

end TypesetKernel
