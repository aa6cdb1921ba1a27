import TypesetKernel.FixedPoint

/-!
What is known about a font: its header, the range of its character codes, an entry for each code in
the range and four tables of dimensions that the entries point into. The ligature and kerning
program, the kerns, the extensible recipes and the font parameters are known by their sizes only.
A font metric file packs what it says about one character into four bytes, in which the height and
depth indices share the second and the italic index and the tag share the third. Packing and
unpacking lose nothing (`pack_unpack`).
-/

namespace TypesetKernel

/-! ## Characters -/

/-- The four bytes of a character as they stand in a file. -/
structure CharWord where
  width : UInt8
  heightDepth : UInt8
  italicTag : UInt8
  remainder : UInt8
  deriving DecidableEq, Repr

/-- The indices of a character into the tables of its font. -/
structure CharInfo where
  widthIndex : UInt8
  /-- Below 16. -/
  heightIndex : UInt8
  /-- Below 16. -/
  depthIndex : UInt8
  /-- Below 64. -/
  italicIndex : UInt8
  /-- Below 4: no more information, a ligature and kerning program, a next larger character, or an
  extensible recipe. -/
  tag : UInt8
  remainder : UInt8
  deriving DecidableEq, Repr

/-- The dimensions of a character relative to the design size of its font. -/
structure CharDimensions where
  width : FixWord
  height : FixWord
  depth : FixWord
  italicCorrection : FixWord
  deriving DecidableEq, Repr

namespace CharWord

/-- The word of a code that has no character. -/
def zero : CharWord := ⟨0, 0, 0, 0⟩

/-- The word made of four bytes; none of any other number of bytes. -/
def ofBytes? : List UInt8 → Option CharWord
  | [width, heightDepth, italicTag, remainder] => some ⟨width, heightDepth, italicTag, remainder⟩
  | _ => none

def bytes (w : CharWord) : List UInt8 := [w.width, w.heightDepth, w.italicTag, w.remainder]

/-- Separates the indices that share a byte. -/
def unpack (w : CharWord) : CharInfo where
  widthIndex := w.width
  heightIndex := w.heightDepth / 16
  depthIndex := w.heightDepth % 16
  italicIndex := w.italicTag / 4
  tag := w.italicTag % 4
  remainder := w.remainder

end CharWord

namespace CharInfo

/-- Puts the indices that share a byte together. -/
def pack (i : CharInfo) : CharWord where
  width := i.widthIndex
  heightDepth := i.heightIndex * 16 + i.depthIndex
  italicTag := i.italicIndex * 4 + i.tag
  remainder := i.remainder

/-- A width index of zero marks a code without a character. -/
def isPresent (i : CharInfo) : Bool := i.widthIndex ≠ 0

end CharInfo

private theorem div_mul_add_mod (b k : UInt8) : b / k * k + b % k = b := by
  apply UInt8.toNat_inj.mp
  have whole := Nat.div_add_mod' b.toNat k.toNat
  have bound := b.toNat_lt
  have part : b.toNat / k.toNat * k.toNat ≤ b.toNat := Nat.div_mul_le_self _ _
  rw [UInt8.toNat_add, UInt8.toNat_mul, UInt8.toNat_div, UInt8.toNat_mod,
    Nat.mod_eq_of_lt (a := b.toNat / k.toNat * k.toNat) (by omega), whole,
    Nat.mod_eq_of_lt bound]

/-- Every four bytes are the packed form of what they unpack to. -/
@[simp] theorem CharInfo.pack_unpack (w : CharWord) : w.unpack.pack = w := by
  cases w
  simp [CharWord.unpack, CharInfo.pack, div_mul_add_mod]

/-! ## Fonts -/

/-- The descriptive part of a font metric file. A field that a file leaves out is zero or empty. -/
structure Header where
  checksum : UInt32 := 0
  designSize : FixWord := .zero
  codingScheme : String := ""
  identifier : String := ""
  sevenBitSafe : Bool := false
  face : UInt8 := 0
  deriving DecidableEq, Repr

/-- The sizes in words of the tables that are not decoded. -/
structure TableSizes where
  ligKern : UInt16 := 0
  kern : UInt16 := 0
  extensible : UInt16 := 0
  params : UInt16 := 0
  deriving DecidableEq, Repr

def TableSizes.words (t : TableSizes) : Nat :=
  t.ligKern.toNat + t.kern.toNat + t.extensible.toNat + t.params.toNat

/-- The number of codes from `lower` to `upper`, both included. -/
def codeCount (lower upper : UInt16) : Nat := upper.toNat + 1 - lower.toNat

/-- A decoded font metric file. -/
structure FontMetrics where
  header : Header
  lower : UInt16
  /-- The largest character code, below the smallest one if there are no characters. -/
  upper : UInt16
  /-- One entry for each code of the range. -/
  charInfos : List CharInfo
  widths : List FixWord
  heights : List FixWord
  depths : List FixWord
  italics : List FixWord
  undecoded : TableSizes
  deriving DecidableEq, Repr

namespace FontMetrics

/-- The font without characters and without a size. -/
def null : FontMetrics where
  header := {}
  lower := 1
  upper := 0
  charInfos := []
  widths := []
  heights := []
  depths := []
  italics := []
  undecoded := {}

def charInfo? (m : FontMetrics) (code : UInt8) : Option CharInfo :=
  if m.lower.toNat ≤ code.toNat then m.charInfos[code.toNat - m.lower.toNat]? else none

/-- The entry of a table, zero behind its end. -/
def entry (table : List FixWord) (index : UInt8) : FixWord := table.getD index.toNat .zero

def dimensions? (m : FontMetrics) (code : UInt8) : Option CharDimensions :=
  ((m.charInfo? code).filter CharInfo.isPresent).map fun info =>
    { width := entry m.widths info.widthIndex
      height := entry m.heights info.heightIndex
      depth := entry m.depths info.depthIndex
      italicCorrection := entry m.italics info.italicIndex }

end FontMetrics

end TypesetKernel
