import TypesetKernel.BinaryFraction

/-!
The numbers that fonts are described with and that a run computes with. Fix words, the numbers of a
font metric file, are signed 32-bit numbers with 20 binary places; a fix word is written in full, so
its text has exactly 20 decimal places and denotes its exact value. Dimensions are given in scaled
points, of which there are `2 ^ 16` to the printer's point. A dimension is a signed 32-bit number
and arithmetic that leaves this range wraps around; only `clamped` saturates. A word is 32 bits
without a meaning of their own.
-/

namespace TypesetKernel

/-! ## Fix words -/

/-- The number `raw / 2 ^ 20`. -/
structure FixWord where
  raw : Int32
  deriving DecidableEq, Repr, Inhabited

namespace FixWord

def zero : FixWord := ⟨0⟩

def one : FixWord := ⟨0x100000⟩

/-- Takes the bits of a word as they stand in a file. -/
def ofWord (word : UInt32) : FixWord := ⟨word.toInt32⟩

/-- The bits as they stand in a file. -/
def toWord (x : FixWord) : UInt32 := x.raw.toUInt32

def toFraction (x : FixWord) : BinaryFraction := { numerator := x.raw.toInt, places := 20 }

/-- The value in scaled points, of which there are `2 ^ 16` to the unit, rounded down. -/
def toScaledPoints (x : FixWord) : Int32 := Int32.ofInt (x.raw.toInt / 16)

/-- The absolute value in units of `2 ^ -20`. -/
def magnitude (x : FixWord) : UInt64 := UInt64.ofNat x.raw.toInt.natAbs

/-- The first decimal place of `rest / 2 ^ 20`, what comes before the point when it is taken
tenfold. -/
def nextDigit (rest : UInt64) : UInt64 := (rest * 10) >>> 20

/-- So many decimal places of `rest / 2 ^ 20` by long division, and the remainder that is left. -/
def expand (rest : UInt64) : Nat → List UInt64 × UInt64
  | 0 => ([], rest)
  | places + 1 =>
    let (digits, left) := expand rest places
    let digit := nextDigit left
    let tenfold := left * 10
    (digits ++ [digit], tenfold - digit <<< 20)

/-- The part behind the point, in units of `2 ^ -20`. -/
def fraction (x : FixWord) : UInt64 := x.magnitude &&& 0xFFFFF

/-- A sign if the number is negative, the integer part, a point and 20 decimal places. -/
def text (x : FixWord) : String :=
  let sign := if x.raw < 0 then "-" else ""
  let (digits, _) := expand x.fraction 20
  sign ++ toString (x.magnitude >>> 20) ++ "." ++ String.join (digits.map toString)

/-- The value with a note of its type. -/
def label (x : FixWord) : String := s!"FixWord({x.text})"

/-- Fix words are ordered by value. -/
instance : Ord FixWord where
  compare a b := compare a.raw.toInt b.raw.toInt

@[simp] theorem toWord_ofWord (word : UInt32) : (ofWord word).toWord = word := rfl

@[simp] theorem ofWord_toWord (x : FixWord) : ofWord x.toWord = x := rfl

/-- A sixteenth of a fix word always fits. -/
theorem toInt_toScaledPoints (x : FixWord) : x.toScaledPoints.toInt = x.raw.toInt / 16 := by
  have low := x.raw.le_toInt
  have high := x.raw.toInt_lt
  exact Int32.toInt_ofInt_of_le (by omega) (by omega)

end FixWord

/-! ## Dimensions -/

/-- A dimension of `sp` scaled points. -/
structure Scaled where
  sp : Int32
  deriving DecidableEq, Repr, Inhabited

/-- The units a dimension can be given in. -/
inductive LengthUnit where
  | point
  /-- The inch, 72.27 points. -/
  | inch
  /-- The pica, 12 points. -/
  | pica
  /-- The big point, of which there are 72 to the inch. -/
  | bigPoint
  deriving DecidableEq, Repr

/-- The unit in points, as a numerator and a denominator. -/
def LengthUnit.ratio : LengthUnit → Int × Int
  | .point => (1, 1)
  | .inch => (7227, 100)
  | .pica => (12, 1)
  | .bigPoint => (7227, 7200)

namespace Scaled

def zero : Scaled := ⟨0⟩

def one : Scaled := ⟨0x10000⟩

/-- The largest dimension that typesetting allows, one scaled point below `2 ^ 30`. -/
def largest : Scaled := ⟨0x3FFFFFFF⟩

def ofPoints (points : Int32) : Scaled := ⟨points <<< 16⟩

/-- A quantity with 16 binary places of the given unit, rounded toward zero. -/
def ofUnit (quantity : Int32) (unit : LengthUnit) : Scaled :=
  ⟨Int32.ofInt ((quantity.toInt * unit.ratio.1).tdiv unit.ratio.2)⟩

/-- A multiple of the dimension, rounded down. This is how the dimensions of a character, which a
font gives relative to its size, become lengths. -/
def scale (s : Scaled) (factor : FixWord) : Scaled :=
  ⟨Int32.ofInt (s.sp.toInt * factor.raw.toInt / 0x100000)⟩

/-- The nearest dimension within the allowed range. -/
def clamped (sp : Int) : Scaled :=
  ⟨Int32.ofInt (max (-largest.sp.toInt) (min sp largest.sp.toInt))⟩

def toPoints (s : Scaled) : BinaryFraction := { numerator := s.sp.toInt, places := 16 }

/-- The dimension in points, in the shortest decimal that reads back. -/
def text (s : Scaled) : String := s.toPoints.shortest.text ++ "pt"

def label (s : Scaled) : String := s!"{s.sp.toInt}sp"

end Scaled

/-! ## Words -/

/-- A word of 32 bits, whose interpretation belongs to whoever stores it, such as the index of a
font or a signed space factor. -/
structure Word where
  bits : UInt32
  deriving DecidableEq, Repr

namespace Word

/-- The word in which no bit is set. -/
def zero : Word := ⟨0⟩

/-- The word of a signed number. -/
def ofSigned (n : Int32) : Word := ⟨n.toUInt32⟩

/-- The word of an index, cut to 32 bits. -/
def ofIndex (n : Nat) : Word := ⟨UInt32.ofNat n⟩

/-- The word read as a signed number. -/
def signed (w : Word) : Int32 := w.bits.toInt32

/-- The word read as an index. -/
def index (w : Word) : Nat := w.bits.toNat

/-- The bits with a note of their type. -/
def label (w : Word) : String := s!"Word({w.bits.toNat})"

@[simp] theorem ofSigned_signed (w : Word) : ofSigned w.signed = w := rfl

@[simp] theorem signed_ofSigned (n : Int32) : (ofSigned n).signed = n := rfl

end Word

end TypesetKernel
