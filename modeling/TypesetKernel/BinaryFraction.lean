/-!
Numbers with a fixed number of binary places and the decimals that they are written as. While the
numerator stays below `2 ^ 53` such a number is exactly a binary64 value, so its binary64 pattern
and every text of that value are functions of the numerator and the number of places alone. It is
written in full, rounded to some decimal places, or as the shortest decimal that reads back.
-/

namespace TypesetKernel

/-! ## Decimals -/

/-- The number `digits / 10 ^ places`, negated when `negative`. A negative zero keeps its sign. -/
structure Decimal where
  negative : Bool
  digits : Nat
  places : Nat
  deriving DecidableEq, Repr

namespace Decimal

/-- The lowest `count` decimal digits of a number, leading zeros included. -/
def lowDigits : Nat → Nat → List Char
  | 0, _ => []
  | count + 1, n => lowDigits count (n / 10) ++ [Nat.digitChar (n % 10)]

def whole (d : Decimal) : Nat := d.digits / Nat.pow 10 d.places

/-- The written form, never with an exponent. -/
def text (d : Decimal) : String :=
  let sign := if d.negative then "-" else ""
  let fraction := if d.places = 0 then [] else '.' :: lowDigits d.places d.digits
  sign ++ toString d.whole ++ String.ofList fraction

@[simp] theorem length_lowDigits (count n : Nat) : (lowDigits count n).length = count := by
  induction count generalizing n with
  | zero => rfl
  | succ count ih => simp [lowDigits, ih]

end Decimal

/-! ## Binary fractions -/

/-- The number `numerator / 2 ^ places`. -/
structure BinaryFraction where
  numerator : Int
  places : Nat
  deriving DecidableEq, Repr

namespace BinaryFraction

/-- How far the numerator can be shifted up within the 53 bits of a binary64 significand. -/
def headroom (numerator : Nat) : Nat := 52 - numerator.log2

/-- The binary64 pattern of a positive fraction: biased exponent, then the significand without its
leading bit. -/
def positivePattern (numerator places : Nat) : Nat :=
  (1023 + numerator.log2 - places) <<< 52 + (numerator <<< headroom numerator - 1 <<< 52)

/-- The binary64 pattern of the value, sign bit first. Zero has no sign. -/
def doublePattern (x : BinaryFraction) : UInt64 :=
  match x.numerator with
  | .ofNat 0 => 0
  | .ofNat n => UInt64.ofNat (positivePattern n x.places)
  | .negSucc n => UInt64.ofNat (1 <<< 63 + positivePattern (n + 1) x.places)

/-! ### A given number of places -/

/-- The nearest integer to a quotient, an even one when two are equally near. -/
def roundDiv (dividend divisor : Nat) : Nat :=
  let quotient := dividend / divisor
  let rest := dividend % divisor
  if 2 * rest < divisor ∨ 2 * rest = divisor ∧ quotient % 2 = 0 then quotient else quotient + 1

/-- The value rounded to the given number of decimal places. -/
def toPlaces (x : BinaryFraction) (decimals : Nat) : Decimal :=
  { negative := decide (x.numerator < 0)
    digits := roundDiv (x.numerator.natAbs * Nat.pow 10 decimals) (1 <<< x.places)
    places := decimals }

/-- The value in full; a number with `n` binary places has `n` decimal places. -/
def exactDecimal (x : BinaryFraction) : Decimal :=
  { negative := decide (x.numerator < 0)
    digits := x.numerator.natAbs * Nat.pow 5 x.places
    places := x.places }

/-! ### The shortest decimal that reads back

A decimal reads back to a binary64 value when it lies in the interval of numbers that round to it:
half a unit in the last place to either side, a quarter unit below a power of two, both ends included
when the significand is even. On each grid of decimals with a given number of places only the two
neighbours of the value can be nearest, so testing these on ever finer grids finds the decimal with
the fewest places. Of two that read back the nearer one is taken, and the larger one when they are
equally near. -/

/-- Whether `digits / 10 ^ decimals` rounds to the binary64 value `numerator / 2 ^ places`.
Distances are compared in units of `1 / (2 ^ places * 10 ^ decimals)`. -/
def readsBack (numerator places digits decimals : Nat) : Bool :=
  let value := numerator * Nat.pow 10 decimals
  let shown := digits <<< places
  let unit := 1 <<< headroom numerator
  let reach := Nat.pow 10 decimals
  let even := numerator * unit % 2 = 0
  if value ≤ shown then
    let off := (shown - value) * (2 * unit)
    off < reach ∨ off = reach ∧ even
  else
    let narrow := numerator * unit = 1 <<< 52
    let off := (value - shown) * (if narrow then 4 * unit else 2 * unit)
    off < reach ∨ off = reach ∧ even

/-- The better of the two neighbours with the given number of decimals, if one reads back. -/
def nearest? (numerator places decimals : Nat) : Option Nat :=
  let value := numerator * Nat.pow 10 decimals
  let below := value / 1 <<< places
  let rest := value % 1 <<< places
  match readsBack numerator places below decimals,
      readsBack numerator places (below + 1) decimals with
  | true, true => some (if 2 * rest < 1 <<< places then below else below + 1)
  | true, false => some below
  | false, true => some (below + 1)
  | false, false => none

/-- The first grid with a decimal that reads back. The grid with as many decimals as there are
binary places holds the value itself. -/
def shortestDigits (numerator places : Nat) : Nat × Nat :=
  ((List.range (places + 1)).findSome? fun decimals =>
    (nearest? numerator places decimals).map (·, decimals)).getD
      (numerator * Nat.pow 5 places, places)

/-- The shortest decimal that reads back to the same binary64 value. -/
def shortest (x : BinaryFraction) : Decimal :=
  let (digits, decimals) := shortestDigits x.numerator.natAbs x.places
  { negative := decide (x.numerator < 0), digits, places := decimals }

end BinaryFraction

end TypesetKernel
