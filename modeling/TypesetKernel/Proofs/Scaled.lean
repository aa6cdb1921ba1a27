import Mathlib.Algebra.Order.Ring.Int
import Mathlib.Algebra.Order.Round
import Mathlib.Data.Rat.Floor
import TypesetKernel.FixedPoint
import TypesetKernel.Proofs.BinaryFraction.Shortest

/-!
Which dimensions arithmetic gives. Clamping never leaves the allowed range. A multiple of a
dimension is the exact product rounded down, reduced to 32 bits, so it is exact if and only if the
product fits (`toInt_scale_eq_iff`); for an allowed dimension every factor up to two fits. Rounding
down keeps the order of the products and loses less than a scaled point, so the multiples of two
factors make up the multiple of their sum or miss it by one, as long as nothing is cut off. The
multiples of the unit dimension are the conversion of fix words to scaled points
(`multiples_add_up`).

A dimension in points is exactly a binary64 value, and what is written is a shortest decimal of it.
The binary64 values near a dimension are so much closer to each other than the dimensions are that
this decimal is nearer to its dimension than to any other (`text_reads_back`).
-/

namespace TypesetKernel.Scaled

variable {s : Scaled}

/-- Within the range that typesetting allows. -/
def Allowed (s : Scaled) : Prop :=
  -largest.sp.toInt ≤ s.sp.toInt ∧ s.sp.toInt ≤ largest.sp.toInt

instance (s : Scaled) : Decidable s.Allowed := inferInstanceAs (Decidable (_ ∧ _))

theorem toInt_largest : largest.sp.toInt = 2 ^ 30 - 1 := rfl

/-- Clamping moves a number no further than to the nearest end of the allowed range. -/
theorem toInt_clamped (n : Int) :
    (clamped n).sp.toInt = max (-largest.sp.toInt) (min n largest.sp.toInt) := by
  have limit := toInt_largest
  exact Int32.toInt_ofInt_of_le (by omega) (by omega)

theorem allowed_clamped (n : Int) : (clamped n).Allowed := by
  have limit := toInt_largest
  rw [Allowed, toInt_clamped]
  omega

theorem toInt_scale (s : Scaled) (x : FixWord) :
    (s.scale x).sp.toInt = (s.sp.toInt * x.raw.toInt / 2 ^ 20).bmod (2 ^ 32) :=
  Int32.toInt_ofInt

/-- A multiple is exact, apart from being rounded down, if and only if the product keeps within the
range of 32 bits when its 20 binary places are taken off. -/
theorem toInt_scale_eq_iff (s : Scaled) (x : FixWord) :
    (s.scale x).sp.toInt = s.sp.toInt * x.raw.toInt / 2 ^ 20 ↔
      -2 ^ 51 ≤ s.sp.toInt * x.raw.toInt ∧ s.sp.toInt * x.raw.toInt < 2 ^ 51 := by
  rw [toInt_scale]
  generalize s.sp.toInt * x.raw.toInt = product
  constructor
  · intro same
    have low : -((2 ^ 32 : Nat) / 2 : Int) ≤ (product / 2 ^ 20).bmod (2 ^ 32) := Int.le_bmod (by decide)
    have high : (product / 2 ^ 20).bmod (2 ^ 32) < (2 ^ 32 + 1) / 2 := Int.bmod_lt (by decide)
    rw [same] at low high
    omega
  · rintro ⟨low, high⟩
    exact Int.bmod_eq_of_le (by omega) (by omega)

/-- What scaling `x` to the size `s` gives as `y`. -/
structure Multiple (s : Scaled) (x : FixWord) (y : Scaled) : Prop where
  /-- The product rounded down, as far as 32 bits go. -/
  reduced : y.sp.toInt = (s.sp.toInt * x.raw.toInt / 2 ^ 20).bmod (2 ^ 32)
  /-- Nothing is cut off if and only if the product fits. -/
  exact_iff : y.sp.toInt = s.sp.toInt * x.raw.toInt / 2 ^ 20 ↔
    -2 ^ 51 ≤ s.sp.toInt * x.raw.toInt ∧ s.sp.toInt * x.raw.toInt < 2 ^ 51
  /-- Up to two in either direction the product always fits. -/
  exact_of_small : -2 ^ 21 ≤ x.raw.toInt → x.raw.toInt ≤ 2 ^ 21 →
    y.sp.toInt = s.sp.toInt * x.raw.toInt / 2 ^ 20

theorem multiple_scale (allowed : s.Allowed) (x : FixWord) : Multiple s x (s.scale x) where
  reduced := toInt_scale s x
  exact_iff := toInt_scale_eq_iff s x
  exact_of_small low high := by
    have limit := toInt_largest
    obtain ⟨below, above⟩ := allowed
    have size : s.sp.toInt.natAbs ≤ 2 ^ 30 - 1 := by omega
    have factor : x.raw.toInt.natAbs ≤ 2 ^ 21 := by omega
    have product := Nat.mul_le_mul size factor
    rw [← Int.natAbs_mul] at product
    exact (toInt_scale_eq_iff s x).mpr ⟨by omega, by omega⟩

/-! ## Multiples among each other -/

variable {x a b sum : FixWord}

/-- The exact multiple, rounded down, is a number of 32 bits. -/
def Fits (s : Scaled) (x : FixWord) : Prop :=
  -2 ^ 31 ≤ s.sp.toInt * x.raw.toInt / 2 ^ 20 ∧ s.sp.toInt * x.raw.toInt / 2 ^ 20 < 2 ^ 31

instance (s : Scaled) (x : FixWord) : Decidable (s.Fits x) := inferInstanceAs (Decidable (_ ∧ _))

theorem Fits.toInt_scale (fits : s.Fits x) :
    (s.scale x).sp.toInt = s.sp.toInt * x.raw.toInt / 2 ^ 20 := by
  obtain ⟨low, high⟩ := fits
  exact (toInt_scale_eq_iff s x).mpr ⟨by omega, by omega⟩

/-- A fix word has four binary places more than a number of scaled points. -/
theorem scale_one (x : FixWord) : (one.scale x).sp = x.toScaledPoints := by
  have low := x.raw.le_toInt
  have high := x.raw.toInt_lt
  have unit : one.sp.toInt = 2 ^ 16 := rfl
  have fits : one.Fits x := by
    rw [Fits, unit]
    omega
  rw [← Int32.toInt_inj, fits.toInt_scale, x.toInt_toScaledPoints, unit]
  omega

theorem scale_by_one (s : Scaled) : s.scale .one = s := by
  have low := s.sp.le_toInt
  have high := s.sp.toInt_lt
  have unit : FixWord.one.raw.toInt = 2 ^ 20 := rfl
  have fits : s.Fits .one := by
    rw [Fits, unit]
    omega
  rw [Scaled.mk.injEq, ← Int32.toInt_inj, fits.toInt_scale, unit]
  exact Int.mul_ediv_cancel _ (by decide)

/-- Two remainders of a division make up less than twice the divisor. -/
theorem scale_sum (adds : sum.raw.toInt = a.raw.toInt + b.raw.toInt) (first : s.Fits a)
    (second : s.Fits b) (together : s.Fits sum) :
    (s.scale a).sp.toInt + (s.scale b).sp.toInt ≤ (s.scale sum).sp.toInt ∧
      (s.scale sum).sp.toInt ≤ (s.scale a).sp.toInt + (s.scale b).sp.toInt + 1 := by
  rw [first.toInt_scale, second.toInt_scale, together.toInt_scale, adds, Int.mul_add]
  omega

/-- Division keeps the order of the products, which is that of the factors or its reverse. -/
theorem scale_mono (first : s.Fits a) (second : s.Fits b) (ordered : a.raw ≤ b.raw) :
    (0 ≤ s.sp → (s.scale a).sp ≤ (s.scale b).sp) ∧
      (s.sp ≤ 0 → (s.scale b).sp ≤ (s.scale a).sp) := by
  have factors : a.raw.toInt ≤ b.raw.toInt := Int32.le_iff_toInt_le.mp ordered
  rw [Int32.le_iff_toInt_le, Int32.le_iff_toInt_le, Int32.le_iff_toInt_le, Int32.le_iff_toInt_le,
    first.toInt_scale, second.toInt_scale]
  constructor
  · intro positive
    exact Int.ediv_le_ediv (by decide) (Int.mul_le_mul_of_nonneg_left factors positive)
  · intro negative
    exact Int.ediv_le_ediv (by decide) (Int.mul_le_mul_of_nonpos_left negative factors)

/-- How multiples go together. Those of the unit dimension are what the factors are in scaled
points, and the unit factor leaves every dimension as it is. As long as the multiples fit into 32
bits, those of two factors add up to that of their sum or to one scaled point less, and a larger
factor gives a larger multiple of a positive dimension and a smaller one of a negative dimension,
unless rounding makes them equal. -/
theorem multiples_add_up :
    (∀ x : FixWord, (one.scale x).sp = x.toScaledPoints) ∧
    (∀ s : Scaled, s.scale .one = s) ∧
    (∀ (s : Scaled) (a b sum : FixWord), sum.raw.toInt = a.raw.toInt + b.raw.toInt →
      s.Fits a → s.Fits b → s.Fits sum →
      (s.scale a).sp.toInt + (s.scale b).sp.toInt ≤ (s.scale sum).sp.toInt ∧
      (s.scale sum).sp.toInt ≤ (s.scale a).sp.toInt + (s.scale b).sp.toInt + 1) ∧
    ∀ (s : Scaled) (a b : FixWord), s.Fits a → s.Fits b → a.raw ≤ b.raw →
      (0 ≤ s.sp → (s.scale a).sp ≤ (s.scale b).sp) ∧
      (s.sp ≤ 0 → (s.scale b).sp ≤ (s.scale a).sp) :=
  ⟨scale_one, scale_by_one, fun _ _ _ _ => scale_sum, fun _ _ _ => scale_mono⟩

/-- Two widths that lose three quarters of a scaled point each at ten points, and one of them at a
negative size. -/
theorem multiples_add_up_thirds :
    let ten : Scaled := ⟨655360⟩
    let turned : Scaled := ⟨-655360⟩
    let half : FixWord := ⟨349526⟩
    let whole : FixWord := ⟨699052⟩
    ten.Fits half ∧ ten.Fits whole ∧ turned.Fits half ∧ turned.Fits whole ∧ half.raw ≤ whole.raw ∧
      (ten.scale half).sp.toInt = 218453 ∧ (ten.scale whole).sp.toInt = 218453 + 218453 + 1 ∧
      (ten.scale whole).sp.toInt ≤ (ten.scale half).sp.toInt + (ten.scale half).sp.toInt + 1 ∧
      (turned.scale whole).sp ≤ (turned.scale half).sp := by
  intro ten turned half whole
  obtain ⟨-, -, adds, ordered⟩ := multiples_add_up
  have fits : ten.Fits half ∧ ten.Fits whole ∧ turned.Fits half ∧ turned.Fits whole := by decide
  obtain ⟨once, twice, turnedOnce, turnedTwice⟩ := fits
  have larger : half.raw ≤ whole.raw := by decide
  have bound := adds ten half half whole (by decide) once once twice
  have reversed := ordered turned half whole turnedOnce turnedTwice larger
  exact ⟨once, twice, turnedOnce, turnedTwice, larger, by decide, by decide, bound.2,
    reversed.2 (by decide)⟩

/-! ## Text -/

section Text

variable (s : Scaled)

theorem natAbs_sp_lt : s.sp.toInt.natAbs < 2 ^ 52 := by
  have low := s.sp.le_toInt
  have high := s.sp.toInt_lt
  omega

theorem negative_shortest : s.toPoints.shortest.negative = decide (s.sp < 0) := by
  rw [decide_eq_decide.mpr Int32.lt_iff_toInt_lt]
  rfl

theorem value_toPoints : s.toPoints.value = s.sp.toInt / 2 ^ 16 := rfl

/-- Half a unit of the last place is less than half a scaled point. -/
theorem shortest_toPoints :
    ∃ x : Binary64, x.value = s.sp.toInt / 2 ^ 16 ∧ s.toPoints.shortest.ShortestOf x ∧
      |s.toPoints.shortest.value - s.sp.toInt / 2 ^ 16| < 1 / 2 ^ 17 := by
  have small := s.natAbs_sp_lt
  obtain ⟨x, same, shortest, close⟩ := BinaryFraction.shortest_spec (x := s.toPoints)
    (small.trans (by norm_num)) (show 16 ≤ 1021 by decide)
  rw [value_toPoints] at same close
  refine ⟨x, same, shortest, close.trans_lt ?_⟩
  have room : (1 : ℚ) < 2 ^ BinaryFraction.headroom s.sp.toInt.natAbs :=
    one_lt_pow₀ one_lt_two (BinaryFraction.headroom_pos small).ne'
  rw [div_div]
  refine one_div_lt_one_div_of_lt (by positivity) ?_
  change (2 : ℚ) ^ 17 < 2 ^ 16 * 2 ^ BinaryFraction.headroom s.sp.toInt.natAbs * 2
  linarith

/-- What is closer to a number of scaled points than half of one is rounded to this number. -/
theorem round_of_abs_sub_lt {t : ℚ} {n : Int} (close : |t - n / 2 ^ 16| < 1 / 2 ^ 17) :
    round (t * 2 ^ 16) = n := by
  obtain ⟨low, high⟩ := abs_lt.mp close
  rw [round_eq_iff, Set.mem_Ico]
  constructor <;> linarith

theorem round_shortest : round (s.toPoints.shortest.value * 2 ^ 16) = s.sp.toInt := by
  obtain ⟨-, -, -, close⟩ := s.shortest_toPoints
  exact round_of_abs_sub_lt close

theorem text_injective : Function.Injective text := by
  intro s t same
  have decimals : s.toPoints.shortest.text = t.toPoints.shortest.text :=
    (String.append_left_inj "pt").mp same
  have read := congrArg Decimal.ofText? decimals
  rw [Decimal.ofText?_text, Decimal.ofText?_text, Option.some.injEq] at read
  have number : s.sp.toInt = t.sp.toInt := by rw [← round_shortest, read, round_shortest]
  rw [Scaled.mk.injEq]
  exact Int32.toInt_inj.mp number

/-- The text of a dimension is a plain decimal and the unit: a sign exactly if the dimension is
negative, an integer part without leading zeros and, if there are decimal places, a point and as
many digits. It reads back as a decimal that is less than half a scaled point away from the
dimension, so the nearest number of scaled points is the dimension itself, and no two dimensions are
written alike. The dimension is exactly a binary64 value and the decimal rounds to it. No decimal
with fewer places does, and none with as many places that does is nearer. -/
theorem text_reads_back :
    (∀ s : Scaled, ∃ d : Decimal, s.text = d.text ++ "pt" ∧
      (∃ whole fraction : List Char,
        d.text.toList = (if s.sp < 0 then ['-'] else []) ++ whole ++ fraction ∧
        Decimal.Numeral whole ∧
        (fraction = [] ∨ ∃ places, fraction = '.' :: places ∧ places ≠ [] ∧
          ∀ c ∈ places, c.isDigit)) ∧
      Decimal.ofText? d.text = some d ∧
      |d.value - s.sp.toInt / 2 ^ 16| < 1 / 2 ^ 17 ∧
      round (d.value * 2 ^ 16) = s.sp.toInt ∧
      ∃ x : Binary64, x.value = s.sp.toInt / 2 ^ 16 ∧ x.RoundsTo d.value ∧
        ∀ e : Decimal, x.RoundsTo e.value → d.places ≤ e.places ∧
          (e.places = d.places → |d.value - x.value| ≤ |e.value - x.value|)) ∧
    ∀ s t : Scaled, s.text = t.text → s = t := by
  refine ⟨fun s => ?_, fun s t same => text_injective same⟩
  obtain ⟨x, same, shortest, close⟩ := s.shortest_toPoints
  refine ⟨s.toPoints.shortest, rfl, ?_, Decimal.ofText?_text _, close, round_of_abs_sub_lt close, x,
    same, shortest.reads, fun e reads => ⟨shortest.fewest e reads, shortest.nearest e reads⟩⟩
  refine ⟨Nat.toDigits 10 s.toPoints.shortest.whole, s.toPoints.shortest.fractionText, ?_,
    Decimal.numeral_toDigits _, Decimal.fractionText_eq_nil_or_places _⟩
  rw [Decimal.toList_text, negative_shortest, List.append_assoc]
  simp only [decide_eq_true_eq]

/-- The largest dimension below 2048 points, of which twelve of the sixteen decimal places are
written. -/
theorem text_reads_back_below_2048 :
    let s : Scaled := ⟨134217727⟩
    let d : Decimal := { negative := false, digits := 2047999984741211, places := 12 }
    s.text = "2047.999984741211pt" ∧ round (d.value * 2 ^ 16) = 134217727 ∧
      ∃ x : Binary64, x.value = 134217727 / 2 ^ 16 ∧ x.RoundsTo d.value ∧
        ∀ e : Decimal, x.RoundsTo e.value → 12 ≤ e.places := by
  intro s d
  have text : s.text = "2047.999984741211" ++ "pt" := by decide +kernel
  obtain ⟨written, same, -, read, -, rounded, x, exact, rounds, best⟩ := text_reads_back.1 s
  have decimal := (String.append_left_inj "pt").mp (text.symm.trans same)
  have known : Decimal.ofText? "2047.999984741211" = some d := by decide +kernel
  rw [← decimal, known, Option.some.injEq] at read
  subst read
  exact ⟨text, rounded, x, exact, rounds, fun e reads => (best e reads).1⟩

/-- A dimension of one scaled point has no shorter decimal than the one with all places. -/
example : (Scaled.mk (-1)).text = "-0.0000152587890625pt" := by decide +kernel

end Text

end TypesetKernel.Scaled
