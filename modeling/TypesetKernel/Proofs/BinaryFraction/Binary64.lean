import Mathlib.Algebra.Group.Int.Even
import Mathlib.Algebra.Order.Field.Power
import Mathlib.Algebra.Order.Field.Rat
import Mathlib.Tactic.Linarith
import Mathlib.Tactic.Positivity
import Mathlib.Tactic.Ring

/-!
Binary64 values and rounding to them. A finite binary64 value is a significand of 53 bits in units
of a power of two. A number rounds to the nearest value, and to the one with the even significand if
two are equally near. A value away from the ends of the range has neighbours one unit above and one
unit below it, or half a unit below it if it is a power of two, so the numbers that round to it are
those up to the middle on either side (`roundsTo_iff`).
-/

namespace TypesetKernel

/-- A finite binary64 value. All bits of the significand are used unless the unit is the least one.
-/
structure Binary64 where
  significand : Int
  exponent : Int
  bits : |significand| < 2 ^ 53
  least : -1074 ≤ exponent
  most : exponent ≤ 971
  full : 2 ^ 52 ≤ |significand| ∨ exponent = -1074

namespace Binary64

variable {x : Binary64} {t : ℚ}

/-- The power of two that the significand counts. -/
def unit (x : Binary64) : ℚ := 2 ^ x.exponent

def value (x : Binary64) : ℚ := x.significand * x.unit

def zero : Binary64 where
  significand := 0
  exponent := -1074
  bits := by decide
  least := by decide
  most := by decide
  full := .inr rfl

def neg (x : Binary64) : Binary64 where
  significand := -x.significand
  exponent := x.exponent
  bits := by rw [abs_neg]; exact x.bits
  least := x.least
  most := x.most
  full := by rw [abs_neg]; exact x.full

/-- A number goes to the nearer one of two values and, if they are equally near, to this one if its
significand is even. -/
def Preferred (t : ℚ) (x : Binary64) (other : ℚ) : Prop :=
  |t - x.value| < |t - other| ∨ |t - x.value| = |t - other| ∧ Even x.significand

/-- The value is the nearest to a number. Overflow is left out of account: it does not change what
rounds to a value away from the ends of the range. -/
def RoundsTo (t : ℚ) (x : Binary64) : Prop :=
  ∀ z : Binary64, z.value ≠ x.value → Preferred t x z.value

@[simp] theorem value_zero : zero.value = 0 := by simp [value, zero]

@[simp] theorem value_neg (x : Binary64) : x.neg.value = -x.value := by simp [value, neg, unit]

@[simp] protected theorem neg_neg (x : Binary64) : x.neg.neg = x := by simp [neg]

theorem value_eq (x : Binary64) : x.value = x.significand * x.unit := rfl

theorem unit_pos (x : Binary64) : 0 < x.unit := zpow_pos (by norm_num) _

theorem RoundsTo.neg (rounds : RoundsTo t x) : RoundsTo (-t) x.neg := by
  intro z other
  have distance (y : ℚ) : |-t - y| = |t - -y| := by
    rw [← abs_neg]
    congr 1
    ring
  rw [value_neg] at other
  rw [Preferred, value_neg, distance, distance, neg_neg, ← value_neg z]
  have nearer := rounds z.neg (by rw [value_neg]; exact fun same => other (by rw [← same, neg_neg]))
  exact nearer.imp_right fun ⟨equal, even⟩ => ⟨equal, even.neg⟩

theorem roundsTo_value (x : Binary64) : RoundsTo x.value x := by
  intro z other
  refine .inl ?_
  rw [sub_self, abs_zero]
  exact abs_pos.mpr (sub_ne_zero.mpr other.symm)

/-- What lies between a number and the value that it rounds to rounds to the same value. -/
theorem RoundsTo.between {s : ℚ} (rounds : RoundsTo t x)
    (between : t ≤ s ∧ s ≤ x.value ∨ x.value ≤ s ∧ s ≤ t) : RoundsTo s x := by
  intro z other
  have detour : |t - z.value| ≤ |t - s| + |s - z.value| := abs_sub_le t s z.value
  have way : |t - x.value| = |t - s| + |s - x.value| := by
    rcases between with ⟨low, high⟩ | ⟨low, high⟩
    · rw [abs_of_nonpos (by linarith), abs_of_nonpos (by linarith), abs_of_nonpos (by linarith)]
      ring
    · rw [abs_of_nonneg (by linarith), abs_of_nonneg (by linarith), abs_of_nonneg (by linarith)]
      ring
  rcases rounds z other with less | ⟨equal, even⟩
  · exact .inl (by linarith)
  · rcases (show |s - x.value| ≤ |s - z.value| by linarith).lt_or_eq with less | same
    · exact .inl less
    · exact .inr ⟨same, even⟩

/-- Only positive numbers round to a positive value, since zero is a value, too. -/
theorem RoundsTo.pos (rounds : RoundsTo t x) (positive : 0 < x.value) : 0 < t := by
  by_contra negative
  have nearer : |t - x.value| ≤ |t - zero.value| := by
    rcases rounds zero (by rw [value_zero]; exact positive.ne) with less | ⟨equal, -⟩
    · exact less.le
    · exact equal.le
  rw [value_zero, abs_of_neg (by linarith), abs_of_nonpos (by linarith)] at nearer
  linarith

/-! ## Neighbours -/

/-- A positive value whose significand has its full length, away from the ends of the range. -/
structure Inner (x : Binary64) : Prop where
  normal : 2 ^ 52 ≤ x.significand
  above : -1074 < x.exponent
  below : x.exponent < 971

/-- How far the next lower value is. -/
def gapBelow (x : Binary64) : ℚ := if x.significand = 2 ^ 52 then x.unit / 2 else x.unit

theorem gapBelow_pos (x : Binary64) : 0 < x.gapBelow := by
  have positive := x.unit_pos
  unfold gapBelow
  split <;> linarith

theorem exists_next (inner : x.Inner) : ∃ z : Binary64, z.value = x.value + x.unit := by
  obtain ⟨normal, above, below⟩ := inner
  have bits := (abs_lt.mp x.bits).2
  by_cases last : x.significand + 1 = 2 ^ 53
  · refine ⟨⟨2 ^ 52, x.exponent + 1, by decide, by omega, by omega, .inl (by decide)⟩, ?_⟩
    have significand : x.significand = 2 ^ 53 - 1 := by omega
    simp only [value, unit, significand, zpow_add_one₀ (two_ne_zero' ℚ)]
    push_cast
    ring
  · have positive : |x.significand + 1| = x.significand + 1 := abs_of_nonneg (by omega)
    refine ⟨⟨x.significand + 1, x.exponent, ?_, by omega, by omega, .inl ?_⟩, ?_⟩
    · rw [positive]
      omega
    · rw [positive]
      omega
    · simp only [value, unit]
      push_cast
      ring

theorem exists_previous (inner : x.Inner) : ∃ z : Binary64, z.value = x.value - x.gapBelow := by
  obtain ⟨normal, above, below⟩ := inner
  have bits := (abs_lt.mp x.bits).2
  by_cases first : x.significand = 2 ^ 52
  · refine ⟨⟨2 ^ 53 - 1, x.exponent - 1, by decide, by omega, by omega, .inl (by decide)⟩, ?_⟩
    rw [gapBelow, if_pos first]
    simp only [value, unit, first, zpow_sub_one₀ (two_ne_zero' ℚ)]
    push_cast
    ring
  · have positive : |x.significand - 1| = x.significand - 1 := abs_of_nonneg (by omega)
    refine ⟨⟨x.significand - 1, x.exponent, ?_, by omega, by omega, .inl ?_⟩, ?_⟩
    · rw [positive]
      omega
    · rw [positive]
      omega
    · rw [gapBelow, if_neg first]
      simp only [value, unit]
      push_cast
      ring

/-- A value in smaller units lies below every value whose significand has its full length. -/
theorem value_le_of_finer (normal : 2 ^ 52 ≤ x.significand) {z : Binary64}
    (finer : z.exponent < x.exponent) : z.value ≤ x.value - x.gapBelow := by
  have positive := x.unit_pos
  have halved : z.unit ≤ x.unit / 2 := by
    rw [unit, unit, div_eq_mul_inv, ← zpow_sub_one₀ (two_ne_zero' ℚ)]
    exact zpow_le_zpow_right₀ one_le_two (by omega)
  have most : (z.significand : ℚ) ≤ 2 ^ 53 - 1 := by
    have bits := (abs_lt.mp z.bits).2
    exact_mod_cast (show z.significand ≤ 2 ^ 53 - 1 by omega)
  have bound : z.value ≤ (2 ^ 53 - 1) * (x.unit / 2) :=
    calc z.value ≤ (2 ^ 53 - 1) * z.unit := mul_le_mul_of_nonneg_right most z.unit_pos.le
      _ ≤ (2 ^ 53 - 1) * (x.unit / 2) := mul_le_mul_of_nonneg_left halved (by norm_num)
  by_cases first : x.significand = 2 ^ 52
  · rw [gapBelow, if_pos first, x.value_eq, first]
    push_cast
    linarith
  · have significand : (2 ^ 52 + 1 : ℚ) ≤ x.significand := by
      exact_mod_cast (show 2 ^ 52 + 1 ≤ x.significand by omega)
    have large := mul_le_mul_of_nonneg_right significand positive.le
    rw [gapBelow, if_neg first, x.value_eq]
    linarith

/-- Values in the same or larger units are whole multiples of the unit, so they differ by at least
one. -/
theorem apart_of_coarser {z : Binary64} (other : z.value ≠ x.value)
    (coarser : x.exponent ≤ z.exponent) :
    z.value ≤ x.value - x.unit ∨ x.value + x.unit ≤ z.value := by
  have positive := x.unit_pos
  obtain ⟨shift, exponent⟩ : ∃ shift : Nat, z.exponent = x.exponent + shift :=
    ⟨(z.exponent - x.exponent).toNat, by omega⟩
  have multiple : z.value = ((z.significand * 2 ^ shift : Int) : ℚ) * x.unit := by
    simp only [value, unit, exponent, zpow_add₀ (two_ne_zero' ℚ), zpow_natCast]
    push_cast
    ring
  have different : z.significand * 2 ^ shift ≠ x.significand := by
    intro same
    rw [multiple, same] at other
    exact other rfl
  rw [multiple, value]
  rcases lt_or_gt_of_ne different with lower | higher
  · left
    have step : ((z.significand * 2 ^ shift : Int) : ℚ) ≤ x.significand - 1 := by
      exact_mod_cast Int.le_sub_one_of_lt lower
    linarith [mul_le_mul_of_nonneg_right step positive.le]
  · right
    have step : (x.significand + 1 : ℚ) ≤ ((z.significand * 2 ^ shift : Int) : ℚ) := by
      exact_mod_cast Int.add_one_le_of_lt higher
    linarith [mul_le_mul_of_nonneg_right step positive.le]

theorem gapBelow_le (x : Binary64) : x.gapBelow ≤ x.unit := by
  have positive := x.unit_pos
  unfold gapBelow
  split <;> linarith

/-- Between a value and its neighbours there is no value. -/
theorem apart (inner : x.Inner) {z : Binary64} (other : z.value ≠ x.value) :
    z.value ≤ x.value - x.gapBelow ∨ x.value + x.unit ≤ z.value := by
  by_cases finer : z.exponent < x.exponent
  · exact .inl (value_le_of_finer inner.normal finer)
  · have gap := x.gapBelow_le
    exact (apart_of_coarser other (not_lt.mp finer)).imp_left fun lower => by linarith

/-- What lies further off on the same side is not preferred either. -/
theorem Preferred.further {y z : ℚ} (preferred : Preferred t x y)
    (beyond : z ≤ y ∧ y < x.value ∨ x.value < y ∧ y ≤ z) : Preferred t x z := by
  have nearer : |t - x.value| ≤ |t - y| := by
    rcases preferred with less | ⟨equal, -⟩
    · exact less.le
    · exact equal.le
  have further : |t - y| ≤ |t - z| := by
    rcases abs_cases (t - x.value) with ⟨_, _⟩ | ⟨_, _⟩ <;>
      rcases abs_cases (t - y) with ⟨_, _⟩ | ⟨_, _⟩ <;>
      rcases abs_cases (t - z) with ⟨_, _⟩ | ⟨_, _⟩ <;>
      rcases beyond with ⟨_, _⟩ | ⟨_, _⟩ <;>
      linarith
  rcases preferred with less | ⟨equal, even⟩
  · exact .inl (less.trans_le further)
  · rcases further.lt_or_eq with less | same
    · exact .inl (equal ▸ less)
    · exact .inr ⟨equal.trans same, even⟩

theorem roundsTo_iff_neighbours (inner : x.Inner) :
    RoundsTo t x ↔ Preferred t x (x.value - x.gapBelow) ∧ Preferred t x (x.value + x.unit) := by
  have unit := x.unit_pos
  have gap := x.gapBelow_pos
  constructor
  · intro rounds
    obtain ⟨previous, lower⟩ := exists_previous inner
    obtain ⟨next, higher⟩ := exists_next inner
    rw [← lower, ← higher]
    exact ⟨rounds previous (by linarith), rounds next (by linarith)⟩
  · rintro ⟨below, above⟩ z other
    rcases apart inner other with lower | higher
    · exact below.further (.inl ⟨lower, by linarith⟩)
    · exact above.further (.inr ⟨by linarith, higher⟩)

/-- Of a distance and the rest of a gap, the distance is less if and only if it is less than half of
the gap. -/
private theorem abs_lt_abs_sub_iff {d gap : ℚ} (positive : 0 < gap) :
    |d| < |d - gap| ↔ 2 * d < gap := by
  have factored : (d - gap) ^ 2 - d ^ 2 = gap * (gap - 2 * d) := by ring
  rw [← sq_lt_sq, ← sub_pos, factored, mul_pos_iff_of_pos_left positive, sub_pos]

private theorem abs_eq_abs_sub_iff {d gap : ℚ} (positive : 0 < gap) :
    |d| = |d - gap| ↔ 2 * d = gap := by
  have factored : d ^ 2 - (d - gap) ^ 2 = gap * (2 * d - gap) := by ring
  rw [← sq_eq_sq_iff_abs_eq_abs, ← sub_eq_zero, factored, mul_eq_zero_iff_left positive.ne',
    sub_eq_zero]

/-- Up to the middle of a gap, which itself belongs to an even significand. -/
def Within (x : Binary64) (distance gap : ℚ) : Prop :=
  2 * distance < gap ∨ 2 * distance = gap ∧ Even x.significand

/-- The numbers that round to a value reach to the middle between it and its neighbours. -/
theorem roundsTo_iff (inner : x.Inner) :
    RoundsTo t x ↔ x.Within (x.value - t) x.gapBelow ∧ x.Within (t - x.value) x.unit := by
  have below : |t - (x.value - x.gapBelow)| = |x.value - t - x.gapBelow| := by
    rw [← abs_neg]
    congr 1
    ring
  rw [roundsTo_iff_neighbours inner, Preferred, Preferred, below, abs_sub_comm t x.value,
    abs_lt_abs_sub_iff x.gapBelow_pos, abs_eq_abs_sub_iff x.gapBelow_pos, abs_sub_comm x.value t,
    ← sub_sub, abs_lt_abs_sub_iff x.unit_pos, abs_eq_abs_sub_iff x.unit_pos, Within, Within]

theorem roundsTo_iff_of_le (inner : x.Inner) (above : x.value ≤ t) :
    RoundsTo t x ↔ x.Within (t - x.value) x.unit := by
  rw [roundsTo_iff inner]
  exact and_iff_right (.inl (by linarith [x.gapBelow_pos]))

theorem roundsTo_iff_of_lt (inner : x.Inner) (below : t < x.value) :
    RoundsTo t x ↔ x.Within (x.value - t) x.gapBelow := by
  rw [roundsTo_iff inner]
  exact and_iff_left (.inl (by linarith [x.unit_pos]))

theorem RoundsTo.abs_sub_le (inner : x.Inner) (rounds : RoundsTo t x) :
    |t - x.value| ≤ x.unit / 2 := by
  have smaller := x.gapBelow_le
  obtain ⟨low, high⟩ := (roundsTo_iff inner).mp rounds
  rw [abs_sub_le_iff]
  constructor
  · rcases high with less | ⟨equal, -⟩ <;> linarith
  · rcases low with less | ⟨equal, -⟩ <;> linarith

end Binary64

end TypesetKernel
