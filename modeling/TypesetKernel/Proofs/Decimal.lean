import Mathlib.Algebra.Field.Rat
import Mathlib.Algebra.Order.Field.Basic
import Mathlib.Tactic.FieldSimp
import Mathlib.Tactic.Linarith
import TypesetKernel.BinaryFraction

/-!
Decimals as they are written and the numbers that they denote. The text of a decimal has an optional
sign, an integer part without leading zeros and, behind a point, as many digits as there are places
(`toList_text`). Reading the text gives the decimal back (`ofText?_text`), so no two decimals are
written alike. A binary fraction and its exact decimal denote the same number
(`value_exactDecimal`), and a rounded decimal is nearest to its fraction (`nearest_roundDiv`).
-/

namespace TypesetKernel

namespace Decimal

/-! ## Reading -/

/-- Decimal digits that begin with a zero only if it is their only digit. -/
structure Numeral (cs : List Char) : Prop where
  digits : ∀ c ∈ cs, c.isDigit
  nonempty : cs ≠ []
  leading : cs.head? = some '0' → cs = ['0']

/-- Reads a decimal without a sign: digits and, behind a point, more digits. -/
def ofDigits? (negative : Bool) (cs : List Char) : Option Decimal :=
  let whole := cs.takeWhile Char.isDigit
  if whole = [] then none
  else
    match cs.dropWhile Char.isDigit with
    | [] => some { negative, digits := Nat.ofDigitChars 10 whole 0, places := 0 }
    | point :: fraction =>
      if point = '.' ∧ fraction ≠ [] ∧ fraction.all Char.isDigit then
        some { negative, digits := Nat.ofDigitChars 10 (whole ++ fraction) 0,
               places := fraction.length }
      else none

/-- Reads a decimal with an optional sign. -/
def ofText? (s : String) : Option Decimal :=
  if s.toList.head? = some '-' then ofDigits? true s.toList.tail else ofDigits? false s.toList

/-! ## Digits -/

/-- The head of a longer numeral is the head of the numeral without its last digit. -/
theorem head?_toDigits (n : Nat) (positive : 0 < n) : (Nat.toDigits 10 n).head? ≠ some '0' := by
  induction n using Nat.strongRecOn with
  | ind n ih =>
    rw [Nat.toDigits_eq_if (by decide)]
    by_cases small : n < 10
    · rw [if_pos small, List.head?_cons, ne_eq, Option.some.injEq, Nat.digitChar_eq_zero]
      omega
    · obtain ⟨first, rest, shape⟩ := List.exists_cons_of_ne_nil (Nat.toDigits_ne_nil (n := n / 10))
      have same := ih (n / 10) (by omega) (by omega)
      rw [shape, List.head?_cons] at same
      rw [if_neg small, shape, List.cons_append, List.head?_cons]
      exact same

theorem numeral_toDigits (n : Nat) : Numeral (Nat.toDigits 10 n) where
  digits := fun _ member => Nat.isDigit_of_mem_toDigits (by decide) (by decide) member
  nonempty := Nat.toDigits_ne_nil
  leading := by
    intro zero
    by_cases positive : 0 < n
    · exact absurd zero (head?_toDigits n positive)
    · rw [Nat.eq_zero_of_not_pos positive]
      rfl

theorem isDigit_of_mem_lowDigits {count n : Nat} {c : Char} (member : c ∈ lowDigits count n) :
    c.isDigit := by
  induction count generalizing n with
  | zero => cases member
  | succ count ih =>
    rcases List.mem_append.mp member with upper | last
    · exact ih upper
    · rw [List.mem_singleton.mp last, Nat.isDigit_digitChar]
      exact decide_eq_true (Nat.mod_lt _ (by decide))

/-- Written digits denote the number that they were taken from, up to their count. -/
theorem ofDigitChars_lowDigits (count n init : Nat) :
    Nat.ofDigitChars 10 (lowDigits count n) init = 10 ^ count * init + n % 10 ^ count := by
  induction count generalizing n with
  | zero => simp [lowDigits, Nat.mod_one]
  | succ count ih =>
    have digit : n % 10 < 10 := Nat.mod_lt _ (by decide)
    rw [lowDigits, Nat.ofDigitChars_append, ih,
      Nat.ofDigitChars_cons_digitChar_of_lt_ten digit, Nat.ofDigitChars_nil]
    calc 10 * (10 ^ count * init + n / 10 % 10 ^ count) + n % 10
        = 10 ^ (count + 1) * init + (n % 10 + 10 * (n / 10 % 10 ^ count)) := by
          rw [Nat.pow_succ', Nat.mul_add, Nat.mul_assoc]
          omega
      _ = 10 ^ (count + 1) * init + n % 10 ^ (count + 1) := by
          rw [Nat.pow_succ', Nat.mod_mul]

/-- Without its last digit a numeral that is filled up with zeros is one that is a place shorter. -/
theorem leftpad_toDigits {base : Nat} (valid : 1 < base) (count n : Nat) :
    (Nat.toDigits base (n % base ^ (count + 2))).leftpad (count + 2) '0'
      = (Nat.toDigits base (n / base % base ^ (count + 1))).leftpad (count + 1) '0'
        ++ [Nat.digitChar (n % base)] := by
  have last : n % base ^ (count + 2) % base = n % base :=
    Nat.mod_mod_of_dvd _ (Dvd.intro_left _ rfl)
  have others : n % base ^ (count + 2) / base = n / base % base ^ (count + 1) := by
    rw [Nat.pow_succ' (n := count + 1), Nat.mod_mul_right_div_self]
  rw [← last, ← others]
  by_cases single : n % base ^ (count + 2) < base
  · rw [Nat.toDigits_of_lt_base single, Nat.div_eq_of_lt single, Nat.mod_eq_of_lt single,
      Nat.toDigits_of_lt_base (by omega)]
    simp [List.leftpad, List.replicate_succ']
  · rw [Nat.toDigits_of_base_le valid (not_lt.mp single)]
    simp [List.leftpad]

theorem lowDigits_eq_leftpad (count n : Nat) :
    lowDigits (count + 1) n = (Nat.toDigits 10 (n % 10 ^ (count + 1))).leftpad (count + 1) '0' := by
  induction count generalizing n with
  | zero =>
    have digit : n % 10 < 10 := Nat.mod_lt _ (by decide)
    simp [lowDigits, List.leftpad, Nat.toDigits_of_lt_base digit]
  | succ count ih => rw [leftpad_toDigits (by decide), ← ih, lowDigits]

/-- The written integer part and places together denote all digits of a decimal. -/
theorem ofDigitChars_text (d : Decimal) :
    Nat.ofDigitChars 10 (Nat.toDigits 10 d.whole ++ lowDigits d.places d.digits) 0 = d.digits := by
  rw [Nat.ofDigitChars_append, Nat.ofDigitChars_ten_toDigits, ofDigitChars_lowDigits, whole]
  exact Nat.div_add_mod d.digits (10 ^ d.places)

/-! ## Writing -/

/-- What stands behind the integer part. -/
def fractionText (d : Decimal) : List Char :=
  if d.places = 0 then [] else '.' :: lowDigits d.places d.digits

theorem toList_text (d : Decimal) :
    d.text.toList = (if d.negative then ['-'] else []) ++ (Nat.toDigits 10 d.whole
      ++ d.fractionText) := by
  have sign : (if d.negative then "-" else "").toList = if d.negative then ['-'] else [] := by
    cases d.negative <;> rfl
  simp only [text, String.toList_append, sign, Nat.toString_eq_ofList_toDigits,
    String.toList_ofList, List.append_assoc]
  rfl

/-- The digits behind the point are filled up with zeros. -/
theorem text_of_places {d : Decimal} {places : Nat} (count : d.places = places + 1) :
    d.text = (if d.negative then "-" else "") ++ toString (d.digits / 10 ^ (places + 1)) ++ "."
      ++ String.ofList
        ((Nat.toDigits 10 (d.digits % 10 ^ (places + 1))).leftpad (places + 1) '0') := by
  rw [← lowDigits_eq_leftpad, ← String.toList_inj]
  simp [text, whole, count]

theorem fractionText_eq_nil_or_places (d : Decimal) :
    d.fractionText = [] ∨ ∃ places, d.fractionText = '.' :: places ∧ places ≠ [] ∧
      ∀ c ∈ places, c.isDigit := by
  unfold fractionText
  by_cases none : d.places = 0
  · exact .inl (if_pos none)
  · refine .inr ⟨lowDigits d.places d.digits, if_neg none, ?_, fun _ => isDigit_of_mem_lowDigits⟩
    rw [← List.length_pos_iff, length_lowDigits]
    exact Nat.pos_of_ne_zero none

/-- Digits are read up to what is no digit. -/
theorem span_digits {digits rest : List Char} (all : ∀ c ∈ digits, c.isDigit)
    (stops : ∀ c ∈ rest.head?, c.isDigit = false) :
    (digits ++ rest).takeWhile Char.isDigit = digits ∧
      (digits ++ rest).dropWhile Char.isDigit = rest := by
  rw [List.takeWhile_append_of_pos all, List.dropWhile_append_of_pos all]
  cases rest with
  | nil => simp
  | cons c rest =>
    have other := stops c rfl
    simp [other]

theorem ofDigits?_text (d : Decimal) :
    ofDigits? d.negative (Nat.toDigits 10 d.whole ++ d.fractionText) = some d := by
  have whole := numeral_toDigits d.whole
  have number := ofDigitChars_text d
  have stops : ∀ c ∈ d.fractionText.head?, c.isDigit = false := by
    unfold fractionText
    split <;> simp
  obtain ⟨taken, dropped⟩ := span_digits whole.digits stops
  unfold ofDigits?
  rw [taken, dropped, if_neg whole.nonempty, fractionText]
  obtain ⟨negative, digits, places⟩ := d
  cases places with
  | zero =>
    rw [lowDigits, List.append_nil] at number
    simp [number]
  | succ places =>
    have some_digit : lowDigits (places + 1) digits ≠ [] := by simp [lowDigits]
    have all : (lowDigits (places + 1) digits).all Char.isDigit :=
      List.all_eq_true.mpr fun _ member => isDigit_of_mem_lowDigits member
    simp [some_digit, number, all]

/-- What was written is read back. -/
theorem ofText?_text (d : Decimal) : ofText? d.text = some d := by
  have read := ofDigits?_text d
  have whole := numeral_toDigits d.whole
  unfold ofText?
  rw [toList_text]
  cases sign : d.negative with
  | true => simpa [sign] using read
  | false =>
    obtain ⟨first, rest, shape⟩ := List.exists_cons_of_ne_nil whole.nonempty
    have unsigned : first ≠ '-' := by
      rintro rfl
      have digit := whole.digits '-' (by simp [shape])
      cases digit
    rw [sign, shape] at read
    simpa [shape, unsigned] using read

/-! ## Values -/

/-- The number that the decimal denotes. -/
def value (d : Decimal) : ℚ := (if d.negative then -1 else 1) * d.digits / 10 ^ d.places

end Decimal

namespace BinaryFraction

def value (x : BinaryFraction) : ℚ := x.numerator / 2 ^ x.places

private theorem sign_mul_natAbs (n : Int) :
    (if n < 0 then -1 else 1) * (n.natAbs : ℚ) = n := by
  rw [Nat.cast_natAbs, Int.cast_abs]
  by_cases negative : n < 0
  · rw [if_pos negative, abs_of_neg (by exact_mod_cast negative), neg_one_mul, neg_neg]
  · rw [if_neg negative, abs_of_nonneg (by exact_mod_cast not_lt.mp negative), one_mul]

/-- A power of two in the denominator is made a power of ten by as many fives. -/
theorem value_exactDecimal (x : BinaryFraction) : x.exactDecimal.value = x.value := by
  have tens : (10 : ℚ) ^ x.places = 2 ^ x.places * 5 ^ x.places := by
    rw [← mul_pow]
    norm_num
  have fives : (5 : ℚ) ^ x.places ≠ 0 := pow_ne_zero _ (by norm_num)
  calc x.exactDecimal.value
      = (if x.numerator < 0 then -1 else 1) * (x.numerator.natAbs * 5 ^ x.places)
          / 10 ^ x.places := by simp [Decimal.value, exactDecimal]
    _ = x.numerator * 5 ^ x.places / (2 ^ x.places * 5 ^ x.places) := by
      rw [← mul_assoc, sign_mul_natAbs, tens]
    _ = x.value := mul_div_mul_right _ _ fives

/-! ## Rounding -/

/-- A whole number is nearest to `x`, and an even one if another is as near. -/
structure Nearest (x : ℚ) (n : Nat) : Prop where
  within : |n - x| ≤ 1 / 2
  even : |n - x| = 1 / 2 → Even n

/-- The remainder tells which neighbour of a quotient is nearer. -/
theorem nearest_roundDiv (dividend : Nat) {divisor : Nat} (positive : 0 < divisor) :
    Nearest (dividend / divisor) (roundDiv dividend divisor) := by
  have scale : (0 : ℚ) < divisor := by exact_mod_cast positive
  have small := Nat.mod_lt dividend positive
  have parts := Nat.div_add_mod dividend divisor
  unfold roundDiv
  generalize dividend / divisor = quotient at parts ⊢
  generalize dividend % divisor = rest at parts small ⊢
  subst parts
  have value : ((divisor * quotient + rest : Nat) : ℚ) / divisor = quotient + rest / divisor := by
    push_cast
    field_simp
  have share : 0 ≤ (rest : ℚ) / divisor := div_nonneg rest.cast_nonneg scale.le
  have part : (rest : ℚ) / divisor < 1 := (div_lt_one scale).mpr (by exact_mod_cast small)
  have half_le : (rest : ℚ) / divisor ≤ 1 / 2 ↔ 2 * rest ≤ divisor := by
    rw [div_le_div_iff₀ scale two_pos, one_mul, mul_comm]
    exact_mod_cast Iff.rfl
  have le_half : 1 / 2 ≤ (rest : ℚ) / divisor ↔ divisor ≤ 2 * rest := by
    rw [div_le_div_iff₀ two_pos scale, one_mul, mul_comm]
    exact_mod_cast Iff.rfl
  rw [value]
  by_cases down : 2 * rest < divisor ∨ 2 * rest = divisor ∧ quotient % 2 = 0
  · have error : |(quotient : ℚ) - (quotient + rest / divisor)| = rest / divisor := by
      rw [sub_add_cancel_left, abs_neg, abs_of_nonneg share]
    rw [if_pos down]
    refine ⟨?_, fun tie => ?_⟩
    · rw [error, half_le]
      omega
    · rw [error] at tie
      have atLeast := le_half.mp tie.ge
      rw [Nat.even_iff]
      omega
  · have error : |((quotient + 1 : Nat) : ℚ) - (quotient + rest / divisor)|
        = 1 - rest / divisor := by
      rw [Nat.cast_succ, add_sub_add_left_eq_sub, abs_of_pos (sub_pos.mpr part)]
    have atLeast := le_half.mpr (by omega)
    rw [if_neg down]
    refine ⟨?_, fun tie => ?_⟩
    · rw [error]
      linarith
    · rw [error] at tie
      have atMost := half_le.mp (by linarith)
      rw [Nat.even_add_one, Nat.not_even_iff]
      omega

theorem nearest_toPlaces (x : BinaryFraction) (decimals : Nat) :
    Nearest (|x.value| * 10 ^ decimals) (x.toPlaces decimals).digits := by
  have positive : 0 < 1 <<< x.places := by
    rw [Nat.one_shiftLeft]
    exact Nat.two_pow_pos _
  have denominator : (0 : ℚ) < 2 ^ x.places := pow_pos two_pos _
  have scaled : |x.value| * (10 : ℚ) ^ decimals
      = ((x.numerator.natAbs * 10 ^ decimals : Nat) : ℚ) / (1 <<< x.places : Nat) := by
    rw [value, abs_div, abs_of_pos denominator, Nat.one_shiftLeft, div_mul_eq_mul_div]
    push_cast
    rw [Nat.cast_natAbs, Int.cast_abs]
  rw [scaled]
  exact nearest_roundDiv _ positive

end BinaryFraction

end TypesetKernel
