import Mathlib.Data.List.Basic
import Mathlib.Data.List.Induction
import TypesetKernel.FixedPoint
import TypesetKernel.Proofs.Decimal

/-!
The text of a fix word. Long division in words of 64 bits keeps the digits that it has written and
what is left in balance (`Expands`). A remainder below `2 ^ 20` is used up after 20 rounds, since
`10 ^ 20` is a multiple of `2 ^ 20`. So the text is that of the exact decimal (`text_eq`) and
denotes the value of the fix word itself (`text_exact`).
-/

namespace TypesetKernel.FixWord

/-! ## Long division -/

/-- The number that digits denote, the first one being the highest. -/
def number (digits : List UInt64) : Nat := digits.foldl (fun n digit => 10 * n + digit.toNat) 0

theorem number_concat (digits : List UInt64) (digit : UInt64) :
    number (digits ++ [digit]) = 10 * number digits + digit.toNat := by
  simp [number, List.foldl_append]

/-- What a number of rounds has made of a remainder: the digits so far and what is left. -/
structure Expands (rest : UInt64) (places : Nat) (state : List UInt64 × UInt64) : Prop where
  below : state.2.toNat < 2 ^ 20
  balance : number state.1 * 2 ^ 20 + state.2.toNat = rest.toNat * 10 ^ places
  digits : ∀ digit ∈ state.1, digit.toNat ≤ 9
  count : state.1.length = places

/-- One round is a division by `2 ^ 20` in which nothing exceeds 64 bits. -/
theorem round_exact {left : UInt64} (below : left.toNat < 2 ^ 20) :
    (nextDigit left).toNat = left.toNat * 10 / 2 ^ 20 ∧
      ((left * 10 : UInt64) - nextDigit left <<< 20).toNat = left.toNat * 10 % 2 ^ 20 := by
  have tenfold : (left * 10).toNat = left.toNat * 10 := by
    rw [UInt64.toNat_mul]
    exact Nat.mod_eq_of_lt (by simp; omega)
  have digit : (nextDigit left).toNat = left.toNat * 10 / 2 ^ 20 := by
    rw [nextDigit, UInt64.toNat_shiftRight, tenfold]
    simp [Nat.shiftRight_eq_div_pow]
  have shifted : (nextDigit left <<< 20).toNat = left.toNat * 10 / 2 ^ 20 * 2 ^ 20 := by
    rw [UInt64.toNat_shiftLeft, digit]
    simp [Nat.shiftLeft_eq]
    omega
  refine ⟨digit, ?_⟩
  rw [UInt64.toNat_sub_of_le _ _ (UInt64.le_iff_toNat_le.mpr (by omega)), tenfold, shifted]
  omega

private theorem regroup (number left : Nat) :
    (10 * number + left * 10 / 2 ^ 20) * 2 ^ 20 + left * 10 % 2 ^ 20
      = (number * 2 ^ 20 + left) * 10 := by
  omega

/-- One more round keeps digits and remainder in balance. -/
theorem Expands.round {rest left : UInt64} {places : Nat} {digits : List UInt64}
    (e : Expands rest places (digits, left)) :
    Expands rest (places + 1)
      (digits ++ [nextDigit left], (left * 10 : UInt64) - nextDigit left <<< 20) := by
  have below : left.toNat < 2 ^ 20 := e.below
  obtain ⟨digit, remainder⟩ := round_exact below
  refine { below := ?_, balance := ?_, digits := ?_, count := ?_ }
  · rw [remainder]
    exact Nat.mod_lt _ (by decide)
  · rw [number_concat, digit, remainder, regroup, e.balance, Nat.mul_assoc, ← Nat.pow_succ]
  · have small : (nextDigit left).toNat ≤ 9 := by omega
    exact List.forall_mem_append.mpr ⟨e.digits, List.forall_mem_singleton.mpr small⟩
  · rw [List.length_append, List.length_singleton, e.count]

theorem expands {rest : UInt64} (below : rest.toNat < 2 ^ 20) (places : Nat) :
    Expands rest places (expand rest places) := by
  induction places with
  | zero =>
    exact { below, balance := by simp [expand, number], digits := by simp [expand], count := rfl }
  | succ places ih => exact ih.round

/-! ## Digits as they are written -/

/-- Digits are the lowest digits of every number that ends like theirs. -/
theorem lowDigits_eq_map {digits : List UInt64} {count n : Nat} (length : digits.length = count)
    (small : ∀ digit ∈ digits, digit.toNat ≤ 9) (ends : n % 10 ^ count = number digits) :
    Decimal.lowDigits count n = digits.map fun digit => Nat.digitChar digit.toNat := by
  subst length
  induction digits using List.reverseRecOn generalizing n with
  | nil => rfl
  | append_singleton digits digit ih =>
    obtain ⟨before, last⟩ := List.forall_mem_append.mp small
    have bound : digit.toNat ≤ 9 := last digit List.mem_cons_self
    rw [List.length_append, List.length_singleton, Nat.pow_succ', Nat.mod_mul,
      number_concat] at ends
    have lowest : n % 10 = digit.toNat := by omega
    have rest : n / 10 % 10 ^ digits.length = number digits := by omega
    rw [List.length_append, List.length_singleton, Decimal.lowDigits, ih before rest, lowest,
      List.map_append, List.map_singleton]

private theorem toList_join_digits {digits : List UInt64}
    (small : ∀ digit ∈ digits, digit.toNat ≤ 9) :
    (String.join (digits.map toString)).toList
      = digits.map fun digit => Nat.digitChar digit.toNat := by
  have single : ∀ digit ∈ digits, (toString digit).toList = [Nat.digitChar digit.toNat] := by
    intro digit member
    have written : (toString digit.toNat).toList = [Nat.digitChar digit.toNat] := by
      rw [Nat.toString_eq_ofList_toDigits, String.toList_ofList]
      exact Nat.toDigits_of_lt_base (Nat.lt_succ_of_le (small digit member))
    exact written
  rw [String.toList_join, List.flatMap_map, List.flatMap_congr single, List.map_eq_flatMap]

/-! ## The whole text -/

variable (x : FixWord)

theorem toNat_magnitude : x.magnitude.toNat = x.raw.toInt.natAbs := by
  have low := x.raw.le_toInt
  have high := x.raw.toInt_lt
  rw [magnitude, UInt64.toNat_ofNat']
  exact Nat.mod_eq_of_lt (by omega)

theorem toNat_fraction : x.fraction.toNat = x.raw.toInt.natAbs % 2 ^ 20 := by
  rw [fraction, UInt64.toNat_and, toNat_magnitude]
  exact Nat.and_two_pow_sub_one_eq_mod _ 20

theorem fraction_lt : x.fraction.toNat < 2 ^ 20 := by
  rw [toNat_fraction]
  exact Nat.mod_lt _ (by decide)

/-- After 20 rounds nothing is left, and the digits denote the part behind the point. -/
theorem expand_fraction :
    (expand x.fraction 20).2 = 0 ∧
      number (expand x.fraction 20).1 = x.raw.toInt.natAbs * 5 ^ 20 % 10 ^ 20 := by
  obtain ⟨below, balance, -, -⟩ := expands x.fraction_lt 20
  rw [toNat_fraction] at balance
  refine ⟨UInt64.toNat_inj.mp ?_, ?_⟩
  · change _ = 0
    omega
  · omega

private theorem toNat_whole :
    (x.magnitude >>> 20).toNat = x.toFraction.exactDecimal.whole := by
  have tens : Nat.pow 10 20 = 2 ^ 20 * Nat.pow 5 20 := by decide
  rw [UInt64.toNat_shiftRight, toNat_magnitude, Nat.shiftRight_eq_div_pow]
  change _ = x.raw.toInt.natAbs * Nat.pow 5 20 / Nat.pow 10 20
  rw [tens, Nat.mul_div_mul_right _ _ (by decide)]
  rfl

theorem negative_toFraction :
    x.toFraction.exactDecimal.negative = decide (x.raw < 0) := by
  have same : x.raw < 0 ↔ x.raw.toInt < 0 := Int32.lt_iff_toInt_lt
  exact decide_eq_decide.mpr same.symm

private theorem toList_sign :
    (if x.raw < 0 then "-" else "").toList = if x.raw < 0 then ['-'] else [] := by
  split <;> rfl

private theorem fractionText_eq :
    x.toFraction.exactDecimal.fractionText
      = '.' :: Decimal.lowDigits 20 (x.raw.toInt.natAbs * 5 ^ 20) := if_neg (Nat.succ_ne_zero 19)

/-- Long division writes the exact decimal. -/
theorem text_eq : x.text = x.toFraction.exactDecimal.text := by
  obtain ⟨-, -, small, count⟩ := expands x.fraction_lt 20
  have whole : (toString (x.magnitude >>> 20)).toList
      = Nat.toDigits 10 x.toFraction.exactDecimal.whole := by
    have written : toString (x.magnitude >>> 20) = toString (x.magnitude >>> 20).toNat := rfl
    rw [written, toNat_whole, Nat.toString_eq_ofList_toDigits, String.toList_ofList]
  have places := lowDigits_eq_map count small x.expand_fraction.2.symm
  apply String.toList_inj.mp
  rw [Decimal.toList_text, fractionText_eq, places, negative_toFraction]
  simp only [text, String.toList_append, toList_sign, whole, toList_join_digits small,
    List.append_assoc, decide_eq_true_eq]
  rfl

theorem ofText?_text : Decimal.ofText? x.text = some x.toFraction.exactDecimal := by
  rw [text_eq, Decimal.ofText?_text]

theorem value_toFraction : x.toFraction.exactDecimal.value = (x.raw.toInt : ℚ) / 2 ^ 20 :=
  x.toFraction.value_exactDecimal

variable {x} in
theorem eq_of_text_eq {y : FixWord} (same : y.text = x.text) : y = x := by
  have read := congrArg Decimal.ofText? same
  rw [ofText?_text, ofText?_text, Option.some.injEq] at read
  have values := congrArg Decimal.value read
  rw [value_toFraction, value_toFraction, div_left_inj' (by norm_num)] at values
  rw [FixWord.mk.injEq, ← Int32.toInt_inj]
  exact_mod_cast values

/-- The text of a fix word is its value in full: a sign exactly if the number is negative, an
integer part without leading zeros, a point and 20 digits, which read back as the value itself. No
two fix words are written alike. The long division that writes the digits comes out even after 20
rounds; each digit is at most 9, and no word in it exceeds 64 bits or becomes negative. -/
theorem text_exact :
    (∃ whole places : List Char,
      x.text.toList = (if x.raw < 0 then ['-'] else []) ++ whole ++ '.' :: places ∧
      Decimal.Numeral whole ∧ (∀ c ∈ places, c.isDigit) ∧ places.length = 20) ∧
    (∃ d, Decimal.ofText? x.text = some d ∧ d.value = (x.raw.toInt : ℚ) / 2 ^ 20) ∧
    (∀ y : FixWord, y.text = x.text → y = x) ∧
    (expand x.fraction 20).2 = 0 ∧
    (∀ digit ∈ (expand x.fraction 20).1, digit ≤ 9) ∧
    ∀ round < 20, let left := (expand x.fraction round).2
      left.toNat * 10 < 2 ^ 64 ∧ (nextDigit left).toNat * 2 ^ 20 ≤ left.toNat * 10 := by
  refine ⟨?_, ⟨_, x.ofText?_text, x.value_toFraction⟩, fun y same => eq_of_text_eq same,
    x.expand_fraction.1, ?_, ?_⟩
  · refine ⟨Nat.toDigits 10 x.toFraction.exactDecimal.whole,
      Decimal.lowDigits 20 (x.raw.toInt.natAbs * 5 ^ 20), ?_, Decimal.numeral_toDigits _, ?_,
      Decimal.length_lowDigits _ _⟩
    · simp only [text_eq, Decimal.toList_text, fractionText_eq, negative_toFraction,
        List.append_assoc, decide_eq_true_eq]
    · intro c member
      exact Decimal.isDigit_of_mem_lowDigits member
  · intro digit member
    exact UInt64.le_iff_toNat_le.mpr ((expands x.fraction_lt 20).digits digit member)
  · intro round _ left
    have below : left.toNat < 2 ^ 20 := (expands x.fraction_lt round).below
    have digit := (round_exact below).1
    omega

/-- The smallest fix word, whose absolute value is no fix word. -/
example : (FixWord.mk (-2147483648)).text = "-2048.00000000000000000000" := by cbv

end TypesetKernel.FixWord
