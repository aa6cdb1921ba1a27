import Mathlib.Algebra.Order.Ring.Nat
import Mathlib.Tactic.FieldSimp
import TypesetKernel.BinaryFraction
import TypesetKernel.Proofs.BinaryFraction.Binary64
import TypesetKernel.Proofs.Decimal

/-!
The shortest decimal that reads back. The test of a decimal in whole numbers tells exactly whether
it rounds to the binary64 value (`readsBack_iff`). Numbers between a decimal that does and the value
do as well, so on each grid it suffices to test the neighbours of the value. The first grid on which
one is found has the fewest places possible, and what is taken on it is the nearest of all decimals
with as many places that read back (`shortest_spec`).
-/

namespace TypesetKernel

namespace Decimal

variable {d : Decimal} {x : Binary64}

/-- The decimal with the other sign. -/
def neg (d : Decimal) : Decimal := { d with negative := !d.negative }

theorem value_neg (d : Decimal) : d.neg.value = -d.value := by
  obtain ⟨negative, digits, places⟩ := d
  cases negative <;> simp [neg, value, neg_div]

/-- The decimal rounds to the value, none with fewer places does, and of those with as many places
it is the nearest. -/
structure ShortestOf (d : Decimal) (x : Binary64) : Prop where
  reads : x.RoundsTo d.value
  fewest : ∀ e : Decimal, x.RoundsTo e.value → d.places ≤ e.places
  nearest : ∀ e : Decimal, x.RoundsTo e.value → e.places = d.places →
    |d.value - x.value| ≤ |e.value - x.value|

theorem shortestOf_zero : ShortestOf { negative := false, digits := 0, places := 0 } .zero where
  reads := by
    have itself := Binary64.zero.roundsTo_value
    simpa [value] using itself
  fewest := fun _ _ => Nat.zero_le _
  nearest := by
    intro e _ _
    simp [value]

theorem ShortestOf.neg (shortest : d.ShortestOf x) : d.neg.ShortestOf x.neg where
  reads := by
    rw [value_neg]
    exact shortest.reads.neg
  fewest := by
    intro e reads
    have back := reads.neg
    rw [← value_neg, Binary64.neg_neg] at back
    exact shortest.fewest e.neg back
  nearest := by
    intro e reads places
    have back := reads.neg
    rw [← value_neg, Binary64.neg_neg] at back
    have nearer := shortest.nearest e.neg back places
    rw [value_neg] at nearer ⊢
    rw [Binary64.value_neg, ← neg_sub', abs_neg, sub_neg_eq_add, ← abs_neg (e.value + x.value)]
    rwa [neg_add']

end Decimal

namespace BinaryFraction

/-! ## The binary64 value -/

/-- A positive fraction within the range of binary64 numbers. -/
structure Exact (numerator places : Nat) : Prop where
  positive : 0 < numerator
  small : numerator < 2 ^ 53
  range : places ≤ 1021

variable {numerator places digits decimals : Nat}

/-- Shifted up as far as there is room, a numerator is a significand of full length. -/
theorem Exact.shifted (exact : Exact numerator places) :
    2 ^ 52 ≤ numerator * 2 ^ headroom numerator ∧ numerator * 2 ^ headroom numerator < 2 ^ 53 := by
  have nonzero := exact.positive.ne'
  have bits : numerator.log2 < 53 := (Nat.log2_lt nonzero).mpr exact.small
  have full : numerator.log2 + headroom numerator = 52 := by
    unfold headroom
    omega
  constructor
  · calc 2 ^ 52 = 2 ^ numerator.log2 * 2 ^ headroom numerator := by rw [← pow_add, full]
      _ ≤ numerator * 2 ^ headroom numerator :=
        Nat.mul_le_mul_right _ (Nat.log2_self_le nonzero)
  · calc numerator * 2 ^ headroom numerator
        < 2 ^ (numerator.log2 + 1) * 2 ^ headroom numerator :=
          Nat.mul_lt_mul_of_pos_right Nat.lt_log2_self (by positivity)
      _ = 2 ^ 53 := by rw [← pow_add, Nat.add_right_comm, full]

theorem headroom_le (numerator : Nat) : headroom numerator ≤ 52 := Nat.sub_le _ _

theorem headroom_pos (small : numerator < 2 ^ 52) : 0 < headroom numerator := by
  by_cases zero : numerator = 0
  · rw [zero]
    decide
  · exact Nat.sub_pos_of_lt ((Nat.log2_lt zero).mpr small)

/-- The fraction as a binary64 value. -/
def Exact.double (exact : Exact numerator places) : Binary64 where
  significand := (numerator * 2 ^ headroom numerator : Nat)
  exponent := -(places + headroom numerator : Nat)
  bits := by
    have high := exact.shifted.2
    rw [Nat.abs_cast]
    exact_mod_cast high
  least := by
    have range := exact.range
    have room := headroom_le numerator
    omega
  most := by omega
  full := by
    have low := exact.shifted.1
    rw [Nat.abs_cast]
    exact .inl (by exact_mod_cast low)

theorem Exact.inner (exact : Exact numerator places) : exact.double.Inner where
  normal := by
    have low := exact.shifted.1
    change (2 ^ 52 : Int) ≤ (numerator * 2 ^ headroom numerator : Nat)
    exact_mod_cast low
  above := by
    have range := exact.range
    have room := headroom_le numerator
    change -1074 < -((places + headroom numerator : Nat) : Int)
    omega
  below := by
    change -((places + headroom numerator : Nat) : Int) < 971
    omega

theorem Exact.unit_double (exact : Exact numerator places) :
    exact.double.unit = 1 / (2 ^ places * 2 ^ headroom numerator) := by
  change (2 : ℚ) ^ (-((places + headroom numerator : Nat) : Int)) = _
  rw [zpow_neg, zpow_natCast, pow_add, one_div]

/-- In whole numbers of a unit common to the binary and the decimal grid. -/
theorem Exact.unit_mul (exact : Exact numerator places) (decimals : Nat) :
    exact.double.unit * (2 ^ places * 2 ^ headroom numerator * 10 ^ decimals)
      = (10 ^ decimals : Nat) := by
  rw [exact.unit_double, Nat.cast_pow]
  field_simp
  rfl

theorem Exact.value_double (exact : Exact numerator places) :
    exact.double.value = numerator / 2 ^ places := by
  have room : (2 : ℚ) ^ headroom numerator ≠ 0 := pow_ne_zero _ two_ne_zero
  rw [Binary64.value_eq, exact.unit_double, mul_one_div]
  change ((numerator * 2 ^ headroom numerator : Nat) : ℚ) / _ = _
  push_cast
  exact mul_div_mul_right _ _ room

/-! ## Reading back -/

/-- A decimal that is the value itself reads back. -/
theorem readsBack_of_eq (same : numerator * 10 ^ decimals = digits * 2 ^ places) :
    readsBack numerator places digits decimals := by
  have reach : 0 < 10 ^ decimals := by positivity
  simp only [readsBack, Nat.shiftLeft_eq, Nat.pow_eq, same, Nat.le_refl, if_true, Nat.sub_self,
    Nat.zero_mul]
  exact decide_eq_true (.inl reach)

section ReadsBack

variable (exact : Exact numerator places)

theorem even_significand_double : Even exact.double.significand ↔
    numerator * 2 ^ headroom numerator % 2 = 0 := by
  rw [← Nat.even_iff]
  exact Int.even_coe_nat _

/-- Distances and gaps are compared in whole numbers of any unit. -/
theorem within_double_iff {distance gap scale : ℚ} {off reach : Nat} (positive : 0 < scale)
    (offset : 2 * distance * scale = off) (gapped : gap * scale = reach) :
    exact.double.Within distance gap ↔
      off < reach ∨ off = reach ∧ numerator * 2 ^ headroom numerator % 2 = 0 := by
  rw [Binary64.Within, even_significand_double, ← mul_lt_mul_iff_of_pos_right positive,
    ← mul_left_inj' positive.ne', offset, gapped, Nat.cast_lt, Nat.cast_inj]

theorem value_double_le_iff : exact.double.value ≤ digits / 10 ^ decimals ↔
    numerator * 10 ^ decimals ≤ digits * 2 ^ places := by
  have binary : (0 : ℚ) < 2 ^ places := by positivity
  have tens : (0 : ℚ) < 10 ^ decimals := by positivity
  rw [exact.value_double, div_le_div_iff₀ binary tens]
  exact_mod_cast Iff.rfl

/-- The test compares the distance with half of the gap on the side where the decimal lies. -/
theorem readsBack_iff : readsBack numerator places digits decimals ↔
    exact.double.RoundsTo (digits / 10 ^ decimals) := by
  have scale : (0 : ℚ) < 2 ^ places * 2 ^ headroom numerator * 10 ^ decimals := by positivity
  simp only [readsBack, Nat.shiftLeft_eq, one_mul, Nat.pow_eq]
  by_cases above : numerator * 10 ^ decimals ≤ digits * 2 ^ places
  · rw [if_pos above, decide_eq_true_iff,
      Binary64.roundsTo_iff_of_le exact.inner ((value_double_le_iff exact).mpr above)]
    refine (within_double_iff exact scale ?_ ?_).symm
    · rw [exact.value_double, Nat.cast_mul, Nat.cast_sub above]
      push_cast
      field_simp
    · exact exact.unit_mul decimals
  · have below := not_le.mp (mt (value_double_le_iff exact).mp above)
    rw [if_neg above, decide_eq_true_iff, Binary64.roundsTo_iff_of_lt exact.inner below]
    have distance := Nat.cast_sub (R := ℚ) (not_le.mp above).le
    by_cases narrow : numerator * 2 ^ headroom numerator = 2 ^ 52
    · -- Below a power of two the gap is half as wide, so distances are counted in half units.
      have first : exact.double.significand = 2 ^ 52 := congrArg Nat.cast narrow
      rw [if_pos narrow, Binary64.gapBelow, if_pos first]
      refine (within_double_iff exact (mul_pos scale two_pos) ?_ ?_).symm
      · rw [exact.value_double, Nat.cast_mul, distance]
        push_cast
        field_simp
        ring
      · rw [div_mul_eq_mul_div, ← mul_assoc, mul_div_cancel_right₀ _ two_ne_zero, exact.unit_mul]
    · have later : exact.double.significand ≠ 2 ^ 52 := fun same => narrow (Int.ofNat_inj.mp same)
      rw [if_neg narrow, Binary64.gapBelow, if_neg later]
      refine (within_double_iff exact scale ?_ ?_).symm
      · rw [exact.value_double, Nat.cast_mul, distance]
        push_cast
        field_simp
      · exact exact.unit_mul decimals

end ReadsBack

/-! ## The search -/

/-- A search along a range finds what belongs to the least index. -/
theorem least_of_findSome?_range {α : Type} {f : Nat → Option α} {count : Nat} {a : α}
    (found : (List.range count).findSome? f = some a) :
    ∃ i, f i = some a ∧ ∀ j < i, f j = none := by
  obtain ⟨before, i, after, split, here, none⟩ := List.findSome?_eq_some_iff.mp found
  rw [List.range_eq_range'] at split
  obtain ⟨length, -, rfl, rest⟩ := List.range'_eq_append_iff.mp split
  obtain ⟨rfl, -⟩ := List.range'_eq_cons_iff.mp rest.symm
  exact ⟨_, here, fun j lower => none j (List.mem_range'_1.mpr (by omega))⟩

/-- The neighbour of the value that is not above it, on the grid with the given number of decimals.
-/
def below (numerator places decimals : Nat) : Nat := numerator * 10 ^ decimals / 2 ^ places

/-- The distance of the value from its neighbour below, in fractions of the grid. -/
def rest (numerator places decimals : Nat) : Nat := numerator * 10 ^ decimals % 2 ^ places

theorem isSome_nearest?_iff : (nearest? numerator places decimals).isSome ↔
    readsBack numerator places (below numerator places decimals) decimals ∨
      readsBack numerator places (below numerator places decimals + 1) decimals := by
  simp only [nearest?, Nat.one_shiftLeft, Nat.pow_eq, below]
  split <;> simp [*]

/-- Of the neighbours that read back, the nearer one is taken. -/
theorem nearest?_eq_some (found : nearest? numerator places decimals = some digits) :
    readsBack numerator places digits decimals ∧
      (digits = below numerator places decimals ∧
          (readsBack numerator places (below numerator places decimals + 1) decimals →
            2 * rest numerator places decimals ≤ 2 ^ places) ∨
        digits = below numerator places decimals + 1 ∧
          (readsBack numerator places (below numerator places decimals) decimals →
            2 ^ places ≤ 2 * rest numerator places decimals)) := by
  simp only [nearest?, Nat.one_shiftLeft, Nat.pow_eq] at found
  split at found
  case h_1 low high =>
    split at found
    case isTrue nearer =>
      cases found
      exact ⟨low, .inl ⟨rfl, fun _ => nearer.le⟩⟩
    case isFalse nearer =>
      cases found
      exact ⟨high, .inr ⟨rfl, fun _ => not_lt.mp nearer⟩⟩
  case h_2 low high =>
    cases found
    exact ⟨low, .inl ⟨rfl, fun reads => absurd reads (by simp [below, high])⟩⟩
  case h_3 low high =>
    cases found
    exact ⟨high, .inr ⟨rfl, fun reads => absurd reads (by simp [below, low])⟩⟩
  case h_4 => cases found

theorem grid_mono {i j : Nat} (le : i ≤ j) (decimals : Nat) :
    (i / 10 ^ decimals : ℚ) ≤ j / 10 ^ decimals :=
  div_le_div_of_nonneg_right (by exact_mod_cast le) (by positivity)

section Search

variable (exact : Exact numerator places)

theorem below_le_double (decimals : Nat) :
    below numerator places decimals / 10 ^ decimals ≤ exact.double.value := by
  have binary : (0 : ℚ) < 2 ^ places := by positivity
  have tens : (0 : ℚ) < 10 ^ decimals := by positivity
  rw [exact.value_double, div_le_div_iff₀ tens binary]
  exact_mod_cast Nat.div_mul_le_self _ _

theorem double_le_above (decimals : Nat) :
    exact.double.value ≤ (below numerator places decimals + 1 : Nat) / 10 ^ decimals := by
  have binary : 0 < 2 ^ places := by positivity
  refine (value_double_le_iff exact).mpr ?_
  exact (Nat.lt_div_mul_add binary).le.trans_eq (Nat.succ_mul _ _).symm

include exact in
theorem readsBack_below (reads : readsBack numerator places digits decimals)
    (low : digits ≤ below numerator places decimals) :
    readsBack numerator places (below numerator places decimals) decimals := by
  rw [readsBack_iff exact] at reads ⊢
  exact reads.between (.inl ⟨grid_mono low decimals, below_le_double exact decimals⟩)

include exact in
theorem readsBack_above (reads : readsBack numerator places digits decimals)
    (high : below numerator places decimals < digits) :
    readsBack numerator places (below numerator places decimals + 1) decimals := by
  rw [readsBack_iff exact] at reads ⊢
  exact reads.between (.inr ⟨double_le_above exact decimals, grid_mono high decimals⟩)

include exact in
/-- Of the decimals on a grid that read back, one is next to the value. -/
theorem isSome_nearest? (reads : readsBack numerator places digits decimals) :
    (nearest? numerator places decimals).isSome := by
  rw [isSome_nearest?_iff]
  by_cases low : digits ≤ below numerator places decimals
  · exact .inl (readsBack_below exact reads low)
  · exact .inr (readsBack_above exact reads (not_le.mp low))

/-- How far the two neighbours are. -/
theorem sub_below (decimals : Nat) :
    exact.double.value - below numerator places decimals / 10 ^ decimals
      = rest numerator places decimals / (2 ^ places * 10 ^ decimals) ∧
    (below numerator places decimals + 1 : Nat) / 10 ^ decimals - exact.double.value
      = (2 ^ places - rest numerator places decimals) / (2 ^ places * 10 ^ decimals) := by
  have whole : (numerator * 10 ^ decimals : ℚ)
      = 2 ^ places * below numerator places decimals + rest numerator places decimals := by
    exact_mod_cast (Nat.div_add_mod (numerator * 10 ^ decimals) (2 ^ places)).symm
  rw [exact.value_double]
  constructor
  · field_simp
    linarith
  · push_cast
    field_simp
    linarith

theorem below_nearer (half : 2 * rest numerator places decimals ≤ 2 ^ places) :
    exact.double.value - below numerator places decimals / 10 ^ decimals
      ≤ (below numerator places decimals + 1 : Nat) / 10 ^ decimals - exact.double.value := by
  have cast : (2 * rest numerator places decimals : ℚ) ≤ 2 ^ places := by exact_mod_cast half
  obtain ⟨lower, upper⟩ := sub_below exact decimals
  rw [lower, upper]
  exact div_le_div_of_nonneg_right (by linarith) (by positivity)

theorem above_nearer (half : 2 ^ places ≤ 2 * rest numerator places decimals) :
    (below numerator places decimals + 1 : Nat) / 10 ^ decimals - exact.double.value
      ≤ exact.double.value - below numerator places decimals / 10 ^ decimals := by
  have cast : (2 ^ places : ℚ) ≤ 2 * rest numerator places decimals := by exact_mod_cast half
  obtain ⟨lower, upper⟩ := sub_below exact decimals
  rw [lower, upper]
  exact div_le_div_of_nonneg_right (by linarith) (by positivity)

/-- Whatever reads back lies no nearer than the neighbour on its side, which reads back as well. -/
theorem nearest?_nearest (found : nearest? numerator places decimals = some digits) {others : Nat}
    (reads : readsBack numerator places others decimals) :
    |digits / 10 ^ decimals - exact.double.value|
      ≤ |others / 10 ^ decimals - exact.double.value| := by
  obtain ⟨-, choice⟩ := nearest?_eq_some found
  have low := below_le_double exact decimals
  have high := double_le_above exact decimals
  by_cases side : others ≤ below numerator places decimals
  · have far := grid_mono side decimals
    rw [abs_of_nonpos (show others / 10 ^ decimals - exact.double.value ≤ 0 by linarith)]
    rcases choice with ⟨rfl, -⟩ | ⟨rfl, tie⟩
    · rw [abs_of_nonpos (by linarith)]
      linarith
    · have nearer := above_nearer exact (tie (readsBack_below exact reads side))
      rw [abs_of_nonneg (by linarith)]
      linarith
  · have far := grid_mono (not_le.mp side) decimals
    rw [abs_of_nonneg (show 0 ≤ others / 10 ^ decimals - exact.double.value by linarith)]
    rcases choice with ⟨rfl, tie⟩ | ⟨rfl, -⟩
    · have nearer := below_nearer exact (tie (readsBack_above exact reads (not_le.mp side)))
      rw [abs_of_nonpos (by linarith)]
      linarith
    · rw [abs_of_nonneg (by linarith)]
      linarith

/-- The grid with as many decimals as there are binary places holds the value. -/
theorem readsBack_last (numerator places : Nat) :
    readsBack numerator places (numerator * 5 ^ places) places := by
  refine readsBack_of_eq ?_
  rw [Nat.mul_assoc, ← Nat.mul_pow]

theorem shortestDigits_spec :
    let (digits, decimals) := shortestDigits numerator places
    readsBack numerator places digits decimals ∧
      ∀ others fewer, readsBack numerator places others fewer → decimals ≤ fewer ∧
        (fewer = decimals → |digits / 10 ^ decimals - exact.double.value|
          ≤ |others / 10 ^ decimals - exact.double.value|) := by
  unfold shortestDigits
  cases search : (List.range (places + 1)).findSome? fun decimals =>
      (nearest? numerator places decimals).map (·, decimals) with
  | none =>
    -- The search cannot come to nothing, since the last grid holds the value itself.
    have missing := List.findSome?_eq_none_iff.mp search places (by simp)
    have last := isSome_nearest? exact (readsBack_last numerator places)
    rw [Option.map_eq_none_iff.mp missing] at last
    cases last
  | some found =>
    obtain ⟨decimals, here, none⟩ := least_of_findSome?_range search
    obtain ⟨digits, nearest, rfl⟩ := Option.map_eq_some_iff.mp here
    refine ⟨(nearest?_eq_some nearest).1, fun others fewer reads => ⟨?_, ?_⟩⟩
    · by_contra less
      have missing := Option.map_eq_none_iff.mp (none fewer (not_le.mp less))
      have there := isSome_nearest? exact reads
      rw [missing] at there
      cases there
    · rintro rfl
      exact nearest?_nearest exact nearest reads

end Search

/-! ## The shortest decimal -/

/-- A decimal that rounds to a positive value has no sign. -/
theorem readsBack_of_roundsTo (exact : Exact numerator places) {e : Decimal}
    (rounds : exact.double.RoundsTo e.value) :
    e.value = e.digits / 10 ^ e.places ∧ readsBack numerator places e.digits e.places := by
  have positive : 0 < exact.double.value := by
    have numerator_pos := exact.positive
    rw [exact.value_double]
    positivity
  have above := rounds.pos positive
  have unsigned : e.value = e.digits / 10 ^ e.places := by
    cases sign : e.negative with
    | true =>
      have below : e.value ≤ 0 := by
        simp only [Decimal.value, sign, if_true, neg_mul, one_mul, neg_div, neg_nonpos]
        positivity
      exact absurd above below.not_gt
    | false => simp [Decimal.value, sign]
  rw [unsigned] at rounds
  exact ⟨unsigned, (readsBack_iff exact).mpr rounds⟩

theorem shortestOf_double (exact : Exact numerator places) :
    (shortest { numerator, places }).ShortestOf exact.double := by
  obtain ⟨reads, best⟩ := shortestDigits_spec exact
  have unsigned : ¬(numerator : Int) < 0 := by omega
  have value : (shortest { numerator, places }).value
      = (shortestDigits numerator places).1 / 10 ^ (shortestDigits numerator places).2 := by
    simp [shortest, Decimal.value, unsigned]
  constructor
  · rw [value]
    exact (readsBack_iff exact).mp reads
  · intro e rounds
    obtain ⟨-, back⟩ := readsBack_of_roundsTo exact rounds
    exact (best _ _ back).1
  · intro e rounds same
    obtain ⟨shown, back⟩ := readsBack_of_roundsTo exact rounds
    rw [value, shown, same]
    exact (best _ _ back).2 same

/-- A grid that holds the value gives it. -/
theorem nearest?_of_eq (same : numerator * 10 ^ decimals = digits * 2 ^ places) :
    nearest? numerator places decimals = some digits := by
  have binary : 0 < 2 ^ places := by positivity
  have below : numerator * 10 ^ decimals / 2 ^ places = digits := by
    rw [same, Nat.mul_div_cancel _ binary]
  have rest : numerator * 10 ^ decimals % 2 ^ places = 0 := by
    rw [same, Nat.mul_mod_left]
  simp only [nearest?, Nat.one_shiftLeft, Nat.pow_eq, below, rest, readsBack_of_eq same]
  cases readsBack numerator places (digits + 1) decimals with
  | true => simp only [Nat.mul_zero, if_pos binary]
  | false => rfl

/-- A whole number is its own shortest decimal. -/
theorem shortestDigits_of_whole (whole : numerator = digits * 2 ^ places) :
    shortestDigits numerator places = (digits, 0) := by
  have first : nearest? numerator places 0 = some digits :=
    nearest?_of_eq (by rw [pow_zero, Nat.mul_one, whole])
  rw [shortestDigits, List.range_succ_eq_map, List.findSome?_cons, first]
  rfl

theorem shortest_zero (places : Nat) :
    shortest { numerator := 0, places } = { negative := false, digits := 0, places := 0 } := by
  have zero : shortestDigits 0 places = (0, 0) := shortestDigits_of_whole (Nat.zero_mul _).symm
  simp [shortest, zero]

theorem shortest_neg (positive : 0 < numerator) :
    shortest { numerator := -numerator, places } = (shortest { numerator, places }).neg := by
  have unsigned : ¬(numerator : Int) < 0 := by omega
  simp [shortest, Decimal.neg, unsigned, positive]

theorem abs_shortest_sub_le (exact : Exact numerator places) :
    |(shortest { numerator, places }).value - exact.double.value|
      ≤ 1 / (2 ^ places * 2 ^ headroom numerator) / 2 := by
  rw [← exact.unit_double]
  exact (shortestOf_double exact).reads.abs_sub_le exact.inner

/-- A fraction within the range of binary64 numbers is one of them. Its shortest decimal rounds to
it, with the fewest places possible and as near as they allow, and lies within half a unit in the
last place. -/
theorem shortest_spec {x : BinaryFraction} (small : x.numerator.natAbs < 2 ^ 53)
    (range : x.places ≤ 1021) :
    ∃ y : Binary64, y.value = x.value ∧ x.shortest.ShortestOf y ∧
      |x.shortest.value - x.value|
        ≤ 1 / (2 ^ x.places * 2 ^ headroom x.numerator.natAbs) / 2 := by
  obtain ⟨numerator, places⟩ := x
  obtain ⟨n, sign⟩ := numerator.eq_nat_or_neg
  rcases Nat.eq_zero_or_pos n with rfl | positive
  · obtain rfl : numerator = 0 := by omega
    rw [shortest_zero]
    refine ⟨.zero, ?_, Decimal.shortestOf_zero, ?_⟩
    · simp [value]
    · simp only [value, Decimal.value]
      norm_num
      positivity
  · rcases sign with rfl | rfl
    · have exact : Exact n places := ⟨positive, small, range⟩
      have close := abs_shortest_sub_le exact
      have same : exact.double.value = value { numerator := n, places } := by
        simp [value, exact.value_double]
      rw [same] at close
      exact ⟨exact.double, same, shortestOf_double exact, close⟩
    · have exact : Exact n places := ⟨positive, by simpa using small, range⟩
      have close := abs_shortest_sub_le exact
      have same : exact.double.neg.value = value { numerator := -n, places } := by
        simp [value, exact.value_double, neg_div]
      refine ⟨exact.double.neg, same, ?_, ?_⟩
      · rw [shortest_neg positive]
        exact (shortestOf_double exact).neg
      · rw [shortest_neg positive, ← same, Decimal.value_neg, Binary64.value_neg, ← neg_sub',
          abs_neg, Int.natAbs_neg]
        exact close

end BinaryFraction

end TypesetKernel
