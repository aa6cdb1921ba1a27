import Mathlib.Algebra.Order.Field.Rat
import Mathlib.Tactic.Linarith
import TypesetKernel.Proofs.FontMetrics.Decode
import TypesetKernel.Proofs.FontTable.Loads
import TypesetKernel.Proofs.Scaled

/-!
Sizes of fonts and dimensions of characters at these sizes. The design size and its multiples keep
within the allowed range, but a size that is asked for outright is taken as it is, so the range is
kept exactly when no larger size is asked for (`size_allowed_iff`). At an allowed size a dimension
of a character is exact as long as the product fits into the bits of a dimension, and reduced to
these bits otherwise (`scaledDimensions_multiple`).

A negative request asks for so many thousandths of the design size. The design size is rounded down
to scaled points, the multiple is rounded toward zero and then kept within the allowed range; each
of these steps keeps the order, so a larger magnification never makes a font smaller, and the two
roundings together cost less than one scaled point and one for each thousand thousandths
(`sizeOf_magnified`).
-/

namespace TypesetKernel

/-- The first font of a table. -/
theorem FontTable.exists_load_empty (request : FontRequest) {source : FontSource} {bs : Bytes}
    {metrics : FontMetrics} (read : source.read request.file = .ok bs)
    (decodes : FontMetrics.ofBytes bs = .ok metrics) :
    ∃ t, FontTable.empty.load source request = .ok (1, t) ∧
      t.font? 1 = some { request with metrics } := by
  have known : FontTable.empty.metricsOf source request.file = .ok metrics :=
    metricsOf_eq_ok_iff.mpr (.inr ⟨rfl, by rw [read]; exact decodes⟩)
  have loaded : ∃ t, FontTable.empty.load source request = .ok (1, t) := by
    unfold load
    rw [known]
    exact ⟨_, rfl⟩
  obtain ⟨t, loaded⟩ := loaded
  obtain ⟨found, same, fonts⟩ := font?_load loaded
  rw [known] at same
  cases same
  exact ⟨t, loaded, by rw [fonts]; rfl⟩

namespace Font

/-! ## Sizes -/

/-- No design size reaches the largest dimension. -/
theorem allowed_designSize (designSize : FixWord) :
    Scaled.Allowed ⟨designSize.toScaledPoints⟩ := by
  have limit := Scaled.toInt_largest
  have points := designSize.toInt_toScaledPoints
  have low := designSize.raw.le_toInt
  have high := designSize.raw.toInt_lt
  exact ⟨by dsimp only; omega, by dsimp only; omega⟩

/-- The size of a font is within the allowed range if and only if the size that was asked for is at
most the largest dimension. -/
theorem size_allowed_iff (f : Font) :
    f.size.Allowed ↔ f.atSize.toInt ≤ Scaled.largest.sp.toInt := by
  have limit := Scaled.toInt_largest
  have zero : f.atSize = 0 ↔ f.atSize.toInt = 0 := Int32.toInt_inj.symm
  have positive : 0 < f.atSize ↔ 0 < f.atSize.toInt := Int32.lt_iff_toInt_lt
  unfold size sizeOf
  dsimp only
  by_cases design : f.atSize = 0
  · have none := zero.mp design
    rw [if_pos design]
    exact iff_of_true (allowed_designSize _) (by omega)
  by_cases asked : 0 < f.atSize
  · have above := positive.mp asked
    rw [if_neg design, if_pos asked]
    exact ⟨fun allowed => allowed.2, fun bounded => ⟨by dsimp only; omega, bounded⟩⟩
  · have below := mt positive.mpr asked
    rw [if_neg design, if_neg asked]
    exact iff_of_true (Scaled.allowed_clamped _) (by omega)

/-- A font that is asked for at 16384 points, one scaled point more than is allowed. -/
theorem size_above_largest :
    let file : Bytes := [0, 6, 0, 0, 0, 1] ++ List.replicate 18 0
    let source := MemoryFonts.source ⟨[("plain", file)]⟩
    let request : FontRequest := ⟨"plain", "huge", 0x40000000⟩
    ∃ t f, FontTable.empty.load source request = .ok (1, t) ∧
      t.font? 1 = some f ∧ f.size.sp.toInt = Scaled.largest.sp.toInt + 1 := by
  intro file source request
  have decodes : FontMetrics.ofBytes file = .ok (.stated file) :=
    FontMetrics.ofBytes_eq_ok_iff.mpr ⟨by decide, rfl⟩
  have read : source.read request.file = .ok file := by simp [source, request, MemoryFonts.source]
  obtain ⟨t, loaded, font⟩ := FontTable.exists_load_empty request read decodes
  exact ⟨t, _, loaded, font, by decide⟩

/-! ## Dimensions of characters -/

/-- At an allowed size, every dimension of a character is a multiple of the size. -/
theorem scaledDimensions_multiple {f : Font} {code : UInt8} {d : CharDimensions}
    (found : f.metrics.dimensions? code = some d) (allowed : f.size.Allowed) :
    ∃ width height depth italic,
      f.scaledDimensions? code = some (width, height, depth, italic) ∧
      f.size.Multiple d.width width ∧ f.size.Multiple d.height height ∧
      f.size.Multiple d.depth depth ∧ f.size.Multiple d.italicCorrection italic := by
  have scaled : f.scaledDimensions? code = some (f.size.scale d.width, f.size.scale d.height,
      f.size.scale d.depth, f.size.scale d.italicCorrection) := by
    rw [scaledDimensions?, found]
    rfl
  exact ⟨_, _, _, _, scaled, Scaled.multiple_scale allowed _, Scaled.multiple_scale allowed _,
    Scaled.multiple_scale allowed _, Scaled.multiple_scale allowed _⟩

/-- A character a quarter as wide as its font is large, with the least depth below zero. -/
theorem scaledDimensions_multiple_quarter :
    let file : Bytes := [0, 10, 0, 0, 0, 65, 0, 65, 0, 2, 0, 0, 0, 1, 0, 0, 0, 0, 0, 0, 0, 0, 0, 0,
      1, 0, 0, 0, 0, 0, 0, 0, 0, 4, 0, 0, 0xFF, 0xFF, 0xFF, 0xFF]
    let f : Font := { file := "plain", name := "ten", atSize := 0xA0000, metrics := .stated file }
    let d : CharDimensions := ⟨⟨0x40000⟩, .zero, ⟨-1⟩, .zero⟩
    FontMetrics.ofBytes file = .ok f.metrics ∧ f.metrics.dimensions? 65 = some d ∧
      f.size.Allowed ∧ ∃ width height depth italic,
        f.scaledDimensions? 65 = some (width, height, depth, italic) ∧
        width.sp.toInt = 0x28000 ∧ depth.sp.toInt = -1 := by
  intro file f d
  have decodes : FontMetrics.ofBytes file = .ok f.metrics :=
    FontMetrics.ofBytes_eq_ok_iff.mpr ⟨by decide, rfl⟩
  have found : f.metrics.dimensions? 65 = some d := by decide
  have allowed : f.size.Allowed := by decide
  obtain ⟨width, height, depth, italic, scaled, wide, -, deep, -⟩ :=
    scaledDimensions_multiple found allowed
  have quarter := wide.exact_of_small (by decide) (by decide)
  have least := deep.exact_of_small (by decide) (by decide)
  exact ⟨decodes, found, allowed, width, height, depth, italic, scaled,
    quarter.trans (by decide), least.trans (by decide)⟩

/-- A character that is four times as wide as its font is large, at a size of 8192 points: the width
comes out as the lowest dimension there is. -/
theorem scaledDimensions_wrap :
    let file : Bytes := [0, 9, 0, 0, 0, 65, 0, 65, 0, 2, 0, 0, 0, 0, 0, 0, 0, 0, 0, 0, 0, 0, 0, 0,
      1, 0, 0, 0, 0, 0, 0, 0, 0, 64, 0, 0]
    let source := MemoryFonts.source ⟨[("wide", file)]⟩
    let request : FontRequest := ⟨"wide", "wide", 0x20000000⟩
    ∃ t f d, FontTable.empty.load source request = .ok (1, t) ∧ t.font? 1 = some f ∧
      f.size.Allowed ∧ f.metrics.dimensions? 65 = some d ∧
      f.size.sp.toInt * d.width.raw.toInt / 2 ^ 20 = 2 ^ 31 ∧
      ∃ width others, f.scaledDimensions? 65 = some (width, others) ∧
        width.sp.toInt = -2 ^ 31 := by
  intro file source request
  have decodes : FontMetrics.ofBytes file = .ok (.stated file) :=
    FontMetrics.ofBytes_eq_ok_iff.mpr ⟨by decide, rfl⟩
  have read : source.read request.file = .ok file := by simp [source, request, MemoryFonts.source]
  obtain ⟨t, loaded, font⟩ := FontTable.exists_load_empty request read decodes
  exact ⟨t, _, ⟨⟨0x400000⟩, .zero, .zero, .zero⟩, loaded, font, by decide, by decide, by decide,
    _, _, rfl, by decide⟩

end Font

/-! ## Magnification -/

namespace Scaled

theorem toInt_clamped_mono {n m : Int} (le : n ≤ m) :
    (clamped n).sp.toInt ≤ (clamped m).sp.toInt := by
  rw [toInt_clamped, toInt_clamped]
  omega

theorem abs_toInt_clamped {n : Int} (outside : largest.sp.toInt < |n|) :
    |(clamped n).sp.toInt| = largest.sp.toInt := by
  have limit := toInt_largest
  rw [Int.abs_eq_natAbs] at outside ⊢
  rw [toInt_clamped]
  omega

end Scaled

namespace Font

variable {designSize : FixWord} {atSize : Int32}

/-- The multiple of the design size that is asked for, rounded toward zero. -/
def multiple (designSize : FixWord) (atSize : Int32) : Int :=
  (designSize.toScaledPoints.toInt * -atSize.toInt).tdiv 1000

/-- The multiple is out of the allowed range. -/
def Saturated (designSize : FixWord) (atSize : Int32) : Prop :=
  Scaled.largest.sp.toInt < |multiple designSize atSize|

instance (designSize : FixWord) (atSize : Int32) : Decidable (Saturated designSize atSize) :=
  inferInstanceAs (Decidable (_ < _))

theorem toInt_sizeOf_zero (designSize : FixWord) :
    (sizeOf designSize 0).sp.toInt = designSize.toScaledPoints.toInt := rfl

theorem sizeOf_of_neg (magnified : atSize < 0) :
    sizeOf designSize atSize = Scaled.clamped (multiple designSize atSize) := by
  have below : atSize.toInt < 0 := Int32.lt_iff_toInt_lt.mp magnified
  have notZero : atSize ≠ 0 := by
    rintro rfl
    exact Int.lt_irrefl _ below
  have notPositive : ¬ 0 < atSize := fun positive =>
    Int.lt_asymm below (Int32.lt_iff_toInt_lt.mp positive)
  rw [sizeOf, if_neg notZero, if_neg notPositive, multiple]

/-- A whole multiple needs no rounding. -/
theorem multiple_of_whole {k : Int} (whole : -atSize.toInt = 1000 * k) :
    multiple designSize atSize = k * (sizeOf designSize 0).sp.toInt := by
  rw [multiple, whole, toInt_sizeOf_zero, Int.mul_left_comm, Int.mul_comm 1000,
    Int.mul_tdiv_cancel _ (by decide), Int.mul_comm]

/-- A thousand thousandths are the design size itself, which is never out of range. -/
theorem sizeOf_thousand (designSize : FixWord) :
    sizeOf designSize (-1000) = sizeOf designSize 0 := by
  have once : multiple designSize (-1000) = (sizeOf designSize 0).sp.toInt := by
    rw [multiple_of_whole (k := 1) (by decide), Int.one_mul]
  obtain ⟨low, high⟩ : (sizeOf designSize 0).Allowed := allowed_designSize designSize
  rw [sizeOf_of_neg (by decide), once, Scaled.mk.injEq, ← Int32.toInt_inj, Scaled.toInt_clamped]
  omega

theorem multiple_mono {larger : Int32} (more : larger ≤ atSize)
    (positive : 0 ≤ designSize.toScaledPoints.toInt) :
    multiple designSize atSize ≤ multiple designSize larger := by
  have factor : -atSize.toInt ≤ -larger.toInt := Int.neg_le_neg (Int32.le_iff_toInt_le.mp more)
  exact Int.tdiv_le_tdiv (by decide) (Int.mul_le_mul_of_nonneg_left factor positive)

theorem multiple_antitone {larger : Int32} (more : larger ≤ atSize)
    (negative : designSize.toScaledPoints.toInt ≤ 0) :
    multiple designSize larger ≤ multiple designSize atSize := by
  have factor : -atSize.toInt ≤ -larger.toInt := Int.neg_le_neg (Int32.le_iff_toInt_le.mp more)
  exact Int.tdiv_le_tdiv (by decide) (Int.mul_le_mul_of_nonpos_left negative factor)

/-- Rounding down loses less than a scaled point of the design size and so less than one for each
thousand thousandths; rounding toward zero moves the multiple by less than one more. -/
theorem abs_multiple_sub_lt (designSize : FixWord) (magnified : atSize < 0) :
    |16000 * multiple designSize atSize - designSize.raw.toInt * -atSize.toInt|
      < 16 * -atSize.toInt + 16000 := by
  have below : 0 ≤ -atSize.toInt := by
    have := Int32.lt_iff_toInt_lt.mp magnified
    simp only [Int32.toInt_zero] at this
    omega
  obtain ⟨lost, whole, least, most⟩ :
      ∃ lost, designSize.raw.toInt = 16 * designSize.toScaledPoints.toInt + lost ∧
        0 ≤ lost ∧ lost ≤ 15 := by
    have points := designSize.toInt_toScaledPoints
    exact ⟨designSize.raw.toInt % 16, by omega, by omega, by omega⟩
  have product := Int.mul_tdiv_add_tmod (designSize.toScaledPoints.toInt * -atSize.toInt) 1000
  have restLow := Int.lt_tmod_of_pos (designSize.toScaledPoints.toInt * -atSize.toInt)
    (show (0 : Int) < 1000 by decide)
  have restHigh := Int.tmod_lt_of_pos (designSize.toScaledPoints.toInt * -atSize.toInt)
    (show (0 : Int) < 1000 by decide)
  have lostLow : 0 ≤ lost * -atSize.toInt := Int.mul_nonneg least below
  have lostHigh : lost * -atSize.toInt ≤ 15 * -atSize.toInt :=
    Int.mul_le_mul_of_nonneg_right most below
  rw [← multiple] at product
  rw [whole, Int.add_mul, Int.mul_assoc 16, abs_lt]
  constructor
  · linarith
  · linarith

theorem abs_sub_lt_of_not_saturated (magnified : atSize < 0)
    (kept : ¬ Saturated designSize atSize) :
    |((sizeOf designSize atSize).sp.toInt : ℚ)
        - designSize.raw.toInt * -atSize.toInt / 16000| < -atSize.toInt / 1000 + 1 := by
  have exact : (sizeOf designSize atSize).sp.toInt = multiple designSize atSize := by
    obtain ⟨low, high⟩ := abs_le.mp (not_lt.mp kept)
    rw [sizeOf_of_neg magnified, Scaled.toInt_clamped]
    omega
  have bound : |16000 * (multiple designSize atSize : ℚ)
      - designSize.raw.toInt * -atSize.toInt| < 16 * -atSize.toInt + 16000 := by
    exact_mod_cast abs_multiple_sub_lt designSize magnified
  rw [exact]
  rw [abs_lt] at bound ⊢
  constructor
  · linarith
  · linarith

/-- The product keeps within 64 bits whatever is asked for. -/
theorem toInt_product (designSize : FixWord) (atSize : Int32) :
    (designSize.toScaledPoints.toInt64 * -atSize.toInt64).toInt
      = designSize.toScaledPoints.toInt * -atSize.toInt := by
  have low := atSize.le_toInt
  have high := atSize.toInt_lt
  obtain ⟨least, most⟩ := allowed_designSize designSize
  have limit := Scaled.toInt_largest
  have negated : (-atSize.toInt64).toInt = -atSize.toInt := by
    rw [Int64.toInt_neg, Int32.toInt_toInt64]
    exact Int.bmod_eq_of_le (by omega) (by omega)
  -- Below `2 ^ 62`, also for the lowest request, whose negative does not fit into 32 bits.
  have points : designSize.toScaledPoints.toInt.natAbs ≤ 2 ^ 30 := by
    dsimp only at least most
    omega
  have factor : (-atSize.toInt).natAbs ≤ 2 ^ 31 := by omega
  have product := Nat.mul_le_mul points factor
  rw [← Int.natAbs_mul] at product
  rw [Int64.toInt_mul, negated, Int32.toInt_toInt64]
  exact Int.bmod_eq_of_le (by omega) (by omega)

/-- A font at so many thousandths of its design size. A thousand thousandths are the design size
itself and a whole multiple is this multiple of it, kept within the allowed range. A larger
magnification moves the size away from zero, if at all. As long as the multiple is within the range,
the size differs from the exact one by less than one scaled point and one for each thousand
thousandths; otherwise it is the largest dimension there is, with its sign. The product fits into 64
bits even for the lowest request. -/
theorem sizeOf_magnified (designSize : FixWord) (magnified : atSize < 0) :
    let design := designSize.toScaledPoints
    let size := (sizeOf designSize atSize).sp.toInt
    let largest := Scaled.largest.sp.toInt
    sizeOf designSize (-1000) = sizeOf designSize 0 ∧
    (∀ k : Int, -atSize.toInt = 1000 * k →
      size = max (-largest) (min (k * (sizeOf designSize 0).sp.toInt) largest)) ∧
    (∀ larger ≤ atSize,
      (0 ≤ design.toInt → size ≤ (sizeOf designSize larger).sp.toInt) ∧
      (design.toInt ≤ 0 → (sizeOf designSize larger).sp.toInt ≤ size)) ∧
    (¬ Saturated designSize atSize →
      |(size : ℚ) - designSize.raw.toInt * -atSize.toInt / 16000| < -atSize.toInt / 1000 + 1) ∧
    (Saturated designSize atSize → |size| = largest) ∧
    (design.toInt64 * -atSize.toInt64).toInt = design.toInt * -atSize.toInt := by
  intro design size largest
  have clamped : sizeOf designSize atSize = Scaled.clamped (multiple designSize atSize) :=
    sizeOf_of_neg magnified
  refine ⟨sizeOf_thousand designSize, fun k whole => ?_, fun larger more => ?_,
    abs_sub_lt_of_not_saturated magnified, fun exceeds => ?_, toInt_product designSize atSize⟩
  · simp only [size, clamped, Scaled.toInt_clamped, multiple_of_whole whole, largest]
  · have further : larger < 0 := Int32.lt_of_le_of_lt more magnified
    simp only [size, clamped, sizeOf_of_neg further]
    exact ⟨fun positive => Scaled.toInt_clamped_mono (multiple_mono more positive),
      fun negative => Scaled.toInt_clamped_mono (multiple_antitone more negative)⟩
  · simp only [size, clamped]
    exact Scaled.abs_toInt_clamped exceeds

/-- A font of ten points and three units of its last place, enlarged by a half step and as far as
can be asked for. -/
theorem sizeOf_magnified_steps :
    let designSize : FixWord := ⟨10485763⟩
    let half : Int32 := -1095
    let most : Int32 := -2147483648
    half < 0 ∧ most ≤ half ∧ ¬ Saturated designSize half ∧ Saturated designSize most ∧
      (sizeOf designSize half).sp.toInt = 717619 ∧
      |((sizeOf designSize half).sp.toInt : ℚ) - 10485763 * 1095 / 16000| < 1095 / 1000 + 1 ∧
      717619 ≤ (sizeOf designSize most).sp.toInt ∧
      |(sizeOf designSize most).sp.toInt| = Scaled.largest.sp.toInt ∧
      (designSize.toScaledPoints.toInt64 * -most.toInt64).toInt = 655360 * 2147483648 := by
  intro designSize half most
  have negative : half < 0 := by decide
  have size : (sizeOf designSize half).sp.toInt = 717619 := by decide
  have kept : ¬ Saturated designSize half := by decide
  have exceeds : Saturated designSize most := by decide
  obtain ⟨-, -, larger, bound, -⟩ := sizeOf_magnified designSize negative
  obtain ⟨-, -, -, -, saturated, product⟩ :=
    sizeOf_magnified designSize (show most < 0 by decide)
  have grows := (larger most (by decide)).1 (by decide)
  have raw : designSize.raw.toInt = 10485763 := rfl
  have thousandths : half.toInt = -1095 := rfl
  refine ⟨negative, by decide, kept, exceeds, size, ?_, size ▸ grows, saturated exceeds,
    product.trans (by decide)⟩
  simpa [raw, thousandths] using bound kept

end Font

end TypesetKernel
