import GlyphDrawing.Number.Fixed
import GlyphDrawing.Proofs.Number.Grid

/-!
# Doubles as rational numbers

A finite double is a rational number (`toRat?`), and the order of doubles is that of these numbers
(`lt_iff_of_toRat?`). On exact values sums and shifts are those of the rationals, and single
precision keeps a number of at most 24 bits (`Scaled.toRat_single`). So a whole number of grid
steps is encoded as that number (`Fixed.steps_eq`).
-/

namespace GlyphDrawing

open Float.Model UnpackedFloat

def Scaled.toRat (x : Scaled) : ℚ :=
  x.significand * (2 : ℚ) ^ x.exponent

def toRat? (x : Float) : Option ℚ :=
  (Scaled.ofFloat? x).map Scaled.toRat

section Order

variable {m m' : Nat} {e e' : Int} {x y : Float} {p q : ℚ}

theorem lt_of_exponent_lt (h : m < 2 ^ 53) (h' : Regular m' e') (hle : -1074 ≤ e) (he : e < e') :
    m * (2 : ℚ) ^ e < m' * (2 : ℚ) ^ e' := by
  have hm' : (2 : ℚ) ^ 52 ≤ m' := by exact_mod_cast h'.normal.resolve_right (by omega)
  have hpow : (2 : ℚ) ^ (e + 1) ≤ (2 : ℚ) ^ e' := zpow_le_zpow_right₀ one_le_two (by omega)
  calc m * (2 : ℚ) ^ e
      < 2 ^ 53 * (2 : ℚ) ^ e := by
        gcongr
        exact_mod_cast h
    _ = 2 ^ 52 * (2 : ℚ) ^ (e + 1) := by
        rw [zpow_add_one₀ two_ne_zero]
        ring
    _ ≤ m' * (2 : ℚ) ^ e' := by gcongr

/-- The order of exponents and mantissas is that of the numbers. -/
theorem compare_magnitude (h : Regular m e) (h' : Regular m' e') :
    (compare e e').then (compare m m') = compare (m * (2 : ℚ) ^ e) (m' * (2 : ℚ) ^ e') := by
  rcases lt_trichotomy e e' with he | rfl | he
  · rw [compare_lt_iff_lt.2 he,
      compare_lt_iff_lt.2 (lt_of_exponent_lt h.lt_two_pow h' h.le_exponent he)]
    rfl
  · have hpos : (0 : ℚ) < (2 : ℚ) ^ e := by positivity
    rw [compare_eq_iff_eq.2 rfl, Ordering.eq_then]
    rcases lt_trichotomy m m' with hm | rfl | hm
    · rw [compare_lt_iff_lt.2 hm,
        compare_lt_iff_lt.2 (mul_lt_mul_of_pos_right (by exact_mod_cast hm) hpos)]
    · rw [compare_eq_iff_eq.2 rfl, compare_eq_iff_eq.2 rfl]
    · rw [compare_gt_iff_gt.2 hm,
        compare_gt_iff_gt.2 (mul_lt_mul_of_pos_right (by exact_mod_cast hm) hpos)]
  · rw [compare_gt_iff_gt.2 he,
      compare_gt_iff_gt.2 (lt_of_exponent_lt h'.lt_two_pow h h'.le_exponent he)]
    rfl

theorem swap_compare_neg (p q : ℚ) : (compare p q).swap = compare (-p) (-q) := by
  rcases lt_trichotomy p q with h | rfl | h
  · rw [compare_lt_iff_lt.2 h, compare_gt_iff_gt.2 (neg_lt_neg h)]
    rfl
  · rw [compare_eq_iff_eq.2 rfl, compare_eq_iff_eq.2 rfl]
    rfl
  · rw [compare_gt_iff_gt.2 h, compare_lt_iff_lt.2 (neg_lt_neg h)]
    rfl

/-- A finite double is zero, or a number with the sign of its mantissa. -/
theorem unpack_of_toRat? (h : toRat? x = some q) :
    (∃ s, x.toModel.unpack = .zero s ∧ q = 0) ∨
      ∃ s m e hm, x.toModel.unpack = .finite s m e hm ∧ Regular m e ∧
        q = s.apply m * (2 : ℚ) ^ e := by
  rw [toRat?, Scaled.ofFloat?] at h
  cases hx : x.toModel.unpack with
  | zero s =>
    rw [hx] at h
    exact .inl ⟨s, rfl, by simpa [Scaled.toRat] using h.symm⟩
  | finite s m e hm =>
    rw [hx] at h
    exact .inr ⟨s, m, e, hm, rfl, regular_of_unpack hx, (Option.some.inj h).symm⟩
  | infinity s | notANumber =>
    rw [hx] at h
    cases h

theorem positive_value_pos (hm : 0 < m) :
    0 < ((Sign.positive.apply m : Int) : ℚ) * (2 : ℚ) ^ e := by
  change (0 : ℚ) < m * (2 : ℚ) ^ e
  positivity

theorem negative_value_neg (hm : 0 < m) :
    ((Sign.negative.apply m : Int) : ℚ) * (2 : ℚ) ^ e < 0 := by
  have hpos : (0 : ℚ) < m * (2 : ℚ) ^ e := by positivity
  simpa [Sign.apply] using hpos

/-- Finite doubles are compared as numbers; the two zeros are the same number. -/
theorem compare_of_toRat? (hx : toRat? x = some p) (hy : toRat? y = some q) :
    x.toModel.unpack.compare y.toModel.unpack = some (compare p q) := by
  obtain ⟨s, hu, rfl⟩ | ⟨s, m, e, hm, hu, hregular, rfl⟩ := unpack_of_toRat? hx <;>
    obtain ⟨t, hw, rfl⟩ | ⟨t, n, f, hn, hw, hregular', rfl⟩ := unpack_of_toRat? hy <;>
      rw [hu, hw]
  · rw [compare_eq_iff_eq.2 rfl]
    rfl
  · cases t with
    | positive =>
      rw [compare_lt_iff_lt.2 (positive_value_pos hn)]
      rfl
    | negative =>
      rw [compare_gt_iff_gt.2 (negative_value_neg hn)]
      rfl
  · cases s with
    | positive =>
      rw [compare_gt_iff_gt.2 (positive_value_pos hm)]
      rfl
    | negative =>
      rw [compare_lt_iff_lt.2 (negative_value_neg hm)]
      rfl
  · cases s with
    | positive =>
      cases t with
      | positive => exact congrArg some (compare_magnitude hregular hregular')
      | negative =>
        rw [compare_gt_iff_gt.2 ((negative_value_neg hn).trans (positive_value_pos hm))]
        rfl
    | negative =>
      cases t with
      | positive =>
        rw [compare_lt_iff_lt.2 ((negative_value_neg hm).trans (positive_value_pos hn))]
        rfl
      | negative =>
        simp only [Sign.apply, Int.cast_neg, Int.cast_natCast, neg_mul]
        rw [← swap_compare_neg, ← compare_magnitude hregular hregular']
        rfl

theorem lt_iff_of_toRat? (hx : toRat? x = some p) (hy : toRat? y = some q) : x < y ↔ p < q := by
  rw [lt_iff_compare, compare_of_toRat? hx hy, Option.some.injEq, compare_lt_iff_lt]

theorem le_iff_of_toRat? (hx : toRat? x = some p) (hy : toRat? y = some q) : x ≤ y ↔ p ≤ q := by
  rw [le_iff_compare, compare_of_toRat? hx hy, Option.any_some, ← compare_le_iff_le]
  cases compare p q <;> decide

theorem beq_iff_of_toRat? (hx : toRat? x = some p) (hy : toRat? y = some q) :
    (x == y) = true ↔ p = q := by
  change (x.toModel.unpack.compare y.toModel.unpack == some .eq) = true ↔ _
  rw [compare_of_toRat? hx hy, beq_iff_eq, Option.some.injEq, compare_eq_iff_eq]

end Order

namespace Scaled

variable {x y : Scaled} {n : Int} {e : Int}

theorem toRat_shift (x : Scaled) (k : Int) : (x.shift k).toRat = x.toRat * (2 : ℚ) ^ k := by
  rw [toRat, toRat, shift, zpow_add₀ two_ne_zero, mul_assoc]

theorem shiftLeft_mul_two_zpow {low : Int} (h : low ≤ e) (n : Int) :
    (n <<< (e - low).toNat : Int) * (2 : ℚ) ^ low = n * (2 : ℚ) ^ e := by
  have hsum : ((e - low).toNat : Int) + low = e := by omega
  rw [Int.shiftLeft_eq]
  push_cast
  rw [← zpow_natCast, mul_assoc, ← zpow_add₀ two_ne_zero, hsum]

theorem toRat_add (x y : Scaled) : (x + y).toRat = x.toRat + y.toRat := by
  change ((x.significand <<< (x.exponent - min x.exponent y.exponent).toNat +
    y.significand <<< (y.exponent - min x.exponent y.exponent).toNat : Int) : ℚ) *
      (2 : ℚ) ^ min x.exponent y.exponent = _
  rw [Int.cast_add, add_mul, shiftLeft_mul_two_zpow (min_le_left _ _),
    shiftLeft_mul_two_zpow (min_le_right _ _)]
  rfl

theorem floor_eq_floor_toRat (x : Scaled) : x.floor = ⌊x.toRat⌋ := by
  rcases lt_or_ge x.exponent 0 with he | he
  · exact floor_eq x.significand he
  · have hvalue : x.toRat = (x.significand * 2 ^ x.exponent.toNat : Int) := by
      push_cast
      rw [← zpow_natCast, Int.toNat_of_nonneg he, toRat]
    rw [hvalue, Int.floor_intCast, floor, Int.toNat_of_nonpos (neg_nonpos.2 he),
      Int.shiftRight_zero, Int.shiftLeft_eq]

theorem significand_neg_iff (x : Scaled) : x.significand < 0 ↔ x.toRat < 0 := by
  have hpos : (0 : ℚ) < (2 : ℚ) ^ x.exponent := by positivity
  rw [toRat, ← not_le, ← not_le, mul_nonneg_iff_of_pos_right hpos, Int.cast_nonneg_iff]

theorem truncate_of_nonneg (h : 0 ≤ x.toRat) : x.truncate = ⌊x.toRat⌋ := by
  rw [truncate, if_neg (by rwa [significand_neg_iff, not_lt]), floor_eq_floor_toRat]

theorem truncate_of_neg (h : x.toRat < 0) : x.truncate = -⌊-x.toRat⌋ := by
  rw [truncate, if_pos ((significand_neg_iff x).2 h), floor_eq_floor_toRat, toRat, toRat,
    Int.cast_neg, neg_mul]

theorem nearestEvenQuotient_mul_two_pow (n : Int) (k : Nat) :
    nearestEvenQuotient (n * 2 ^ k) k = n := by
  have hquotient : (n * 2 ^ k) >>> k = n := by
    rw [Int.shiftRight_eq_div_pow, Nat.cast_pow, Nat.cast_ofNat,
      Int.mul_ediv_cancel _ (by positivity)]
  have hpos : (0 : Int) < (1 <<< k : Nat) := by
    rw [Nat.one_shiftLeft]
    positivity
  simp only [nearestEvenQuotient, hquotient, Int.shiftLeft_eq, sub_self, mul_zero]
  rw [if_pos hpos]

/-- Two forms of one number differ by zeros behind the significand of one of them. -/
theorem exists_zeros (h : x.toRat = n * (2 : ℚ) ^ e) :
    ∃ k : Nat, x.significand = n * 2 ^ k ∧ x.exponent = e - k ∨
      n = x.significand * 2 ^ k ∧ x.exponent = e + k := by
  rcases le_total x.exponent e with hle | hle
  · refine ⟨(e - x.exponent).toNat, .inl ⟨?_, by omega⟩⟩
    rw [toRat, ← shiftLeft_mul_two_zpow hle, Int.shiftLeft_eq] at h
    exact_mod_cast mul_right_cancel₀ (by positivity) h
  · refine ⟨(x.exponent - e).toNat, .inr ⟨?_, by omega⟩⟩
    rw [toRat, ← shiftLeft_mul_two_zpow hle, Int.shiftLeft_eq] at h
    exact_mod_cast (mul_right_cancel₀ (by positivity) h).symm

def dropped (x : Scaled) (bits : Nat) (lowest : Int) : Nat :=
  max (x.significand.natAbs.log2 + 1 - bits) (lowest - x.exponent).toNat

theorem log2_natAbs_lt {bits : Nat} (hn : n.natAbs < 2 ^ bits) (hne : n ≠ 0) :
    n.natAbs.log2 < bits :=
  (Nat.log2_lt (Int.natAbs_ne_zero.2 hne)).2 hn

/-- Of a number with a significand of `bits` bits only zeros are dropped. -/
theorem exists_eq_mul_dropped {bits : Nat} {lowest : Int} (hn : n.natAbs < 2 ^ bits)
    (he : lowest ≤ e) (h : x.toRat = n * (2 : ℚ) ^ e) :
    ∃ c, x.significand = c * 2 ^ x.dropped bits lowest := by
  obtain ⟨k, ⟨hs, hx⟩ | ⟨hs, hx⟩⟩ := exists_zeros h
  · by_cases hne : n = 0
    · exact ⟨0, by rw [hs, hne, zero_mul, zero_mul]⟩
    · have hlog := log2_natAbs_lt hn hne
      have hle : x.dropped bits lowest ≤ k := by
        rw [dropped, hs, Int.natAbs_mul, Int.natAbs_pow,
          show Int.natAbs 2 = 2 from rfl, log2_mul_two_pow (Int.natAbs_pos.2 hne)]
        omega
      refine ⟨n * 2 ^ (k - x.dropped bits lowest), ?_⟩
      rw [hs, mul_assoc, ← pow_add, Nat.sub_add_cancel hle]
  · by_cases hne : x.significand = 0
    · exact ⟨0, by rw [hne, zero_mul]⟩
    · have hle : x.significand.natAbs ≤ n.natAbs := by
        rw [hs, Int.natAbs_mul]
        exact Nat.le_mul_of_pos_right _ (Int.natAbs_pos.2 (by positivity))
      have hlog := log2_natAbs_lt (hle.trans_lt hn) hne
      have hzero : x.dropped bits lowest = 0 := by
        rw [dropped]
        omega
      exact ⟨x.significand, by rw [hzero, pow_zero, mul_one]⟩

/-- A number that has a significand of `bits` bits is kept. -/
theorem toRat_nearest {bits : Nat} {lowest : Int} (hn : n.natAbs < 2 ^ bits) (he : lowest ≤ e)
    (h : x.toRat = n * (2 : ℚ) ^ e) : (x.nearest bits lowest).toRat = x.toRat := by
  obtain ⟨c, hc⟩ := exists_eq_mul_dropped hn he h
  have hnearest : x.nearest bits lowest = ⟨c, x.exponent + x.dropped bits lowest⟩ := by
    change (⟨nearestEvenQuotient x.significand (x.dropped bits lowest),
      x.exponent + x.dropped bits lowest⟩ : Scaled) = _
    rw [congrArg (nearestEvenQuotient · _) hc, nearestEvenQuotient_mul_two_pow]
  rw [hnearest, toRat, toRat, hc, add_comm, zpow_add₀ two_ne_zero, zpow_natCast]
  push_cast
  ring

theorem toRat_single (hn : n.natAbs < 2 ^ 24) (he : -149 ≤ e) (h : x.toRat = n * (2 : ℚ) ^ e) :
    x.single.toRat = x.toRat :=
  toRat_nearest hn he h

end Scaled

namespace Fixed

variable {x : Scaled} {k : Int}

theorem floor_add_half (k : Int) : ⌊(k : ℚ) + 1 / 2⌋ = k := by
  rw [Int.floor_intCast_add, Int.floor_eq_zero_iff.2 (by norm_num), add_zero]

/-- A half more or less than a whole number is kept in single precision. -/
theorem toRat_single_add_half {n : Int} (hk : k.natAbs ≤ 2 ^ 15) (hn : n.natAbs = 1)
    (h : x.toRat = k) : (x + ⟨n, -1⟩).single.toRat = k + n / 2 := by
  have hsum : (x + ⟨n, -1⟩).toRat = k + n / 2 := by
    rw [Scaled.toRat_add, h, Scaled.toRat, zpow_neg_one, div_eq_mul_inv]
  rw [Scaled.toRat_single (n := 2 * k + n) (e := -1) (by omega) (by norm_num), hsum]
  rw [hsum]
  push_cast
  ring

/-- A whole number of grid steps is encoded without rounding. -/
theorem steps_eq (hk : k.natAbs ≤ 2 ^ 15) (h : x.toRat = k / 16384) : steps x = k := by
  have hsingle : x.single.toRat = x.toRat := by
    refine Scaled.toRat_single (n := k) (e := -14) (by omega) (by norm_num) ?_
    rw [h, div_eq_mul_inv, zpow_neg]
    norm_num
  have hshift : (x.single.shift 14).toRat = k := by
    rw [Scaled.toRat_shift, hsingle, h]
    norm_num
  -- the half goes to the side of the number, and is cut off again
  rcases lt_or_ge k 0 with hneg | hnonneg
  · have hneg' : (k : ℚ) < 0 := by exact_mod_cast hneg
    have hsign : x.significand < 0 := by
      rw [Scaled.significand_neg_iff, h]
      linarith
    have hsum := toRat_single_add_half hk (by decide : (-1 : Int).natAbs = 1) hshift
    have hminus : -((k : ℚ) + (-1 : Int) / 2) = (-k : Int) + 1 / 2 := by
      push_cast
      ring
    rw [steps, if_pos hsign, Scaled.truncate_of_neg (by rw [hsum]; push_cast; linarith), hsum,
      hminus, floor_add_half, neg_neg]
  · have hnonneg' : (0 : ℚ) ≤ k := by exact_mod_cast hnonneg
    have hsign : ¬ x.significand < 0 := by
      rw [Scaled.significand_neg_iff, h]
      linarith
    have hsum := toRat_single_add_half hk (by decide : (1 : Int).natAbs = 1) hshift
    rw [Int.cast_one] at hsum
    rw [steps, if_neg hsign, Scaled.truncate_of_nonneg (by rw [hsum]; linarith), hsum,
      floor_add_half]

end Fixed

end GlyphDrawing
