import GlyphDrawing.Number.Fixed
import GlyphDrawing.Proofs.Number.Within

/-!
# Moving doubles onto the grid

A double between minus two and two is moved onto the grid by a product, a sum, a floor and a
quotient. The first two round without passing a bound, the third gives a whole number of grid steps
and the fourth is exact. So it stays between minus two and two, and what is then clamped can be
stored (`isSome_encode?_clamp_iff`). Only NaN passes the tests for an overflow and does not get
between the bounds (`snap_between_iff`).
-/

namespace GlyphDrawing

open Float.Model UnpackedFloat

section Order

variable {x y : Float}

theorem lt_iff_compare : x < y ↔ x.toModel.unpack.compare y.toModel.unpack = some .lt := by
  change decide ((x.toModel.unpack.compare y.toModel.unpack == some .lt) = true) = true ↔ _
  rw [decide_eq_true_iff, beq_iff_eq]

theorem le_iff_compare :
    x ≤ y ↔ (x.toModel.unpack.compare y.toModel.unpack).any (·.isLE) = true := by
  change decide ((x.toModel.unpack.compare y.toModel.unpack).any (·.isLE) = true) = true ↔ _
  rw [decide_eq_true_iff]

theorem swap_compare_sign (s t : Sign) : (compare s t).swap = compare t s := by
  cases s <;> cases t <;> rfl

theorem swap_compare (u w : UnpackedFloat) : (u.compare w).map Ordering.swap = w.compare u := by
  rcases u with (_ | _) | _ | _ | ⟨(_ | _), _, _, _⟩ <;>
    rcases w with (_ | _) | _ | _ | ⟨(_ | _), _, _, _⟩ <;>
      simp [UnpackedFloat.compare, swap_compare_sign, Ordering.swap_then,
        ← Std.OrientedCmp.eq_swap]

theorem compare_eq_none {u w : UnpackedFloat} (h : u.compare w = none) :
    u = .notANumber ∨ w = .notANumber := by
  rcases u with (_ | _) | _ | _ | ⟨(_ | _), _, _, _⟩ <;>
    rcases w with (_ | _) | _ | _ | ⟨(_ | _), _, _, _⟩ <;>
      simp [UnpackedFloat.compare] at h ⊢

theorem unpack_eq_notANumber_iff : x.toModel.unpack = .notANumber ↔ x = Float.nan := by
  have h : x.toModel.unpack.isNaN = decide (x = Float.nan) := Float.isNaN_eq_decide_eq_nan
  rw [← isNaN_iff, h, decide_eq_true_iff]

/-- Numbers are in order one way or the other. -/
theorem le_of_not_lt (hx : x ≠ Float.nan) (hy : y ≠ Float.nan) (h : ¬ x < y) : y ≤ x := by
  rw [lt_iff_compare] at h
  rw [le_iff_compare, ← swap_compare]
  cases ho : x.toModel.unpack.compare y.toModel.unpack with
  | none =>
    rcases compare_eq_none ho with hnan | hnan
    · exact absurd (unpack_eq_notANumber_iff.1 hnan) hx
    · exact absurd (unpack_eq_notANumber_iff.1 hnan) hy
  | some o =>
    rw [ho] at h
    cases o with
    | lt => exact absurd rfl h
    | eq | gt => rfl

theorem ne_nan_of_le (h : x ≤ y) : x ≠ Float.nan := by
  rintro rfl
  rw [le_iff_compare, unpack_eq_notANumber_iff.2 rfl] at h
  simp [UnpackedFloat.compare] at h

end Order

section Two

variable {m : Nat} {e : Int} {x : Float}

theorem unpack_two : (2 : Float).toModel.unpack = .finite .positive (2 ^ 52) (-51) (by decide) :=
  rfl

theorem unpack_neg_two :
    (-2 : Float).toModel.unpack = .finite .negative (2 ^ 52) (-51) (by decide) := rfl

theorem neg_two_le_two : (-2 : Float) ≤ 2 :=
  le_iff_compare.2 rfl

theorem two_le_two : (2 : Float) ≤ 2 :=
  le_iff_compare.2 rfl

/-- The order of mantissas and exponents is that of the numbers. -/
theorem isLE_compare_two_iff (h : Regular m e) :
    ((compare e (-51)).then (compare m (2 ^ 52))).isLE = true ↔ m * (2 : ℚ) ^ e ≤ 2 := by
  obtain ⟨hlt, -, -, hnormal⟩ := h
  have hpos : (0 : ℚ) < (2 : ℚ) ^ e := by positivity
  rcases lt_trichotomy e (-51) with he | rfl | he
  · have hm : (m : ℚ) ≤ 2 ^ 53 := by exact_mod_cast hlt.le
    have hsmall : (2 : ℚ) ^ e ≤ (2 : ℚ) ^ (-52 : Int) :=
      zpow_le_zpow_right₀ one_le_two (by omega)
    have hle : m * (2 : ℚ) ^ e ≤ 2 ^ 53 * (2 : ℚ) ^ (-52 : Int) := by gcongr
    rw [Int.compare_eq_lt.2 he]
    exact iff_of_true rfl (hle.trans (by norm_num))
  · have hscale : m * (2 : ℚ) ^ (-51 : Int) ≤ 2 ↔ (m : ℚ) ≤ 2 ^ 52 := by
      rw [zpow_neg, ← div_eq_mul_inv, div_le_iff₀ (by positivity)]
      norm_num
    rw [Int.compare_eq_eq.2 rfl, hscale]
    exact Nat.isLE_compare.trans (by exact_mod_cast Iff.rfl)
  · have hm : (2 : ℚ) ^ 52 ≤ m := by exact_mod_cast hnormal.resolve_right (by omega)
    have hlarge : (2 : ℚ) ^ (-50 : Int) ≤ (2 : ℚ) ^ e := zpow_le_zpow_right₀ one_le_two (by omega)
    have hle : 2 ^ 52 * (2 : ℚ) ^ (-50 : Int) ≤ m * (2 : ℚ) ^ e := by gcongr
    rw [Int.compare_eq_gt.2 he]
    refine iff_of_false Bool.false_ne_true (not_le.2 (lt_of_lt_of_le (by norm_num) hle))

theorem within_two_iff : Within (-2) 2 x.toModel.unpack ↔ -2 ≤ x ∧ x ≤ 2 := by
  rw [le_iff_compare, le_iff_compare, unpack_two, unpack_neg_two]
  match h : x.toModel.unpack with
  | .zero s => exact iff_of_true trivial ⟨rfl, rfl⟩
  | .notANumber => exact iff_of_false id fun h => by cases h.1
  | .infinity .positive => exact iff_of_false id fun h => by cases h.2
  | .infinity .negative => exact iff_of_false id fun h => by cases h.1
  | .finite .positive m e hm =>
    have hregular := regular_of_unpack h
    have hpos : 0 ≤ m * (2 : ℚ) ^ e := by positivity
    have horder : (UnpackedFloat.compare (.finite .positive m e hm)
        (.finite .positive (2 ^ 52) (-51) (by decide))).any (·.isLE) = true ↔
          m * (2 : ℚ) ^ e ≤ 2 := isLE_compare_two_iff hregular
    rw [horder]
    simp only [Within, Sign.apply, Int.cast_natCast]
    exact ⟨fun h => ⟨rfl, h.2.2⟩, fun h => ⟨hregular, by linarith, h.2⟩⟩
  | .finite .negative m e hm =>
    have hregular := regular_of_unpack h
    have hpos : 0 ≤ m * (2 : ℚ) ^ e := by positivity
    have hswap : ((compare (-51) e).then (compare (2 ^ 52) m)).swap =
        (compare e (-51)).then (compare m (2 ^ 52)) := by
      rw [Ordering.swap_then, ← Std.OrientedCmp.eq_swap, ← Std.OrientedCmp.eq_swap]
    have horder : (UnpackedFloat.compare (.finite .negative (2 ^ 52) (-51) (by decide))
        (.finite .negative m e hm)).any (·.isLE) = true ↔ m * (2 : ℚ) ^ e ≤ 2 := by
      rw [← isLE_compare_two_iff hregular, ← hswap]
      rfl
    rw [horder]
    simp only [Within, Sign.apply, Int.cast_neg, Int.cast_natCast, neg_mul, neg_le_neg_iff]
    exact ⟨fun h => ⟨h.2.1, rfl⟩, fun h => ⟨hregular, h.1, by linarith⟩⟩

end Two

section Steps

variable {x : Float}

theorem unpack_mul (x y : Float) : (x * y).toModel.unpack =
    (Float.Model.pack (UnpackedFloat.mul .binary64 x.toModel.unpack y.toModel.unpack)).unpack :=
  rfl

theorem unpack_add (x y : Float) : (x + y).toModel.unpack =
    (Float.Model.pack (UnpackedFloat.add .binary64 x.toModel.unpack y.toModel.unpack)).unpack :=
  rfl

theorem unpack_div (x y : Float) : (x / y).toModel.unpack =
    (Float.Model.pack (UnpackedFloat.div .binary64 x.toModel.unpack y.toModel.unpack)).unpack :=
  rfl

theorem unpack_steps :
    (16384 : Float).toModel.unpack = .finite .positive (2 ^ 52) (-38) (by decide) := rfl

/-- Bounds on either side of zero are bounds for the magnitude. -/
theorem magnitude_le {s : Sign} {m : Nat} {y b : ℚ} (hlow : -b ≤ s.apply m * y)
    (hhigh : s.apply m * y ≤ b) : m * y ≤ b := by
  cases s with
  | positive => exact hhigh
  | negative =>
    simp only [Sign.apply, Int.cast_neg, Int.cast_natCast, neg_mul] at hlow
    linarith

theorem within_mul_steps (h : Within (-2) 2 x.toModel.unpack) :
    Within (-32768) 32768 (x * 16384).toModel.unpack := by
  have hbound : Dyadic 32768 := ⟨1, 15, by decide, by decide, by decide, by norm_num⟩
  have hproduct : Within (-32768) 32768
      (UnpackedFloat.mul .binary64 x.toModel.unpack (16384 : Float).toModel.unpack) := by
    rw [unpack_steps]
    match hx : x.toModel.unpack with
    | .zero s => trivial
    | .notANumber | .infinity s =>
      rw [hx] at h
      exact h.elim
    | .finite s m e hm =>
      rw [hx] at h
      obtain ⟨-, hlow, hhigh⟩ := h
      have hmagnitude := magnitude_le hlow hhigh
      have hle : ((m * 2 ^ 52 : Nat) : ℚ) * (2 : ℚ) ^ (e + -38) ≤ 32768 := by
        rw [zpow_add₀ two_ne_zero]
        push_cast
        norm_num
        linarith
      have hlog := log2_mul_two_pow hm 52
      exact within_of_le hbound.nonneg hbound.nonneg (fun _ => le_rfl) (fun _ => le_rfl)
        (roundWithAccuracy_le hbound (Nat.mul_pos hm (Nat.two_pow_pos 52)) (by omega) hle _)
  rw [unpack_mul, hproduct.unpack_pack]
  exact hproduct

theorem decreaseExponent_value {m : Nat} {e t : Int} (h : t ≤ e) :
    ((decreaseExponent m e t).1 : ℚ) * (2 : ℚ) ^ t = m * (2 : ℚ) ^ e := by
  have hk : ((e - t).toNat : Int) + t = e := by omega
  rw [decreaseExponent, Nat.shiftLeft_eq]
  push_cast
  rw [← zpow_natCast, mul_assoc, ← zpow_add₀ two_ne_zero, hk]

abbrev unpackedHalf : UnpackedFloat :=
  .finite .positive (2 ^ 52) (-53) (Nat.two_pow_pos 52)

theorem within_unpacked_add_half {u : UnpackedFloat} (h : Within (-32768) 32768 u) :
    Within (-(65535 / 2)) (65537 / 2) (UnpackedFloat.add .binary64 u unpackedHalf) := by
  have hlow : Dyadic (65535 / 2) := ⟨65535, -1, by decide, by decide, by decide, by norm_num⟩
  have hhigh : Dyadic (65537 / 2) := ⟨65537, -1, by decide, by decide, by decide, by norm_num⟩
  cases u with
  | zero s =>
    refine ⟨⟨by decide, by decide, by decide, .inl le_rfl⟩, ?_⟩
    norm_num [Sign.apply]
  | notANumber | infinity s => exact h.elim
  | finite s m e hm =>
    obtain ⟨-, hle, hge⟩ := h
    have hm' := decreaseExponent_value (m := m) (min_le_left e (-53))
    have hhalf := decreaseExponent_value (m := 2 ^ 52) (min_le_right e (-53))
    have hvalue : ((s.apply (decreaseExponent m e (min e (-53))).1 +
        Sign.positive.apply (decreaseExponent (2 ^ 52) (-53) (min e (-53))).1 : Int) : ℚ) *
          (2 : ℚ) ^ min e (-53) = s.apply m * (2 : ℚ) ^ e + 1 / 2 := by
      have hone : ((2 ^ 52 : Nat) : ℚ) * (2 : ℚ) ^ (-53 : Int) = 1 / 2 := by norm_num
      rw [Int.cast_add, add_mul, ← hone, ← hhalf]
      congr 1
      cases s <;> simp only [Sign.apply, Int.cast_neg, Int.cast_natCast, neg_mul, hm']
    exact within_normalize hlow hhigh (le_of_le_of_eq (by linarith) hvalue.symm)
      (le_of_eq_of_le hvalue (by linarith)) _

theorem unpack_add_half_of_within (h : Within (-32768) 32768 x.toModel.unpack) :
    (x + 0.5).toModel.unpack = UnpackedFloat.add .binary64 x.toModel.unpack unpackedHalf := by
  rw [unpack_add, unpack_half, (within_unpacked_add_half h).unpack_pack]

theorem within_add_half (h : Within (-32768) 32768 x.toModel.unpack) :
    Within (-(65535 / 2)) (65537 / 2) (x + 0.5).toModel.unpack := by
  rw [unpack_add_half_of_within h]
  exact within_unpacked_add_half h

theorem floor_eq (z : Int) {e : Int} (he : e < 0) :
    Scaled.floor ⟨z, e⟩ = ⌊z * (2 : ℚ) ^ e⌋ := by
  have hvalue : z * (2 : ℚ) ^ e = z / (2 ^ (-e).toNat : Nat) := by
    rw [div_eq_mul_inv, Nat.cast_pow, Nat.cast_ofNat, ← zpow_natCast, ← zpow_neg]
    congr 2
    omega
  rw [hvalue, Rat.floor_intCast_div_natCast, Scaled.floor, Int.toNat_of_nonpos he.le,
    Int.shiftLeft_zero, Int.shiftRight_eq_div_pow]

theorem unpack_ofInt (z : Int) (hz : z.natAbs ≤ 2 ^ 15) :
    z = 0 ∧ (Float.ofInt z).toModel.unpack = .zero .positive ∨
      ∃ s n hn, z = s.apply n ∧ n ≤ 2 ^ 15 ∧
        (Float.ofInt z).toModel.unpack = canonical s n 0 hn := by
  obtain ⟨n, hn⟩ := z.eq_nat_or_neg
  rcases Nat.eq_zero_or_pos n with rfl | hpos
  · obtain rfl : z = 0 := by omega
    exact .inl ⟨rfl, rfl⟩
  rcases hn with rfl | rfl
  · exact .inr ⟨.positive, n, hpos, rfl, by omega, unpack_ofInt_natCast hpos (by omega)⟩
  · exact .inr ⟨.negative, n, hpos, rfl, by omega, unpack_ofInt_neg_natCast hpos (by omega)⟩

theorem exponent_neg {m : Nat} {e : Int} (h : Regular m e) (hle : m * (2 : ℚ) ^ e ≤ 2 ^ 16) :
    e < 0 := by
  by_contra hwhole
  have hm : (2 : ℚ) ^ 52 ≤ m := by exact_mod_cast h.normal.resolve_right (by omega)
  have hone : (1 : ℚ) ≤ (2 : ℚ) ^ e := one_le_zpow₀ one_le_two (by omega)
  have hlarge : 2 ^ 52 * 1 ≤ m * (2 : ℚ) ^ e := by gcongr
  linarith

/-- Between these bounds a double has fraction bits, and its floor has at most sixteen bits. -/
theorem floor_bounds {s : Sign} {m : Nat} {e : Int} {hm : 0 < m}
    (h : Within (-(65535 / 2)) (65537 / 2) (.finite s m e hm)) :
    e < 0 ∧ (Scaled.floor ⟨s.apply m, e⟩).natAbs ≤ 2 ^ 15 := by
  obtain ⟨hregular, hle, hge⟩ := h
  -- without fraction bits a double of 53 bits would be above the bounds
  have hneg : e < 0 := exponent_neg hregular (magnitude_le (s := s) (by linarith) (by linarith))
  have hlow : -32768 ≤ ⌊s.apply m * (2 : ℚ) ^ e⌋ := by
    rw [Int.le_floor]
    push_cast
    linarith
  have hhigh : ⌊s.apply m * (2 : ℚ) ^ e⌋ < 32769 := by
    rw [Int.floor_lt]
    push_cast
    linarith
  rw [floor_eq _ hneg]
  exact ⟨hneg, by omega⟩

/-- Between these bounds the floor is a number of at most sixteen bits, or zero. -/
theorem unpack_floorFloat (h : Within (-(65535 / 2)) (65537 / 2) x.toModel.unpack) :
    (∃ s, (floorFloat x).toModel.unpack = .zero s) ∨
      ∃ s n hn, n ≤ 2 ^ 15 ∧ (floorFloat x).toModel.unpack = canonical s n 0 hn := by
  cases hx : x.toModel.unpack with
  | zero s =>
    have hfloor : floorFloat x = x := by
      rw [floorFloat, Scaled.ofFloat?, hx]
      rfl
    exact .inl ⟨s, by rw [hfloor, hx]⟩
  | notANumber | infinity s =>
    rw [hx] at h
    exact h.elim
  | finite s m e hm =>
    rw [hx] at h
    obtain ⟨hneg, hbound⟩ := floor_bounds h
    have hfloor : floorFloat x = Float.ofInt (Scaled.floor ⟨s.apply m, e⟩) := by
      rw [floorFloat, Scaled.ofFloat?, hx]
      exact if_pos hneg
    rw [hfloor]
    obtain ⟨-, hzero⟩ | ⟨t, n, hn, -, hle, hfinite⟩ := unpack_ofInt _ hbound
    · exact .inl ⟨_, hzero⟩
    · exact .inr ⟨t, n, hn, hle, hfinite⟩

theorem divCore_steps {m : Nat} {e : Int} (hm : m.log2 = 52) (he : -1000 ≤ e) :
    divCore .binary64 m e (2 ^ 52) (-38) = (m * 2 ^ 1, e - 14 - (1 : Nat), .exact) := by
  have htarget : Format.binary64.targetExponent
      (totalExponent m e - totalExponent (2 ^ 52) (-38)) = e - 15 := by
    simp only [Format.targetExponent, totalExponent, hm, Nat.log2_two_pow, Format.mantissaBits,
      Format.minExponent]
    norm_num
    omega
  have hmin : min (e - -38) (e - 15) = e - 15 := by omega
  have hshift : (e - -38 - (e - 15)).toNat = 53 := by omega
  have hdouble : m <<< 53 = m * 2 ^ 1 * 2 ^ 52 := by
    rw [Nat.shiftLeft_eq, Nat.mul_assoc]
    rfl
  rw [divCore, htarget, hmin, hshift, hdouble, Nat.mul_div_cancel _ (Nat.two_pow_pos 52),
    Nat.mul_mod_left, show e - 14 - ((1 : Nat) : Int) = e - 15 by omega]
  rfl

theorem div_steps {s : Sign} {m : Nat} {e : Int} (hm : 0 < m) (hlog : m.log2 = 52)
    (he : -1000 ≤ e) :
    UnpackedFloat.div .binary64 (.finite s m e hm)
        (.finite .positive (2 ^ 52) (-38) (Nat.two_pow_pos 52)) = .finite s m (e - 14) hm := by
  have hsign : s / Sign.positive = s := by cases s <;> rfl
  rw [← roundWithAccuracy_exact hm hlog (by omega : -1074 ≤ e - 14) s 1, UnpackedFloat.div,
    divCore_steps hlog he, hsign]

/-- A whole number is divided by the steps without rounding. -/
theorem unpack_div_steps {s : Sign} {n : Nat} (hn : 0 < n) (hlt : n < 2 ^ 53)
    (h : x.toModel.unpack = canonical s n 0 hn) :
    (x / 16384).toModel.unpack = canonical s n (-14) hn := by
  have hle := log2_le hlt
  have hquotient := div_steps (s := s) (Nat.mul_pos hn (Nat.two_pow_pos (52 - n.log2)))
    (log2_mantissa hn hlt) (by omega : -1000 ≤ 0 - ((52 - n.log2 : Nat) : Int))
  have hexponent : (0 : Int) - ((52 - n.log2 : Nat) : Int) - 14 =
      -14 - ((52 - n.log2 : Nat) : Int) := by omega
  rw [unpack_div, h, unpack_steps, canonical, hquotient]
  simp only [hexponent]
  exact unpack_pack_canonical hn hlt (by omega) (by omega) s

theorem canonical_value (n : Nat) (e : Int) :
    ((n * 2 ^ (52 - n.log2) : Nat) : ℚ) * (2 : ℚ) ^ (e - ((52 - n.log2 : Nat) : Int)) =
      n * (2 : ℚ) ^ e := by
  push_cast
  rw [mul_assoc, ← zpow_natCast, ← zpow_add₀ two_ne_zero, add_sub_cancel]

theorem within_div_steps
    (h : (∃ s, x.toModel.unpack = .zero s) ∨
      ∃ s n hn, n ≤ 2 ^ 15 ∧ x.toModel.unpack = canonical s n 0 hn) :
    Within (-2) 2 (x / 16384).toModel.unpack := by
  obtain ⟨s, hs⟩ | ⟨s, n, hn, hle, hs⟩ := h
  · rw [unpack_div, hs, unpack_steps]
    cases s <;> trivial
  · have hlt : n < 2 ^ 53 := by omega
    have hlog := log2_le hlt
    obtain ⟨hlow, hhigh⟩ := (Nat.log2_eq_iff (Nat.mul_pos hn (Nat.two_pow_pos _)).ne').1
      (log2_mantissa hn hlt)
    have hregular : Regular (n * 2 ^ (52 - n.log2)) (-14 - ((52 - n.log2 : Nat) : Int)) :=
      ⟨hhigh, by omega, by omega, .inl hlow⟩
    have hquotient : (n : ℚ) * (2 : ℚ) ^ (-14 : Int) ≤ 2 := by
      have hn' : (n : ℚ) ≤ 2 ^ 15 := by exact_mod_cast hle
      rw [zpow_neg, ← div_eq_mul_inv, div_le_iff₀ (by positivity)]
      exact hn'.trans (by norm_num)
    rw [unpack_div_steps hn hlt hs]
    refine within_of_le (b := 2) zero_le_two zero_le_two (fun _ => le_rfl) (fun _ => le_rfl)
      (.inr ⟨_, _, _, rfl, hregular, ?_⟩)
    rw [canonical_value]
    exact hquotient

/-- Snapping does not leave the bounds. -/
theorem within_snap (h : Within (-2) 2 x.toModel.unpack) :
    Within (-2) 2 (Fixed.snap x).toModel.unpack :=
  within_div_steps (unpack_floorFloat (within_add_half (within_mul_steps h)))

end Steps

section Encode

variable {x : Float}

theorem snap_nan : Fixed.snap Float.nan = Float.nan := rfl

theorem isSome_ofFloat? (h : Within (-2) 2 x.toModel.unpack) : (Scaled.ofFloat? x).isSome := by
  rw [Scaled.ofFloat?]
  cases hx : x.toModel.unpack with
  | zero | finite => rfl
  | notANumber | infinity =>
    rw [hx] at h
    exact h.elim

theorem unpack_maximum :
    Fixed.maximum.toModel.unpack = .finite .positive (32767 * 2 ^ 38) (-52) (by decide) := rfl

theorem maximum_le_two : Fixed.maximum ≤ 2 :=
  le_iff_compare.2 rfl

theorem neg_two_le_of_maximum_lt (h : Fixed.maximum < x) : -2 ≤ x := by
  rw [lt_iff_compare, unpack_maximum] at h
  rw [le_iff_compare, unpack_neg_two]
  generalize x.toModel.unpack = u at h ⊢
  match u with
  | .finite .positive m e hm | .infinity .positive => rfl
  | .finite .negative m e hm | .infinity .negative | .zero s | .notANumber => cases h

theorem le_two_of_le_maximum (h : x ≤ Fixed.maximum) : x ≤ 2 := by
  rw [le_iff_compare, unpack_maximum] at h
  rw [le_iff_compare, unpack_two]
  generalize x.toModel.unpack = u at h ⊢
  match u with
  | .finite .negative m e hm | .infinity .negative | .zero s => rfl
  | .infinity .positive | .notANumber => cases h
  | .finite .positive m e hm =>
    have hle : ((compare e (-52)).then (compare m (32767 * 2 ^ 38))).isLE = true := h
    have he : e < -51 := by
      by_contra hge
      rw [Int.compare_eq_gt.2 (by omega : (-52 : Int) < e)] at hle
      cases hle
    change ((compare e (-51)).then (compare m (2 ^ 52))).isLE = true
    rw [Int.compare_eq_lt.2 he]
    rfl

/-- After the clamp, what lies between the bounds is what the encoding takes. -/
theorem isSome_encode?_clamp_iff :
    (Fixed.encode? (Fixed.clamp x)).isSome ↔ -2 ≤ x ∧ x ≤ 2 := by
  by_cases hnear : Fixed.nearTwo x = true
  · have hrange : Fixed.maximum < x ∧ x ≤ 2 := by simpa [Fixed.nearTwo] using hnear
    rw [Fixed.clamp, if_pos hnear]
    exact iff_of_true rfl ⟨neg_two_le_of_maximum_lt hrange.1, hrange.2⟩
  · rw [Fixed.clamp, if_neg hnear, Fixed.encode?]
    constructor
    · intro hsome
      have hrange : Fixed.minimum ≤ x ∧ x ≤ Fixed.maximum := by
        by_contra hout
        rw [if_neg hout] at hsome
        cases hsome
      exact ⟨hrange.1, le_two_of_le_maximum hrange.2⟩
    · intro h
      have hmax : ¬ Fixed.maximum < x := fun hlt => hnear (by simp [Fixed.nearTwo, hlt, h.2])
      have hle : x ≤ Fixed.maximum :=
        le_of_not_lt (ne_nan_of_le maximum_le_two) (ne_nan_of_le h.2) hmax
      rw [if_pos ⟨h.1, hle⟩, Option.isSome_map]
      exact isSome_ofFloat? (within_two_iff.2 h)

/-- Snapping leaves the bounds only for NaN, which satisfies no comparison, also none of those
that test for an overflow. -/
theorem snap_between_iff (hhigh : ¬ x > 2) (hlow : ¬ x < -2) :
    -2 ≤ Fixed.snap x ∧ Fixed.snap x ≤ 2 ↔ x ≠ Float.nan := by
  constructor
  · rintro ⟨-, hle⟩ rfl
    rw [snap_nan] at hle
    exact ne_nan_of_le hle rfl
  · intro hnan
    exact within_two_iff.1 (within_snap (within_two_iff.2
      ⟨le_of_not_lt hnan (ne_nan_of_le neg_two_le_two) hlow,
        le_of_not_lt (ne_nan_of_le two_le_two) hnan hhigh⟩))

end Encode

end GlyphDrawing
