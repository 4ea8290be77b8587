import GlyphDrawing.Proofs.Number.Value

/-!
# Grid steps

Between minus two and two, snapping takes a double to a whole number of grid steps, from `-32768` to
`32768` (`snap_eq_ofSteps`). Such numbers keep their steps, and they are told apart, compared,
clamped and encoded by them (`nearestSteps_ofSteps`, `ofSteps_lt_ofSteps_iff`, `clamp_ofSteps`,
`encode?_ofSteps`).
-/

namespace GlyphDrawing

open Float.Model UnpackedFloat

namespace Fixed

/-- How many grid steps are nearest to `x`, halves going up. -/
def nearestSteps (x : Float) : Int :=
  (roundToInt32 (x * 16384)).toInt

def ofSteps (k : Int) : Float :=
  Float.ofInt k / 16384

end Fixed

section Floor

variable {x : Float}

theorem normalize_ne_negative_zero {e : Int} (z : Int) (he : -1074 ≤ e) :
    UnpackedFloat.normalize .binary64 z e .positive ≠ .zero .negative := by
  obtain ⟨n, hz⟩ := z.eq_nat_or_neg
  rcases Nat.eq_zero_or_pos n with rfl | hn
  · obtain rfl : z = 0 := by omega
    rintro ⟨⟩
  rcases hz with rfl | rfl
  · rw [normalize_natCast hn]
    exact round_ne_zero hn he _ _
  · rw [normalize_neg_natCast hn]
    exact round_ne_zero hn he _ _

/-- What adds up to zero adds up to the positive zero. -/
theorem add_half_ne_negative_zero (h : Within (-32768) 32768 x.toModel.unpack) :
    (x + 0.5).toModel.unpack ≠ .zero .negative := by
  rw [unpack_add_half_of_within h]
  cases hx : x.toModel.unpack with
  | zero s => rintro ⟨⟩
  | notANumber | infinity s =>
    rw [hx] at h
    exact h.elim
  | finite s m e hm =>
    rw [hx] at h
    exact normalize_ne_negative_zero _ (le_min h.1.le_exponent (by decide))

theorem eq_zero_of_unpack (h : x.toModel.unpack = .zero .positive) : x = 0 := by
  have hbeq : (x == 0) = true := by
    change (x.toModel.unpack.compare (0 : Float).toModel.unpack == some .eq) = true
    rw [h]
    rfl
  obtain ⟨-, -, hx | ⟨hx, -⟩ | ⟨rfl, -⟩⟩ := Float.beq_iff_ne_nan_and_eq.1 hbeq
  · exact hx
  · exact hx
  · cases h

/-- Both floors are the same integer, if it has at most sixteen bits. -/
theorem floorFloat_eq_ofInt (h : Within (-(65535 / 2)) (65537 / 2) x.toModel.unpack)
    (hzero : x.toModel.unpack ≠ .zero .negative) :
    floorFloat x = Float.ofInt (floorInt32 x).toInt ∧ (floorInt32 x).toInt.natAbs ≤ 2 ^ 15 := by
  cases hx : x.toModel.unpack with
  | zero s =>
    cases s with
    | positive =>
      obtain rfl := eq_zero_of_unpack hx
      exact ⟨rfl, by decide⟩
    | negative => exact absurd hx hzero
  | notANumber | infinity s =>
    rw [hx] at h
    exact h.elim
  | finite s m e hm =>
    rw [hx] at h
    obtain ⟨hneg, hbound⟩ := floor_bounds h
    have hmin : Int32.minValue.toInt = -2147483648 := by decide
    have hmax : Int32.maxValue.toInt = 2147483647 := by decide
    have hfloor : (floorInt32 x).toInt = Scaled.floor ⟨s.apply m, e⟩ := by
      rw [floorInt32, Scaled.ofFloat?, hx]
      exact Int32.toInt_ofIntClamp (by omega) (by omega)
    rw [hfloor, floorFloat, Scaled.ofFloat?, hx]
    exact ⟨if_pos hneg, hbound⟩

end Floor

namespace Fixed

section Snap

variable {x : Float}

/-- Both roundings give one whole number of steps. -/
theorem roundHalfUp_steps (h : Within (-2) 2 x.toModel.unpack) :
    roundHalfUp (x * 16384) = Float.ofInt (nearestSteps x) ∧ (nearestSteps x).natAbs ≤ 2 ^ 15 :=
  floorFloat_eq_ofInt (within_add_half (within_mul_steps h))
    (add_half_ne_negative_zero (within_mul_steps h))

theorem snap_eq_ofSteps (h : Within (-2) 2 x.toModel.unpack) :
    snap x = ofSteps (nearestSteps x) := by
  rw [snap, (roundHalfUp_steps h).1, ofSteps]

end Snap

section Steps

variable {j k : Int}

theorem unpack_ofSteps (hk : k.natAbs ≤ 2 ^ 15) :
    k = 0 ∧ (ofSteps k).toModel.unpack = .zero .positive ∨
      ∃ s n hn, k = s.apply n ∧ n ≤ 2 ^ 15 ∧
        (ofSteps k).toModel.unpack = canonical s n (-14) hn := by
  obtain ⟨rfl, -⟩ | ⟨s, n, hn, rfl, hle, h⟩ := unpack_ofInt k hk
  · exact .inl ⟨rfl, rfl⟩
  · exact .inr ⟨s, n, hn, rfl, hle, unpack_div_steps hn (by omega) h⟩

theorem toRat?_ofSteps (hk : k.natAbs ≤ 2 ^ 15) : toRat? (ofSteps k) = some ((k : ℚ) / 16384) := by
  obtain ⟨rfl, h⟩ | ⟨s, n, hn, rfl, -, h⟩ := unpack_ofSteps hk
  · rw [toRat?, Scaled.ofFloat?, h]
    simp [Scaled.toRat]
  · have hsteps : (2 : ℚ) ^ (-14 : Int) = 1 / 16384 := by norm_num
    have hvalue := canonical_value n (-14)
    rw [toRat?, Scaled.ofFloat?, h, canonical, Option.map_some, Scaled.toRat]
    congr 1
    cases s with
    | positive =>
      simp only [Sign.apply, Int.cast_natCast]
      rw [hvalue, hsteps, mul_one_div]
    | negative =>
      simp only [Sign.apply, Int.cast_neg, Int.cast_natCast, neg_mul]
      rw [hvalue, hsteps, mul_one_div, neg_div]

theorem within_ofSteps (hk : k.natAbs ≤ 2 ^ 15) : Within (-2) 2 (ofSteps k).toModel.unpack :=
  within_div_steps ((unpack_ofInt k hk).imp (fun h => ⟨_, h.2⟩)
    fun ⟨s, n, hn, _, hle, h⟩ => ⟨s, n, hn, hle, h⟩)

/-- A whole number of steps is multiplied by the steps without rounding. -/
theorem unpack_mul_steps {x : Float} {s : Sign} {n : Nat} (hn : 0 < n) (hlt : n < 2 ^ 53)
    (h : x.toModel.unpack = canonical s n (-14) hn) :
    (x * 16384).toModel.unpack = canonical s n 0 hn := by
  have hle := log2_le hlt
  have hsign : s * Sign.positive = s := by cases s <;> rfl
  have hproduct := roundWithAccuracy_exact (Nat.mul_pos hn (Nat.two_pow_pos (52 - n.log2)))
    (log2_mantissa hn hlt) (by omega : -1074 ≤ 0 - ((52 - n.log2 : Nat) : Int)) s 52
  have hexponent : (0 : Int) - ((52 - n.log2 : Nat) : Int) - (52 : Nat) =
      -14 - ((52 - n.log2 : Nat) : Int) + -38 := by omega
  rw [hexponent] at hproduct
  rw [unpack_mul, h, unpack_steps, canonical, UnpackedFloat.mul, hsign, hproduct]
  exact unpack_pack_canonical hn hlt (by omega) (by omega) s

/-- A whole number of steps is its own nearest one. -/
theorem nearestSteps_ofSteps (hk : k.natAbs ≤ 2 ^ 15) : nearestSteps (ofSteps k) = k := by
  have hmin : Int32.minValue.toInt = -2147483648 := by decide
  have hmax : Int32.maxValue.toInt = 2147483647 := by decide
  obtain ⟨rfl, -⟩ | ⟨s, n, hn, rfl, hle, h⟩ := unpack_ofSteps hk
  · rfl
  · have hproduct := unpack_mul_steps hn (by omega) h
    cases s with
    | positive =>
      rw [nearestSteps, roundToInt32_of_positive hn (by omega) hproduct]
      exact Int32.toInt_ofIntClamp (by omega) (by omega)
    | negative =>
      rw [nearestSteps, roundToInt32_of_negative hn (by omega) hproduct]
      exact Int32.toInt_ofIntClamp (by omega) (by omega)

theorem snap_ofSteps (hk : k.natAbs ≤ 2 ^ 15) : snap (ofSteps k) = ofSteps k := by
  rw [snap_eq_ofSteps (within_ofSteps hk), nearestSteps_ofSteps hk]

theorem ofSteps_lt_ofSteps_iff (hj : j.natAbs ≤ 2 ^ 15) (hk : k.natAbs ≤ 2 ^ 15) :
    ofSteps j < ofSteps k ↔ j < k := by
  rw [lt_iff_of_toRat? (toRat?_ofSteps hj) (toRat?_ofSteps hk),
    div_lt_div_iff_of_pos_right (by norm_num), Int.cast_lt]

theorem ofSteps_le_ofSteps_iff (hj : j.natAbs ≤ 2 ^ 15) (hk : k.natAbs ≤ 2 ^ 15) :
    ofSteps j ≤ ofSteps k ↔ j ≤ k := by
  rw [le_iff_of_toRat? (toRat?_ofSteps hj) (toRat?_ofSteps hk),
    div_le_div_iff_of_pos_right (by norm_num), Int.cast_le]

theorem ofSteps_beq_ofSteps (hj : j.natAbs ≤ 2 ^ 15) (hk : k.natAbs ≤ 2 ^ 15) :
    (ofSteps j == ofSteps k) = decide (j = k) := by
  rw [Bool.eq_iff_iff, decide_eq_true_iff,
    beq_iff_of_toRat? (toRat?_ofSteps hj) (toRat?_ofSteps hk),
    div_left_inj' (by norm_num), Int.cast_inj]

theorem minimum_eq_ofSteps : minimum = ofSteps (-32768) := rfl

theorem maximum_eq_ofSteps : maximum = ofSteps 32767 := rfl

theorem two_eq_ofSteps : (2 : Float) = ofSteps 32768 := rfl

/-- Two is the one number of steps above the largest storable number. -/
theorem nearTwo_ofSteps (hk : k.natAbs ≤ 2 ^ 15) : nearTwo (ofSteps k) = decide (k = 32768) := by
  rw [nearTwo, maximum_eq_ofSteps, two_eq_ofSteps, Bool.eq_iff_iff, Bool.and_eq_true,
    decide_eq_true_iff, decide_eq_true_iff, decide_eq_true_iff,
    ofSteps_lt_ofSteps_iff (by decide) hk, ofSteps_le_ofSteps_iff hk (by decide)]
  omega

theorem clamp_ofSteps (hk : k.natAbs ≤ 2 ^ 15) : clamp (ofSteps k) = ofSteps (min k 32767) := by
  rw [clamp, nearTwo_ofSteps hk, maximum_eq_ofSteps]
  by_cases h : k = 32768
  · rw [if_pos (decide_eq_true h), h]
    rfl
  · rw [if_neg (by rwa [decide_eq_true_iff]), min_eq_left (by omega)]

/-- Every number of steps but the last is encoded as that number. -/
theorem encode?_ofSteps (hk : k.natAbs ≤ 2 ^ 15) :
    encode? (ofSteps k) = if k = 32768 then none else some (Int16.ofIntClamp k) := by
  have hrange : minimum ≤ ofSteps k ∧ ofSteps k ≤ maximum ↔ k ≠ 32768 := by
    rw [minimum_eq_ofSteps, maximum_eq_ofSteps, ofSteps_le_ofSteps_iff (by decide) hk,
      ofSteps_le_ofSteps_iff hk (by decide)]
    omega
  by_cases h : k = 32768
  · rw [encode?, if_neg (by rwa [hrange, not_not]), if_pos h]
  · obtain ⟨value, hvalue, hrat⟩ := Option.map_eq_some_iff.1 (toRat?_ofSteps hk)
    rw [encode?, if_pos (hrange.2 h), if_neg h, hvalue, Option.map_some, steps_eq hk hrat]

end Steps

end Fixed

end GlyphDrawing
