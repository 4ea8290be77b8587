import Mathlib
import GlyphDrawing.Drawing.OfGlyph
import GlyphDrawing.Number.Rounding

/-!
# Whole numbers as doubles

A number of at most 53 bits, times a power of two, has one form with all bits of the mantissa in
use (`canonical`). Rounding, packing and unpacking leave it as it is, and so the sum of an integer
of at most 52 bits and one half is exact. Hence the double of a coordinate rounds back to the
coordinate (`roundToInt32_toDouble`).
-/

namespace GlyphDrawing

open Float.Model UnpackedFloat

section Exact

variable {s : Sign} {n c k : Nat} {e : Int}

theorem log2_mul_two_pow (hn : 0 < n) (k : Nat) : (n * 2 ^ k).log2 = n.log2 + k := by
  induction k with
  | zero => rw [Nat.pow_zero, Nat.mul_one, Nat.add_zero]
  | succ k ih =>
    have hne : n * 2 ^ k ≠ 0 := Nat.mul_ne_zero hn.ne' (by positivity)
    rw [Nat.pow_succ', Nat.mul_left_comm, Nat.log2_two_mul hne, ih, Nat.add_assoc]

/-- Zeros that are shifted out leave no trace. -/
theorem shiftRight_mul_two_pow (m k : Nat) :
    (⟨m * 2 ^ k, false, false⟩ : ExtendedMantissa) >>> k = ⟨m, false, false⟩ := by
  induction k generalizing m with
  | zero =>
    rw [Nat.pow_zero, Nat.mul_one]
    rfl
  | succ k ih =>
    have hstep : (⟨m * 2 ^ (k + 1), false, false⟩ : ExtendedMantissa) >>> (k + 1) =
        ((⟨m * 2 * 2 ^ k, false, false⟩ : ExtendedMantissa) >>> k).shiftRightOne := by
      rw [Nat.mul_assoc, ← Nat.pow_succ']
      rfl
    rw [hstep, ih]
    simp [ExtendedMantissa.shiftRightOne]

theorem targetExponent_eq (m : Nat) (e : Int) :
    Format.binary64.targetExponent (totalExponent m e) = max (m.log2 + e - 52) (-1074) := by
  simp only [Format.targetExponent, totalExponent, Format.mantissaBits, Format.minExponent]
  norm_num
  omega

theorem shiftToTargetExponent_exact (hpos : 0 < c) (hc : c.log2 = 52) (he : -1074 ≤ e) (k : Nat) :
    shiftToTargetExponent .binary64 (c * 2 ^ k) (e - k) .exact = (⟨c, false, false⟩, e) := by
  have htarget : Format.binary64.targetExponent (totalExponent (c * 2 ^ k) (e - k)) = e := by
    rw [targetExponent_eq, log2_mul_two_pow hpos, hc]
    omega
  have hshift : (e - (e - k)).toNat = k := by omega
  rw [shiftToTargetExponent, htarget, shiftToExponent, hshift]
  exact Prod.ext (shiftRight_mul_two_pow c k) (sub_add_cancel e k)

/-- A number of 53 bits is not changed by rounding, with any number of zeros behind. -/
theorem roundWithAccuracy_exact (hpos : 0 < c) (hc : c.log2 = 52) (he : -1074 ≤ e) (s : Sign)
    (k : Nat) : roundWithAccuracy .binary64 s (c * 2 ^ k) (e - k) .exact = .finite s c e hpos := by
  have hagain := shiftToTargetExponent_exact hpos hc he 0
  rw [Nat.pow_zero, Nat.mul_one, Int.natCast_zero, sub_zero] at hagain
  simp [roundWithAccuracy, shiftToTargetExponent_exact hpos hc he k, hagain,
    ExtendedMantissa.roundedMantissa, ExtendedMantissa.accuracy, Accuracy.roundToNearestEven,
    hpos.ne']

/-- The number `n * 2 ^ e` or its negative, with all 53 bits of the mantissa in use. -/
def canonical (s : Sign) (n : Nat) (e : Int) (hn : 0 < n) : UnpackedFloat :=
  .finite s (n * 2 ^ (52 - n.log2)) (e - (52 - n.log2 : Nat)) (Nat.mul_pos hn (Nat.two_pow_pos _))

theorem log2_le (hlt : n < 2 ^ 53) : n.log2 ≤ 52 := by
  rcases Nat.eq_zero_or_pos n with rfl | hn
  · simp
  · exact Nat.le_of_lt_succ ((Nat.log2_lt hn.ne').2 hlt)

theorem log2_mantissa (hn : 0 < n) (hlt : n < 2 ^ 53) :
    (n * 2 ^ (52 - n.log2)).log2 = 52 := by
  have := log2_le hlt
  rw [log2_mul_two_pow hn]
  omega

/-- A number of at most 53 bits is not changed by rounding, with any number of zeros behind. -/
theorem round_exact (hn : 0 < n) (hlt : n < 2 ^ 53) (he : -1022 ≤ e) (s : Sign) (k : Nat) :
    round .binary64 s (n * 2 ^ k) (e - k) = canonical s n e hn := by
  have hle := log2_le hlt
  have hlog := log2_mantissa hn hlt
  have htarget : Format.binary64.targetExponent (totalExponent (n * 2 ^ k) (e - k)) =
      e - (52 - n.log2 : Nat) := by
    rw [targetExponent_eq, log2_mul_two_pow hn]
    omega
  have hpos : 0 < n * 2 ^ (52 - n.log2) := Nat.mul_pos hn (Nat.two_pow_pos _)
  have hround (z : Nat) := roundWithAccuracy_exact hpos hlog
    (by omega : -1074 ≤ e - (52 - n.log2 : Nat)) s z
  have hdecrease : e - k - ((e - k - (e - (52 - n.log2 : Nat))).toNat : Int) =
      e - (52 - n.log2 : Nat) - (k - (52 - n.log2) : Nat) := by omega
  have hmantissa : n * 2 ^ k * 2 ^ (e - k - (e - (52 - n.log2 : Nat))).toNat =
      n * 2 ^ (52 - n.log2) * 2 ^ (k - (52 - n.log2)) := by
    rw [Nat.mul_assoc, Nat.mul_assoc, ← Nat.pow_add, ← Nat.pow_add]
    congr 2
    omega
  rw [UnpackedFloat.round, htarget, decreaseExponent, hdecrease, Nat.shiftLeft_eq, hmantissa]
  exact roundWithAccuracy_exact hpos hlog (by omega) s _

theorem pack_exact (hpos : 0 < c) (hc : c.log2 = 52) (he : -1074 ≤ e) (he' : e ≤ 971) (s : Sign) :
    UnpackedFloat.pack .binary64 (.finite s c e hpos) =
      packComponents .binary64 s (BitVec.ofNat 11 (e + 1075).toNat) (BitVec.ofNat 52 c) := by
  have hbias : (e + Format.binary64.exponentBias + Format.binary64.mantissaBitsWithoutImplicit) =
      e + 1075 := by
    change e + 1023 + 52 = e + 1075
    omega
  have hsmall : ¬ 2 ^ Format.binary64.exponentBits ≤ (e + 1075).toNat + 1 := by
    change ¬ 2048 ≤ (e + 1075).toNat + 1
    omega
  simp only [UnpackedFloat.pack, hbias, if_neg hsmall, hc]
  rfl

theorem toNat_mantissa (hpos : 0 < c) (hc : c.log2 = 52) :
    (1#1 ++ BitVec.ofNat 52 c).toNat = c := by
  obtain ⟨hlow, hhigh⟩ := (Nat.log2_eq_iff hpos.ne').1 hc
  have hrest : (BitVec.ofNat 52 c).toNat = c - 2 ^ 52 := by
    rw [BitVec.toNat_ofNat]
    omega
  rw [BitVec.toNat_append, hrest,
    ← Nat.shiftLeft_add_eq_or_of_lt (by omega : c - 2 ^ 52 < 2 ^ 52)]
  rw [show (1#1).toNat = 1 from rfl, Nat.one_shiftLeft, Nat.add_sub_cancel' hlow]

/-- Packed and unpacked again, a number of 53 bits in the range of doubles is the same. -/
theorem unpack_pack (hpos : 0 < c) (hc : c.log2 = 52) (he : -1074 ≤ e) (he' : e ≤ 971) (s : Sign) :
    (Float.Model.pack (.finite s c e hpos)).unpack = .finite s c e hpos := by
  have hexponent : (BitVec.ofNat 11 (e + 1075).toNat).toNat = (e + 1075).toNat :=
    Nat.mod_eq_of_lt (by omega)
  have hmax : BitVec.ofNat 11 (e + 1075).toNat ≠ -1#11 := fun h => by
    have := hexponent.symm.trans (congrArg BitVec.toNat h)
    change (e + 1075).toNat = 2047 at this
    omega
  have hzero : BitVec.ofNat 11 (e + 1075).toNat ≠ 0#11 := fun h => by
    have := hexponent.symm.trans (congrArg BitVec.toNat h)
    change (e + 1075).toNat = 0 at this
    omega
  change UnpackedFloat.unpack .binary64 (UnpackedFloat.pack .binary64 _) = _
  rw [pack_exact hpos hc he he']
  simp only [UnpackedFloat.unpack, unpackMantissa_packComponents, unpackExponent_packComponents,
    unpackSign_packComponents, Sign.ofBitVec_toBitVec]
  rw [if_neg hmax, if_neg hzero]
  congr 1
  · exact toNat_mantissa hpos hc
  · rw [hexponent]
    change ((e + 1075).toNat : Int) - (1023 + 52) = e
    omega

theorem unpack_pack_canonical (hn : 0 < n) (hlt : n < 2 ^ 53) (he : -1022 ≤ e) (he' : e ≤ 971)
    (s : Sign) : (Float.Model.pack (canonical s n e hn)).unpack = canonical s n e hn := by
  have hle := log2_le hlt
  exact unpack_pack _ (log2_mantissa hn hlt) (by omega) (by omega) s

end Exact

section Whole

variable {n : Nat} {s : Sign} {e : Int}

theorem normalize_natCast (hn : 0 < n) (e : Int) (zero : Sign) :
    UnpackedFloat.normalize .binary64 n e zero = UnpackedFloat.round .binary64 .positive n e := by
  have hcompare : compare (n : Int) 0 = .gt := Int.compare_eq_gt.2 (by omega)
  rw [UnpackedFloat.normalize, hcompare, Int.toNat_natCast]

theorem normalize_neg_natCast (hn : 0 < n) (e : Int) (zero : Sign) :
    UnpackedFloat.normalize .binary64 (-n) e zero =
      UnpackedFloat.round .binary64 .negative n e := by
  have hcompare : compare (-n : Int) 0 = .lt := Int.compare_eq_lt.2 (by omega)
  rw [UnpackedFloat.normalize, hcompare, neg_neg, Int.toNat_natCast]

theorem unpack_toFloat (hn : 0 < n) (hlt : n < 2 ^ 53) :
    n.toUInt64.toFloat.toModel.unpack = canonical .positive n 0 hn := by
  have htoNat : n.toUInt64.toNat = n := UInt64.toNat_ofNat_of_lt' (hlt.trans (by decide))
  have hround := round_exact hn hlt (by omega : (-1022 : Int) ≤ 0) .positive 0
  rw [Nat.pow_zero, Nat.mul_one, Int.natCast_zero, sub_zero] at hround
  have hvalue : UnpackedFloat.ofUInt64 .binary64 n.toUInt64 = canonical .positive n 0 hn := by
    rw [UnpackedFloat.ofUInt64, UnpackedFloat.ofNat, UnpackedFloat.ofInt, htoNat,
      normalize_natCast hn, hround]
  change (Float.Model.pack (UnpackedFloat.ofUInt64 .binary64 n.toUInt64)).unpack = _
  rw [hvalue, unpack_pack_canonical hn hlt (by omega) (by omega)]

theorem unpack_ten_pow_zero :
    (Float.exactlyRepresentablePowersOfTen[0]).toModel.unpack =
      .finite .positive (2 ^ 52) (-52) (by decide) := rfl

theorem unpack_ofNat (hn : 0 < n) (hlt : n < 2 ^ 53) :
    (Float.ofNat n).toModel.unpack = canonical .positive n 0 hn := by
  have hproduct : Float.ofNat n =
      n.toUInt64.toFloat * Float.exactlyRepresentablePowersOfTen[0] :=
    dif_pos ⟨hlt, by decide⟩
  have hle := log2_le hlt
  have hround := roundWithAccuracy_exact (Nat.mul_pos hn (Nat.two_pow_pos (52 - n.log2)))
    (log2_mantissa hn hlt) (by omega : -1074 ≤ 0 - ((52 - n.log2 : Nat) : Int)) .positive 52
  rw [hproduct]
  change (Float.Model.pack (UnpackedFloat.mul .binary64 n.toUInt64.toFloat.toModel.unpack
    (Float.exactlyRepresentablePowersOfTen[0]).toModel.unpack)).unpack = _
  rw [unpack_toFloat hn hlt, unpack_ten_pow_zero]
  exact (congrArg (fun x => (Float.Model.pack x).unpack) hround).trans
    (unpack_pack_canonical hn hlt (by omega) (by omega) _)

theorem unpack_ofInt_natCast (hn : 0 < n) (hlt : n < 2 ^ 53) :
    (Float.ofInt n).toModel.unpack = canonical .positive n 0 hn :=
  unpack_ofNat hn hlt

theorem unpack_ofInt_neg_natCast (hn : 0 < n) (hlt : n < 2 ^ 53) :
    (Float.ofInt (-n)).toModel.unpack = canonical .negative n 0 hn := by
  obtain ⟨m, rfl⟩ := Nat.exists_eq_succ_of_ne_zero hn.ne'
  change (Float.Model.pack (Float.ofNat m.succ).toModel.unpack.neg).unpack = _
  rw [unpack_ofNat hn hlt]
  exact unpack_pack_canonical hn hlt (by omega) (by omega) _

theorem unpack_half : (0.5 : Float).toModel.unpack = .finite .positive (2 ^ 52) (-53) (by decide) :=
  rfl

/-- Half of an odd number is what a number and one half add up to, without rounding. -/
theorem add_half (hn : 0 < n) (hlt : n < 2 ^ 52) (s : Sign) :
    UnpackedFloat.add .binary64 (canonical s n 0 hn)
        (.finite .positive (2 ^ 52) (-53) (by decide)) =
      UnpackedFloat.normalize .binary64 ((2 * s.apply n + 1) * 2 ^ 52) (-53) .positive := by
  have hle := log2_le (hlt.trans (by decide : 2 ^ 52 < 2 ^ 53))
  have hsmaller : min (0 - ((52 - n.log2 : Nat) : Int)) (-53) = -53 := by omega
  have hshift : (0 - ((52 - n.log2 : Nat) : Int) - -53).toNat = n.log2 + 1 := by omega
  have hpower : 2 ^ (52 - n.log2) * 2 ^ (n.log2 + 1) = 2 ^ 53 := by
    rw [← Nat.pow_add]
    congr 1
    omega
  rw [canonical, UnpackedFloat.add, hsmaller]
  simp only [decreaseExponent, hshift, Nat.shiftLeft_eq, Nat.mul_assoc, hpower]
  congr 1
  cases s <;> simp [Sign.apply] <;> ring

theorem floor_half (p : Int) (j : Nat) :
    Scaled.floor ⟨p * 2 ^ j, -1 - (j : Int)⟩ = p / 2 := by
  have hleft : (-1 - (j : Int)).toNat = 0 := by omega
  have hright : (-(-1 - (j : Int))).toNat = j + 1 := by omega
  have hpos : (0 : Int) < 2 ^ j := by positivity
  rw [Scaled.floor, hleft, hright, Int.shiftLeft_zero, Int.shiftRight_eq_div_pow, Nat.pow_succ',
    Int.natCast_mul, Int.natCast_pow]
  exact Int.mul_ediv_mul_of_pos_left p 2 hpos

theorem floorInt32_of_unpack {x : Float} (hn : 0 < n)
    (h : x.toModel.unpack = canonical s n (-1) hn) :
    floorInt32 x = Int32.ofIntClamp (s.apply n / 2) := by
  have hscaled : Scaled.ofFloat? x =
      some ⟨s.apply n * 2 ^ (52 - n.log2), -1 - ((52 - n.log2 : Nat) : Int)⟩ := by
    rw [Scaled.ofFloat?, h]
    cases s <;> simp [canonical, Sign.apply]
  rw [floorInt32, hscaled]
  change Int32.ofIntClamp (Scaled.floor _) = _
  rw [floor_half]

theorem unpack_add_half {x : Float} (hn : 0 < n) (hlt : n < 2 ^ 52)
    (h : x.toModel.unpack = canonical s n 0 hn) :
    (x + 0.5).toModel.unpack =
      (Float.Model.pack (UnpackedFloat.normalize .binary64 ((2 * s.apply n + 1) * 2 ^ 52) (-53)
        .positive)).unpack := by
  change (Float.Model.pack (UnpackedFloat.add .binary64 x.toModel.unpack
    (0.5 : Float).toModel.unpack)).unpack = _
  rw [h, unpack_half, add_half hn hlt]

theorem roundToInt32_of_positive {x : Float} (hn : 0 < n) (hlt : n < 2 ^ 52)
    (h : x.toModel.unpack = canonical .positive n 0 hn) :
    roundToInt32 x = Int32.ofIntClamp n := by
  have hodd : ((2 * Sign.positive.apply n + 1) * 2 ^ 52 : Int) =
      ((2 * n + 1) * 2 ^ 52 : Nat) := by
    simp [Sign.apply]
  have hround := round_exact (by omega : 0 < 2 * n + 1) (by omega) (by omega : (-1022 : Int) ≤ -1)
    .positive 52
  have hsum := unpack_add_half hn hlt h
  rw [hodd, normalize_natCast (by omega), show (-53 : Int) = -1 - (52 : Nat) from rfl, hround,
    unpack_pack_canonical (by omega) (by omega) (by omega) (by omega)] at hsum
  rw [roundToInt32, floorInt32_of_unpack _ hsum]
  congr 1
  simp only [Sign.apply]
  omega

theorem roundToInt32_of_negative {x : Float} (hn : 0 < n) (hlt : n < 2 ^ 52)
    (h : x.toModel.unpack = canonical .negative n 0 hn) :
    roundToInt32 x = Int32.ofIntClamp (-n) := by
  have hodd : ((2 * Sign.negative.apply n + 1) * 2 ^ 52 : Int) =
      -((2 * n - 1) * 2 ^ 52 : Nat) := by
    rw [Int.natCast_mul, Int.natCast_sub (by omega)]
    simp only [Sign.apply]
    push_cast
    ring
  have hround := round_exact (by omega : 0 < 2 * n - 1) (by omega) (by omega : (-1022 : Int) ≤ -1)
    .negative 52
  have hsum := unpack_add_half hn hlt h
  rw [hodd, normalize_neg_natCast (by omega), show (-53 : Int) = -1 - (52 : Nat) from rfl, hround,
    unpack_pack_canonical (by omega) (by omega) (by omega) (by omega)] at hsum
  rw [roundToInt32, floorInt32_of_unpack _ hsum]
  congr 1
  simp only [Sign.apply]
  omega

theorem roundToInt32_ofInt {z : Int} (hz : z.natAbs < 2 ^ 52) :
    roundToInt32 (Float.ofInt z) = Int32.ofIntClamp z := by
  obtain ⟨n, rfl | rfl⟩ := z.eq_nat_or_neg
  · rcases Nat.eq_zero_or_pos n with rfl | hn
    · decide +kernel
    · have hlt : n < 2 ^ 52 := by simpa using hz
      exact roundToInt32_of_positive hn hlt (unpack_ofInt_natCast hn (by omega))
  · rcases Nat.eq_zero_or_pos n with rfl | hn
    · decide +kernel
    · have hlt : n < 2 ^ 52 := by simpa using hz
      exact roundToInt32_of_negative hn hlt (unpack_ofInt_neg_natCast hn (by omega))

/-- Every coordinate of an outline is a double that rounds to it. -/
theorem roundToInt32_toDouble (z : Int32) : roundToInt32 (toDouble z) = z := by
  have hlow := z.le_toInt
  have hhigh := z.toInt_lt
  rw [toDouble, roundToInt32_ofInt (by omega), Int32.ofIntClamp_toInt]

theorem toDouble_ne_nan (z : Int32) : toDouble z ≠ Float.nan := by
  intro hnan
  have hzero : z = 0 := by
    rw [← roundToInt32_toDouble z, hnan]
    decide +kernel
  rw [hzero] at hnan
  exact absurd hnan (by decide +kernel)

/-- Doubles of coordinates are compared as the coordinates are. -/
theorem toDouble_beq_toDouble (y z : Int32) : (toDouble y == toDouble z) = decide (y = z) := by
  rw [Bool.eq_iff_iff, decide_eq_true_iff, Float.beq_iff_ne_nan_and_eq]
  constructor
  · rintro ⟨-, -, hsame | ⟨hy, hz⟩ | ⟨hy, hz⟩⟩
    · rw [← roundToInt32_toDouble y, hsame, roundToInt32_toDouble z]
    -- the two zeros round to the same integer
    · rw [← roundToInt32_toDouble y, ← roundToInt32_toDouble z, hy, hz]
      decide +kernel
    · rw [← roundToInt32_toDouble y, ← roundToInt32_toDouble z, hy, hz]
      decide +kernel
  · rintro rfl
    exact ⟨toDouble_ne_nan y, toDouble_ne_nan y, .inl rfl⟩

end Whole

end GlyphDrawing
