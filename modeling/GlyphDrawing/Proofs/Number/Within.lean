import GlyphDrawing.Proofs.Number.Whole

/-!
# Rounding within bounds

Rounding to a double does not pass another double: if the exact result of an operation lies between
two doubles on either side of zero, so does the rounded one (`round_le`, `within_normalize`).
What has been rounded within bounds is packed without loss (`Within.unpack_pack`).
-/

namespace GlyphDrawing

open Float.Model UnpackedFloat

structure Regular (m : Nat) (e : Int) : Prop where
  lt_two_pow : m < 2 ^ 53
  le_exponent : -1074 ≤ e
  exponent_le : e ≤ 971
  normal : 2 ^ 52 ≤ m ∨ e = -1074

def Within (low high : ℚ) : UnpackedFloat → Prop
  | .zero _ => True
  | .finite s m e _ =>
    Regular m e ∧ low ≤ s.apply m * (2 : ℚ) ^ e ∧ s.apply m * (2 : ℚ) ^ e ≤ high
  | .infinity _ | .notANumber => False

/-- A double that is not negative, and is not among the largest. -/
structure Dyadic (b : ℚ) : Prop where
  exists_eq : ∃ (c : Nat) (e : Int), c < 2 ^ 53 ∧ -1074 ≤ e ∧ e ≤ 970 ∧ b = c * (2 : ℚ) ^ e

section Pack

variable {s : Sign} {m : Nat} {e : Int}

theorem toNat_append_mantissa (v : BitVec 52) : (1#1 ++ v).toNat = 2 ^ 52 + v.toNat := by
  rw [BitVec.toNat_append, ← Nat.shiftLeft_add_eq_or_of_lt v.isLt]
  rfl

theorem regular_of_unpack {x : Float.Model} {hm : 0 < m} (h : x.unpack = .finite s m e hm) :
    Regular m e := by
  change UnpackedFloat.unpack .binary64 x.toBits.toBitVec = _ at h
  simp only [UnpackedFloat.unpack] at h
  have hmantissa : (@unpackMantissa .binary64 x.toBits.toBitVec).toNat < 2 ^ 52 := BitVec.isLt _
  have hexponent : (@unpackExponent .binary64 x.toBits.toBitVec).toNat < 2 ^ 11 := BitVec.isLt _
  have happend := toNat_append_mantissa (@unpackMantissa .binary64 x.toBits.toBitVec)
  split_ifs at h with hmax hinf hzero hnone
  · obtain ⟨-, rfl, rfl⟩ := UnpackedFloat.finite.inj h
    refine ⟨by omega, ?_, ?_, .inr ?_⟩ <;> rw [hzero] <;> decide
  · obtain ⟨-, rfl, rfl⟩ := UnpackedFloat.finite.inj h
    have hpos : (@unpackExponent .binary64 x.toBits.toBitVec).toNat ≠ 0 :=
      fun h0 => hzero (BitVec.eq_of_toNat_eq h0)
    have hlt : (@unpackExponent .binary64 x.toBits.toBitVec).toNat ≠ 2047 :=
      fun h0 => hmax (BitVec.eq_of_toNat_eq h0)
    have hbias : (Format.binary64.exponentBias + (52 : Nat) : Int) = 1075 := rfl
    exact ⟨by omega, by omega, by omega, .inl (by omega)⟩

theorem unpack_pack_subnormal (hm : 0 < m) (hlt : m < 2 ^ 52) (s : Sign) :
    (Float.Model.pack (.finite s m (-1074) hm)).unpack = .finite s m (-1074) hm := by
  have hlog : m.log2 + 1 ≠ 53 := by
    have := (Nat.log2_lt hm.ne').2 hlt
    omega
  have htoNat : (BitVec.ofNat 52 m).toNat = m := Nat.mod_eq_of_lt hlt
  have hne : BitVec.ofNat 52 m ≠ 0#52 := fun h =>
    hm.ne' (htoNat.symm.trans (congrArg BitVec.toNat h))
  have hpack : UnpackedFloat.pack .binary64 (.finite s m (-1074) hm) =
      packComponents .binary64 s 0#11 (BitVec.ofNat 52 m) :=
    if_neg hlog
  change UnpackedFloat.unpack .binary64 (UnpackedFloat.pack .binary64 _) = _
  rw [hpack]
  simp only [UnpackedFloat.unpack, unpackMantissa_packComponents, unpackExponent_packComponents,
    unpackSign_packComponents, Sign.ofBitVec_toBitVec]
  rw [if_neg (by decide), if_pos trivial, dif_neg hne]
  congr 1

theorem Regular.unpack_pack (h : Regular m e) (hm : 0 < m) (s : Sign) :
    (Float.Model.pack (.finite s m e hm)).unpack = .finite s m e hm := by
  obtain ⟨hlt, hlow, hhigh, hnormal⟩ := h
  by_cases hlarge : 2 ^ 52 ≤ m
  · exact GlyphDrawing.unpack_pack hm ((Nat.log2_eq_iff hm.ne').2 ⟨hlarge, hlt⟩) hlow hhigh s
  · obtain rfl : e = -1074 := hnormal.resolve_left hlarge
    exact unpack_pack_subnormal hm (by omega) s

theorem Within.unpack_pack {low high : ℚ} {u : UnpackedFloat} (h : Within low high u) :
    (Float.Model.pack u).unpack = u := by
  cases u with
  | zero s => cases s <;> rfl
  | finite s m e hm => exact h.1.unpack_pack hm s
  | infinity s => exact h.elim
  | notANumber => exact h.elim

end Pack

section Shift

variable {m k b : Nat} {e : Int}

theorem mantissa_shiftRight (em : ExtendedMantissa) (k : Nat) :
    (em >>> k).mantissa = em.mantissa / 2 ^ k := by
  induction k with
  | zero =>
    rw [Nat.pow_zero, Nat.div_one]
    rfl
  | succ k ih =>
    change (em >>> k).mantissa / 2 = _
    rw [ih, Nat.div_div_eq_div_mul, Nat.pow_succ]

theorem roundedMantissa_bounds (em : ExtendedMantissa) :
    em.mantissa ≤ em.roundedMantissa ∧ em.roundedMantissa ≤ em.mantissa + 1 := by
  obtain ⟨m, roundBit, stickyBit⟩ := em
  rw [ExtendedMantissa.roundedMantissa]
  cases roundBit <;> cases stickyBit <;>
    simp only [ExtendedMantissa.accuracy, Accuracy.roundToNearestEven] <;> omega

/-- The mantissa that is left when `k` bits of `m` are rounded away. -/
def roundedAway (m k : Nat) : Nat :=
  ((⟨m, false, false⟩ : ExtendedMantissa) >>> k).roundedMantissa

theorem div_le_roundedAway (m k : Nat) : m / 2 ^ k ≤ roundedAway m k := by
  rw [← mantissa_shiftRight ⟨m, false, false⟩]
  exact (roundedMantissa_bounds _).1

/-- Rounding up does not pass a whole number. -/
theorem roundedAway_le (h : m ≤ b * 2 ^ k) : roundedAway m k ≤ b := by
  have hpos : 0 < 2 ^ k := Nat.two_pow_pos k
  by_cases hdvd : 2 ^ k ∣ m
  · obtain ⟨n, rfl⟩ := hdvd
    rw [Nat.mul_comm] at h
    rw [roundedAway, Nat.mul_comm, shiftRight_mul_two_pow]
    exact Nat.le_of_mul_le_mul_right h hpos
  · have hlt : m < b * 2 ^ k := lt_of_le_of_ne h fun heq => hdvd ⟨b, by rw [heq, Nat.mul_comm]⟩
    have hdiv : m / 2 ^ k < b := (Nat.div_lt_iff_lt_mul hpos).2 hlt
    have hround := (roundedMantissa_bounds ((⟨m, false, false⟩ : ExtendedMantissa) >>> k)).2
    rw [mantissa_shiftRight] at hround
    exact hround.trans hdiv

theorem shiftToTargetExponent_eq (m : Nat) (e : Int) :
    shiftToTargetExponent .binary64 m e .exact =
      ((⟨m, false, false⟩ : ExtendedMantissa) >>> (max (m.log2 + e - 52) (-1074) - e).toNat,
        e + (max (m.log2 + e - 52) (-1074) - e).toNat) := by
  rw [shiftToTargetExponent, targetExponent_eq]
  rfl

end Shift

section Round

variable {s : Sign} {m r n c : Nat} {e t t' : Int} {em : ExtendedMantissa} {b : ℚ}

theorem roundWithAccuracy_of_shifts
    (hfirst : shiftToTargetExponent .binary64 m e .exact = (em, t)) (hr : em.roundedMantissa = r)
    (hsecond : shiftToTargetExponent .binary64 r t .exact = (⟨n, false, false⟩, t'))
    (hn : 0 < n) (s : Sign) : roundWithAccuracy .binary64 s m e .exact = .finite s n t' hn := by
  simp [roundWithAccuracy, hfirst, hr, hsecond, hn.ne']

theorem roundWithAccuracy_of_shift_eq_zero
    (hfirst : shiftToTargetExponent .binary64 m e .exact = (em, t)) (hr : em.roundedMantissa = 0)
    (s : Sign) : roundWithAccuracy .binary64 s m e .exact = .zero s := by
  have hzero (k : Nat) : ((⟨0, false, false⟩ : ExtendedMantissa) >>> k).mantissa = 0 := by
    rw [mantissa_shiftRight, Nat.zero_div]
  simp [roundWithAccuracy, hfirst, hr, shiftToTargetExponent_eq, hzero]

/-- A number that is at most a double is rounded to an exponent that the double has too. -/
theorem target_le {eb : Int} (hm : 0 < m) (hc : c < 2 ^ 53) (hb : -1074 ≤ eb)
    (h : m * (2 : ℚ) ^ e ≤ c * (2 : ℚ) ^ eb) : max (m.log2 + e - 52) (-1074) ≤ eb := by
  have hlow : (2 : ℚ) ^ (m.log2 + e) ≤ m * (2 : ℚ) ^ e := by
    rw [zpow_add₀ two_ne_zero, zpow_natCast]
    gcongr
    exact_mod_cast Nat.log2_self_le hm.ne'
  have hhigh : c * (2 : ℚ) ^ eb < (2 : ℚ) ^ (53 + eb) := by
    rw [zpow_add₀ two_ne_zero]
    gcongr
    exact_mod_cast hc
  have hlt := (zpow_lt_zpow_iff_right₀ (one_lt_two : (1 : ℚ) < 2)).1 ((hlow.trans h).trans_lt hhigh)
  omega

/-- What `k` bits are rounded away from is a multiple of `2 ^ k` at most the bound. -/
theorem roundedAway_mul_le {eb : Int} (he : e ≤ t) (ht : t ≤ eb)
    (h : m * (2 : ℚ) ^ e ≤ c * (2 : ℚ) ^ eb) :
    roundedAway m (t - e).toNat * (2 : ℚ) ^ t ≤ c * (2 : ℚ) ^ eb := by
  have hsplit : c * (2 : ℚ) ^ eb = (c * 2 ^ (eb - t).toNat : Nat) * (2 : ℚ) ^ t := by
    push_cast
    rw [← zpow_natCast, mul_assoc, ← zpow_add₀ two_ne_zero]
    congr 2
    omega
  have hsplit' : (2 : ℚ) ^ t = (2 ^ (t - e).toNat : Nat) * (2 : ℚ) ^ e := by
    push_cast
    rw [← zpow_natCast, ← zpow_add₀ two_ne_zero]
    congr 1
    omega
  have hpos : (0 : ℚ) < (2 : ℚ) ^ e := by positivity
  rw [hsplit] at h ⊢
  have hm : m ≤ c * 2 ^ (eb - t).toNat * 2 ^ (t - e).toNat := by
    rw [hsplit', ← mul_assoc] at h
    exact_mod_cast le_of_mul_le_mul_right h hpos
  have hround : (roundedAway m (t - e).toNat : ℚ) ≤ (c * 2 ^ (eb - t).toNat : Nat) :=
    Nat.cast_le.2 (roundedAway_le hm)
  exact mul_le_mul_of_nonneg_right hround (by positivity)

/-- Shifted to its target exponent and rounded, a mantissa has 53 bits, or it is the next power of
two, or the exponent is the least one. -/
theorem roundedAway_bounds (hm : 0 < m) (he : e ≤ t) (ht : max (m.log2 + e - 52) (-1074) = t) :
    roundedAway m (t - e).toNat ≤ 2 ^ 53 ∧ (2 ^ 52 ≤ roundedAway m (t - e).toNat ∨ t = -1074) := by
  constructor
  · refine roundedAway_le ?_
    have hlt : m < 2 ^ (m.log2 + 1) := Nat.lt_log2_self
    have hpow : 2 ^ (m.log2 + 1) ≤ 2 ^ (53 + (t - e).toNat) :=
      Nat.pow_le_pow_right two_pos (by omega)
    rw [← Nat.pow_add]
    exact (hlt.trans_le hpow).le
  · by_cases hleast : t = -1074
    · exact .inr hleast
    · refine .inl (le_trans ?_ (div_le_roundedAway m _))
      rw [Nat.le_div_iff_mul_le (Nat.two_pow_pos _), ← Nat.pow_add,
        show 52 + (t - e).toNat = m.log2 by omega]
      exact Nat.log2_self_le hm.ne'

theorem shiftToTargetExponent_of_lt (hr : r < 2 ^ 53) (ht : -1074 ≤ t) :
    shiftToTargetExponent .binary64 r t .exact = (⟨r, false, false⟩, t) := by
  have hlog := log2_le hr
  have hshift : (max (r.log2 + t - 52) (-1074) - t).toNat = 0 := by omega
  rw [shiftToTargetExponent_eq, hshift, Nat.cast_zero, add_zero]
  rfl

theorem shiftToTargetExponent_two_pow (ht : -1074 ≤ t) :
    shiftToTargetExponent .binary64 (2 ^ 53) t .exact = (⟨2 ^ 52, false, false⟩, t + 1) := by
  have hlog : (2 ^ 53).log2 = 53 := Nat.log2_two_pow
  have hshift : (max (((2 ^ 53).log2 : Nat) + t - 52) (-1074) - t).toNat = 1 := by omega
  rw [shiftToTargetExponent_eq, hshift]
  rfl

/-- What is left after rounding away is the result, in a form with at most 53 bits. -/
theorem roundWithAccuracy_of_roundedAway_pos (hm : 0 < m) (he : e ≤ t)
    (ht : max (m.log2 + e - 52) (-1074) = t) (hr : 0 < roundedAway m (t - e).toNat) (s : Sign) :
    ∃ n t' hn, roundWithAccuracy .binary64 s m e .exact = .finite s n t' hn ∧ n < 2 ^ 53 ∧
      t ≤ t' ∧ t' ≤ t + 1 ∧ (2 ^ 52 ≤ n ∨ t' = -1074) ∧
      n * (2 : ℚ) ^ t' = roundedAway m (t - e).toNat * (2 : ℚ) ^ t := by
  obtain ⟨hmax, hnormal⟩ := roundedAway_bounds hm he ht
  have hleast : -1074 ≤ t := ht ▸ le_max_right _ _
  have hfirst := shiftToTargetExponent_eq m e
  rw [ht, show e + (t - e).toNat = t by omega] at hfirst
  have hshift : ((⟨m, false, false⟩ : ExtendedMantissa) >>> (t - e).toNat).roundedMantissa =
      roundedAway m (t - e).toNat := rfl
  generalize roundedAway m (t - e).toNat = r at hr hmax hnormal hshift
  -- rounding up may carry into one more bit, which the second shift takes away again
  rcases hmax.lt_or_eq with hlt | rfl
  · exact ⟨r, t, hr,
      roundWithAccuracy_of_shifts hfirst hshift (shiftToTargetExponent_of_lt hlt hleast) hr s,
      hlt, le_rfl, by omega, hnormal, rfl⟩
  · have hnext : ((2 ^ 52 : Nat) : ℚ) * (2 : ℚ) ^ (t + 1) = ((2 ^ 53 : Nat) : ℚ) * (2 : ℚ) ^ t := by
      rw [zpow_add_one₀ two_ne_zero]
      push_cast
      ring
    exact ⟨2 ^ 52, t + 1, Nat.two_pow_pos 52,
      roundWithAccuracy_of_shifts hfirst hshift (shiftToTargetExponent_two_pow hleast) _ s,
      by decide, by omega, le_rfl, .inl le_rfl, hnext⟩

/-- Rounding by shifting out does not pass a double. -/
theorem roundWithAccuracy_le (hb : Dyadic b) (hm : 0 < m)
    (he : e ≤ max (m.log2 + e - 52) (-1074)) (h : m * (2 : ℚ) ^ e ≤ b) (s : Sign) :
    roundWithAccuracy .binary64 s m e .exact = .zero s ∨
      ∃ n t hn, roundWithAccuracy .binary64 s m e .exact = .finite s n t hn ∧ Regular n t ∧
        n * (2 : ℚ) ^ t ≤ b := by
  obtain ⟨c, eb, hc, hlow, hhigh, rfl⟩ := hb
  have hle := target_le hm hc hlow h
  have hleast : -1074 ≤ max (m.log2 + e - 52) (-1074) := le_max_right _ _
  have hfirst := shiftToTargetExponent_eq m e
  generalize htarget : max (m.log2 + e - 52) (-1074) = t at he hle hfirst hleast
  rcases Nat.eq_zero_or_pos (roundedAway m (t - e).toNat) with hzero | hpos
  · exact .inl (roundWithAccuracy_of_shift_eq_zero hfirst hzero s)
  · obtain ⟨n, t', hn, hround, hlt, ht, ht', hnormal, hvalue⟩ :=
      roundWithAccuracy_of_roundedAway_pos hm he htarget hpos s
    exact .inr ⟨n, t', hn, hround, ⟨hlt, by omega, by omega, hnormal⟩,
      hvalue.trans_le (roundedAway_mul_le he hle h)⟩

/-- A multiple of the least double is not rounded to zero. -/
theorem round_ne_zero (hm : 0 < m) (he : -1074 ≤ e) (s s' : Sign) :
    UnpackedFloat.round .binary64 s m e ≠ .zero s' := by
  rw [UnpackedFloat.round, targetExponent_eq, decreaseExponent, Nat.shiftLeft_eq]
  generalize hk : (e - max (m.log2 + e - 52) (-1074)).toNat = k
  have hlog := log2_mul_two_pow hm k
  have hpos : 0 < m * 2 ^ k := Nat.mul_pos hm (Nat.two_pow_pos k)
  obtain ⟨-, hnormal⟩ := roundedAway_bounds (t := max ((m * 2 ^ k).log2 + (e - k) - 52) (-1074))
    hpos (by omega) rfl
  have hrounded : 0 < roundedAway (m * 2 ^ k)
      (max ((m * 2 ^ k).log2 + (e - k) - 52) (-1074) - (e - k)).toNat := by
    rcases hnormal with hlarge | hleast
    · omega
    -- on the grid of the least double nothing is rounded away
    · rw [show (max (((m * 2 ^ k).log2 : Nat) + (e - k) - 52) (-1074) - (e - k)).toNat = 0 by omega]
      exact hpos
  obtain ⟨n, t, hn, hround, -⟩ :=
    roundWithAccuracy_of_roundedAway_pos hpos (by omega) rfl hrounded s
  intro hzero
  exact UnpackedFloat.noConfusion (hround.symm.trans hzero)

/-- Rounding does not pass a double. -/
theorem round_le (hb : Dyadic b) (hm : 0 < m) (h : m * (2 : ℚ) ^ e ≤ b) (s : Sign) :
    UnpackedFloat.round .binary64 s m e = .zero s ∨
      ∃ n t hn, UnpackedFloat.round .binary64 s m e = .finite s n t hn ∧ Regular n t ∧
        n * (2 : ℚ) ^ t ≤ b := by
  rw [UnpackedFloat.round, targetExponent_eq, decreaseExponent]
  generalize hk : (e - max (m.log2 + e - 52) (-1074)).toNat = k
  have hlog := log2_mul_two_pow hm k
  have hvalue : ((m * 2 ^ k : Nat) : ℚ) * (2 : ℚ) ^ (e - k) = m * (2 : ℚ) ^ e := by
    push_cast
    rw [← zpow_natCast, mul_assoc, ← zpow_add₀ two_ne_zero, add_sub_cancel]
  rw [Nat.shiftLeft_eq]
  refine roundWithAccuracy_le hb (Nat.mul_pos hm (Nat.two_pow_pos k)) ?_ (hvalue ▸ h) s
  rw [hlog]
  omega

theorem Dyadic.nonneg (hb : Dyadic b) : 0 ≤ b := by
  obtain ⟨c, e, -, -, -, rfl⟩ := hb
  positivity

/-- A bound for the magnitude bounds the number on the side of its sign. -/
theorem within_of_le {low high : ℚ} {u : UnpackedFloat} (hlow : 0 ≤ low) (hhigh : 0 ≤ high)
    (hpositive : s = .positive → b ≤ high) (hnegative : s = .negative → b ≤ low)
    (h : u = .zero s ∨ ∃ n t hn, u = .finite s n t hn ∧ Regular n t ∧ n * (2 : ℚ) ^ t ≤ b) :
    Within (-low) high u := by
  obtain rfl | ⟨n, t, hn, rfl, hregular, hle⟩ := h
  · trivial
  have hpos : 0 ≤ n * (2 : ℚ) ^ t := by positivity
  refine ⟨hregular, ?_⟩
  cases s with
  | positive =>
    have := hpositive rfl
    simp only [Sign.apply, Int.cast_natCast]
    constructor <;> linarith
  | negative =>
    have := hnegative rfl
    simp only [Sign.apply, Int.cast_neg, Int.cast_natCast, neg_mul]
    constructor <;> linarith

theorem within_normalize {z : Int} {low high : ℚ} (hlow : Dyadic low) (hhigh : Dyadic high)
    (hle : -low ≤ z * (2 : ℚ) ^ e) (hge : z * (2 : ℚ) ^ e ≤ high) (zero : Sign) :
    Within (-low) high (UnpackedFloat.normalize .binary64 z e zero) := by
  obtain ⟨n, hz⟩ := z.eq_nat_or_neg
  rcases Nat.eq_zero_or_pos n with rfl | hn
  · obtain rfl : z = 0 := by omega
    trivial
  rcases hz with rfl | rfl
  · rw [normalize_natCast hn]
    have hround := round_le hhigh hn (by exact_mod_cast hge) .positive
    exact within_of_le hlow.nonneg hhigh.nonneg (fun _ => le_rfl) (fun h => by cases h) hround
  · rw [normalize_neg_natCast hn]
    have hn' : n * (2 : ℚ) ^ e ≤ low := by
      push_cast at hle
      linarith
    have hround := round_le hlow hn hn' .negative
    exact within_of_le hlow.nonneg hhigh.nonneg (fun h => by cases h) (fun _ => le_rfl) hround

end Round

end GlyphDrawing
