import Pickle.Double
import Pickle.Proofs.Double.Exact

/-!
# Doubles as rational numbers

A finite double stands for a rational number, `Double.value`, and the order of doubles by rank is
the order of these numbers (`compare_rank`).  What carries this is that a greater magnitude has a
greater absolute value (`absolute_lt`): where the exponents differ, the greater one belongs to a
normal number, whose leading bit outweighs any mantissa of the lower exponent.

An integer below `2 ^ 53` is a double and is rounded to it.  One from there on is rounded to a
double of at least that size, exact or not, so that it never changes places with a smaller number
(`compare_rank_of_isNear`).
-/

namespace Pickle.Double

/-! ## The order of magnitudes -/

/-- The number that the magnitude bits stand for. -/
def absolute (x : Double) : ℚ := x.mantissa * 2 ^ x.exponent

/-- The number that a finite double stands for. -/
def value (x : Double) : ℚ := if x.isNegative then -x.absolute else x.absolute

section Order

variable {x y : Double}

theorem absolute_nonneg (x : Double) : 0 ≤ x.absolute := by
  unfold absolute
  positivity

theorem absolute_congr (h : x.magnitude = y.magnitude) : x.absolute = y.absolute := by
  unfold absolute mantissa exponent exponentField
  rw [h]

theorem absolute_lt (h : x.magnitude < y.magnitude) : x.absolute < y.absolute := by
  have hfield : x.exponentField ≤ y.exponentField := Nat.div_le_div_right h.le
  have hpos : (0 : ℚ) < 2 ^ x.exponent := by positivity
  unfold absolute
  rcases (show x.exponent ≤ y.exponent by unfold exponent; omega).eq_or_lt with hsame | hlt
  · have hmantissa : x.mantissa < y.mantissa := by
      have hx := magnitude_eq x
      have hy := magnitude_eq y
      rw [hsame] at hx
      omega
    rw [← hsame]
    exact mul_lt_mul_of_pos_right (by exact_mod_cast hmantissa) hpos
  · have hleading : leadingBit ≤ y.mantissa := by
      refine (leadingBit_le_mantissa_or y).resolve_right fun hleast => ?_
      have hle := le_exponent x
      omega
    have hmantissa : x.mantissa < 2 * leadingBit := mantissa_lt x
    calc (x.mantissa : ℚ) * 2 ^ x.exponent
        < (2 * leadingBit : ℕ) * 2 ^ x.exponent :=
          mul_lt_mul_of_pos_right (by exact_mod_cast hmantissa) hpos
      _ = leadingBit * 2 ^ (x.exponent + 1) := by
          rw [zpow_add_one₀ two_ne_zero]
          push_cast
          ring
      _ ≤ leadingBit * 2 ^ y.exponent :=
          mul_le_mul_of_nonneg_left (zpow_le_zpow_right₀ one_le_two (by omega)) (by positivity)
      _ ≤ y.mantissa * 2 ^ y.exponent :=
          mul_le_mul_of_nonneg_right (by exact_mod_cast hleading) (by positivity)

theorem absolute_pos (h : 0 < x.magnitude) : 0 < x.absolute := by
  have hzero : magnitude ⟨0⟩ < x.magnitude := h
  exact (absolute_nonneg _).trans_lt (absolute_lt hzero)

theorem absolute_eq_zero (h : x.magnitude = 0) : x.absolute = 0 := by
  have hzero : x.magnitude = magnitude ⟨0⟩ := h
  rw [absolute_congr hzero]
  exact zero_mul _

theorem value_lt_of_rank_lt (h : x.rank < y.rank) : x.value < y.value := by
  have hx := absolute_nonneg x
  have hy := absolute_nonneg y
  unfold rank at h
  unfold value
  split at h <;> split at h
  · next hneg hneg' =>
    rw [if_pos hneg, if_pos hneg']
    exact neg_lt_neg (absolute_lt (by omega))
  · next hneg hneg' =>
    rw [if_pos hneg, if_neg hneg']
    rcases (show 0 < x.magnitude ∨ 0 < y.magnitude by omega) with hpos | hpos
    · linarith [absolute_pos hpos]
    · linarith [absolute_pos hpos]
  · omega
  · next hneg hneg' =>
    rw [if_neg hneg, if_neg hneg']
    exact absolute_lt (by omega)

theorem value_congr (h : x.rank = y.rank) : x.value = y.value := by
  unfold rank at h
  unfold value
  split at h <;> split at h
  · next hneg hneg' =>
    rw [if_pos hneg, if_pos hneg', absolute_congr (show x.magnitude = y.magnitude by omega)]
  · next hneg hneg' =>
    rw [if_pos hneg, if_neg hneg', absolute_eq_zero (by omega), absolute_eq_zero (by omega),
      neg_zero]
  · next hneg hneg' =>
    rw [if_neg hneg, if_pos hneg', absolute_eq_zero (by omega), absolute_eq_zero (by omega),
      neg_zero]
  · next hneg hneg' =>
    rw [if_neg hneg, if_neg hneg', absolute_congr (show x.magnitude = y.magnitude by omega)]

/-- Doubles are ordered like what they stand for. -/
theorem compare_rank (x y : Double) : compare x.rank y.rank = compare x.value y.value := by
  rcases lt_trichotomy x.rank y.rank with h | h | h
  · rw [compare_lt_iff_lt.2 h, compare_lt_iff_lt.2 (value_lt_of_rank_lt h)]
  · rw [compare_eq_iff_eq.2 h, compare_eq_iff_eq.2 (value_congr h)]
  · rw [compare_gt_iff_gt.2 h, compare_gt_iff_gt.2 (value_lt_of_rank_lt h)]

end Order

/-! ## Rounding integers -/

section Rounding

variable {negative : Bool} {n : ℕ}

theorem magnitude_ofMagnitude (h : n < signBit) : (ofMagnitude negative n).magnitude = n := by
  have hbits : n + (if negative then signBit else 0) < 2 ^ 64 := by
    unfold signBit at *
    split <;> omega
  unfold magnitude ofMagnitude
  rw [UInt64.toNat_ofNat_of_lt' hbits]
  unfold signBit at *
  split <;> omega

theorem isNegative_ofMagnitude (h : n < signBit) :
    (ofMagnitude negative n).isNegative = negative := by
  have hbits : n + (if negative then signBit else 0) < 2 ^ 64 := by
    unfold signBit at *
    split <;> omega
  unfold isNegative ofMagnitude
  rw [UInt64.toNat_ofNat_of_lt' hbits]
  cases negative with
  | true => simp
  | false => simpa using h

/-- The value of a normal number from the parts of its bits. -/
theorem absolute_of_magnitude {x : Double} {power mantissa : ℕ}
    (h : x.magnitude = power * leadingBit + mantissa) (hlow : leadingBit ≤ mantissa)
    (hhigh : mantissa < 2 * leadingBit) : x.absolute = mantissa * 2 ^ ((power : ℤ) - 1074) := by
  have hdiv : x.exponentField = power + 1 := by
    unfold exponentField
    rw [h]
    unfold leadingBit at *
    omega
  have hmod : x.magnitude % leadingBit = mantissa - leadingBit := by
    rw [h]
    unfold leadingBit at *
    omega
  have hmantissa : x.mantissa = mantissa := by
    unfold Double.mantissa
    rw [hdiv, hmod, if_neg (by omega)]
    omega
  have hexponent : x.exponent = (power : ℤ) - 1074 := by
    unfold exponent
    rw [hdiv]
    omega
  rw [absolute, hmantissa, hexponent]

theorem le_roundHalfEven (num den : ℕ) : num / den ≤ roundHalfEven num den := by
  unfold roundHalfEven
  dsimp only
  split
  · exact le_refl _
  · split <;> omega

variable (negative) in
/-- An integer below `2 ^ 53` is rounded to itself. -/
theorem ofRatio_of_lt (hpos : 0 < n) (hn : n < 2 ^ 53) :
    (ofRatio negative n 1).absolute = n ∧ (ofRatio negative n 1).isNegative = negative ∧
      (ofRatio negative n 1).isFinite = true := by
  obtain ⟨q, hq, hlow, hhigh⟩ := exists_quotientExponent hpos.ne' one_pos
  rw [Nat.cast_one, div_one] at hlow hhigh
  have hone : (1 : ℚ) ≤ n := by exact_mod_cast hpos
  have hlt : (n : ℚ) < 2 ^ (53 : ℤ) := by exact_mod_cast hn
  have htwo : (1 : ℚ) < 2 := one_lt_two
  -- An integer below `2 ^ 53` is scaled up, never down: its exponent lies in `(-53, 0]`.
  have hqLow : -53 < q := by
    have h := (zpow_lt_zpow_iff_right₀ htwo).1 (show (2 : ℚ) ^ (0 : ℤ) < 2 ^ (53 + q) by
      rw [zpow_zero]
      exact hone.trans_lt hhigh)
    omega
  have hqHigh : q ≤ 0 := by
    have h := (zpow_lt_zpow_iff_right₀ htwo).1 (hlow.trans_lt hlt)
    omega
  obtain ⟨k, rfl⟩ : ∃ k : ℕ, q = -k := ⟨(-q).toNat, by omega⟩
  rw [max_eq_right (by omega)] at hq
  -- So scaling is exact and the rounding has nothing to round.
  have hscaled : n * 2 ^ k = roundHalfEven (scaleDown n 1 (-k)).1 (scaleDown n 1 (-k)).2 := by
    obtain ⟨hden, hvalue⟩ := scaleDown_spec n one_pos (-k)
    refine (roundHalfEven_of_eq_mul hden ?_).symm
    rw [Nat.cast_one, div_one, zpow_neg, div_inv_eq_mul, zpow_natCast,
      div_eq_iff (by exact_mod_cast hden.ne')] at hvalue
    exact_mod_cast hvalue
  have hmantissaLow : leadingBit ≤ n * 2 ^ k := by
    have h : (2 : ℚ) ^ (52 : ℤ) ≤ n * 2 ^ k := by
      have hmul := mul_le_mul_of_nonneg_right hlow (show (0 : ℚ) ≤ 2 ^ (k : ℤ) by positivity)
      rw [two_zpow_mul] at hmul
      simpa using hmul
    exact_mod_cast h
  have hmantissaHigh : n * 2 ^ k < 2 * leadingBit := by
    have h : (n : ℚ) * 2 ^ k < 2 ^ (53 : ℤ) := by
      have hmul := mul_lt_mul_of_pos_right hhigh (show (0 : ℚ) < 2 ^ (k : ℤ) by positivity)
      rw [two_zpow_mul] at hmul
      simpa using hmul
    exact_mod_cast h
  have hbits : ((-k : ℤ) + 1074).toNat * leadingBit + n * 2 ^ k < infinityBits := by
    unfold leadingBit infinityBits at *
    omega
  have hround : ofRatio negative n 1 =
      ofMagnitude negative (((-k : ℤ) + 1074).toNat * leadingBit + n * 2 ^ k) := by
    unfold ofRatio
    rw [if_neg hpos.ne']
    simp only [hq, ← hscaled]
    rw [Nat.min_eq_left hbits.le]
  have hsign : ((-k : ℤ) + 1074).toNat * leadingBit + n * 2 ^ k < signBit :=
    hbits.trans (by decide)
  rw [hround]
  refine ⟨?_, isNegative_ofMagnitude hsign, ?_⟩
  · rw [absolute_of_magnitude (magnitude_ofMagnitude hsign) hmantissaLow hmantissaHigh]
    rw [show ((((-k : ℤ) + 1074).toNat : ℕ) : ℤ) - 1074 = -k by omega, zpow_neg, zpow_natCast]
    push_cast
    rw [mul_assoc, mul_inv_cancel₀ (by positivity), mul_one]
  · unfold isFinite
    rw [magnitude_ofMagnitude hsign]
    exact decide_eq_true hbits

variable (negative) in
/-- An integer from `2 ^ 53` on is rounded to a number from there on. -/
theorem ofRatio_of_le (hn : 2 ^ 53 ≤ n) :
    1076 * leadingBit ≤ (ofRatio negative n 1).magnitude ∧
      (ofRatio negative n 1).isNegative = negative ∧
      (ofRatio negative n 1).magnitude ≤ infinityBits := by
  have hpos : 0 < n := Nat.lt_of_lt_of_le (by decide) hn
  obtain ⟨q, hq, hlow, hhigh⟩ := exists_quotientExponent hpos.ne' one_pos
  have hle : (2 : ℚ) ^ (53 : ℤ) ≤ (n : ℚ) / (1 : ℕ) := by
    rw [Nat.cast_one, div_one]
    exact_mod_cast hn
  have hqLow : 0 < q := by
    have h := (zpow_lt_zpow_iff_right₀ (one_lt_two (α := ℚ))).1 (hle.trans_lt hhigh)
    omega
  rw [max_eq_right (by omega)] at hq
  have hround : leadingBit ≤ roundHalfEven (scaleDown n 1 q).1 (scaleDown n 1 q).2 := by
    obtain ⟨hden, hvalue⟩ := scaleDown_spec n one_pos q
    refine le_trans ?_ (le_roundHalfEven _ _)
    rw [le_div_iff_le_rat hden, hvalue, le_div_iff₀ (by positivity)]
    have hleading : ((leadingBit : ℕ) : ℚ) = 2 ^ (52 : ℤ) := by norm_num [leadingBit]
    rw [hleading, two_zpow_mul]
    exact hlow
  have hbits : 1076 * leadingBit ≤
      (q + 1074).toNat * leadingBit + roundHalfEven (scaleDown n 1 q).1 (scaleDown n 1 q).2 := by
    have hpower : 1075 * leadingBit ≤ (q + 1074).toNat * leadingBit :=
      Nat.mul_le_mul_right _ (by omega)
    omega
  have hsign : ∀ bits, min bits infinityBits < signBit := fun bits =>
    (Nat.min_le_right ..).trans_lt (by decide)
  unfold ofRatio
  rw [if_neg hpos.ne']
  simp only [hq]
  rw [magnitude_ofMagnitude (hsign _), isNegative_ofMagnitude (hsign _)]
  exact ⟨le_min hbits (by decide), rfl, Nat.min_le_right ..⟩

/-- Whether a double is what an integer may be rounded to: the integer itself below `2 ^ 53`, and
from there on any number that is not below either. -/
structure IsNear (x : Double) (i : ℤ) : Prop where
  isNegative : x.isNegative = decide (i < 0)
  isNaN : x.isNaN = false
  near : x.absolute = i.natAbs ∨ 2 ^ 53 ≤ i.natAbs ∧ 1076 * leadingBit ≤ x.magnitude

theorem isNear_ofRatio {i : ℤ} (hn : n = i.natAbs ∨ 2 ^ 53 ≤ n ∧ 2 ^ 53 ≤ i.natAbs) :
    (ofRatio (i < 0) n 1).IsNear i := by
  rcases Nat.eq_zero_or_pos n with rfl | hpos
  · obtain rfl : i = 0 := by omega
    exact ⟨rfl, rfl, .inl (absolute_eq_zero rfl)⟩
  · rcases Nat.lt_or_ge n (2 ^ 53) with hlt | hle
    · obtain ⟨habsolute, hsign, hfinite⟩ := ofRatio_of_lt (i < 0) hpos hlt
      have hmagnitude := of_decide_eq_true hfinite
      refine ⟨hsign, decide_eq_false (by omega), .inl ?_⟩
      rw [habsolute, hn.resolve_right (by omega)]
    · obtain ⟨hmagnitude, hsign, hinfinity⟩ := ofRatio_of_le (i < 0) hle
      refine ⟨hsign, decide_eq_false (by omega), .inr ⟨?_, hmagnitude⟩⟩
      omega

theorem isNear_ofInt (i : ℤ) : (ofInt i).IsNear i := isNear_ofRatio (.inl rfl)

/-- Of the two doubles around `2 ^ 53 + 1` the even one is taken. -/
example : ofInt 0x20000000000001 = ofInt 0x20000000000000 := by decide +kernel

/-- What is left of a great magnitude is great, too. -/
theorem le_abridge (h : 2 ^ 53 ≤ n) : 2 ^ 53 ≤ abridge n := by
  unfold abridge
  split
  · exact h
  · next hlog =>
    dsimp only
    generalize hdropped : n.log2 - 63 = dropped
    have hpow : 2 ^ (63 + dropped) ≤ n := by
      rw [show 63 + dropped = n.log2 by omega]
      exact Nat.log2_self_le (by omega)
    have hkept : 2 ^ 63 ≤ n >>> dropped := by
      rw [Nat.shiftRight_eq_div_pow, Nat.le_div_iff_mul_le (by positivity), ← pow_add]
      exact hpow
    rw [Nat.shiftLeft_eq]
    calc 2 ^ 53 ≤ 2 ^ 63 := by decide
      _ ≤ n >>> dropped ||| (hasRest n).toNat := hkept.trans Nat.left_le_or
      _ ≤ _ := Nat.le_mul_of_pos_right _ (by positivity)

theorem isNear_ofLong (i : ℤ) : (ofLong i).IsNear i := by
  unfold ofLong
  split
  · next hlog =>
    have hsign : infinityBits < signBit := by decide
    have hmagnitude : (infinity (i < 0)).magnitude = infinityBits := magnitude_ofMagnitude hsign
    have hne : i.natAbs ≠ 0 := by
      intro hzero
      rw [hzero] at hlog
      exact absurd hlog (by decide)
    have hsize : 2 ^ 53 ≤ i.natAbs :=
      (Nat.pow_le_pow_right two_pos (by omega)).trans (Nat.log2_self_le hne)
    refine ⟨isNegative_ofMagnitude hsign, decide_eq_false (by omega), .inr ⟨hsize, ?_⟩⟩
    rw [hmagnitude]
    decide
  · refine isNear_ofRatio ?_
    rcases Nat.lt_or_ge i.natAbs (2 ^ 53) with hlt | hle
    · have hlog : i.natAbs.log2 < 64 := by
        by_cases hzero : i.natAbs = 0
        · rw [hzero]
          decide
        · exact ((Nat.log2_lt hzero).2 hlt).trans (by decide)
      exact .inl (abridge_of_log2_lt hlog)
    · exact .inr ⟨le_abridge hle, hle⟩

/-- The half between `2 ^ 128` and the next double is `2 ^ 128 + 2 ^ 75`.  One above the half is
noticed, and two above it is not. -/
example : ofLong 0x100000000000008000000000000000001 = ⟨0x47f0000000000001⟩ ∧
    ofLong 0x100000000000008000000000000000002 = ⟨0x47f0000000000000⟩ := by decide +kernel

/-- The bits of `2 ^ 53` tell the numbers below it. -/
theorem absolute_lt_iff {x : Double} : x.absolute < 2 ^ 53 ↔ x.magnitude < 1076 * leadingBit := by
  have hbound :
      (ofMagnitude false (1076 * leadingBit)).magnitude = 1075 * leadingBit + leadingBit :=
    magnitude_ofMagnitude (by decide)
  have habsolute : (ofMagnitude false (1076 * leadingBit)).absolute = 2 ^ 53 := by
    rw [absolute_of_magnitude hbound le_rfl (by decide)]
    norm_num [leadingBit]
  rw [← habsolute]
  constructor
  · intro h
    by_contra hle
    rcases (show (ofMagnitude false (1076 * leadingBit)).magnitude ≤ x.magnitude by
      omega).eq_or_lt with heq | hlt
    · exact absurd (absolute_congr heq) h.ne'
    · exact absurd (absolute_lt hlt) h.not_gt
  · intro h
    exact absolute_lt (by omega)

theorem value_bounds {x : Double} (h : x.absolute < 2 ^ 53) :
    -2 ^ 53 < x.value ∧ x.value < 2 ^ 53 := by
  have hnonneg := absolute_nonneg x
  unfold value
  split
  · exact ⟨neg_lt_neg h, by linarith⟩
  · exact ⟨by linarith, h⟩

/-- However an integer is rounded, it keeps its place among the numbers below `2 ^ 53`. -/
theorem compare_rank_of_isNear {x y : Double} {i : ℤ} (h : x.IsNear i) (hy : y.absolute < 2 ^ 53) :
    compare x.rank y.rank = compare (i : ℚ) y.value := by
  have hsign : x.isNegative = true ↔ i < 0 := by rw [h.isNegative, decide_eq_true_iff]
  rcases h.near with habsolute | ⟨hsize, hmagnitude⟩
  · -- The double is the integer itself.
    have hvalue : x.value = i := by
      unfold value
      rw [habsolute, Nat.cast_natAbs]
      split
      · next hneg => rw [abs_of_neg (hsign.1 hneg), Int.cast_neg, neg_neg]
      · next hneg => rw [abs_of_nonneg (not_lt.1 (mt hsign.2 hneg))]
    rw [compare_rank, hvalue]
  · -- The integer was rounded, but then both it and the double lie beyond `y`, on the same side.
    have hy' := absolute_lt_iff.1 hy
    have hvalue := value_bounds hy
    have hrank : -(1076 * leadingBit : ℕ) < y.rank ∧ y.rank < (1076 * leadingBit : ℕ) := by
      unfold rank
      split <;> omega
    by_cases hneg : i < 0
    · have hi : (i : ℚ) ≤ -2 ^ 53 := by
        have hle : i ≤ -2 ^ 53 := by omega
        exact_mod_cast hle
      have hx : x.rank ≤ -(1076 * leadingBit : ℕ) := by
        unfold rank
        rw [if_pos (hsign.2 hneg)]
        omega
      rw [compare_lt_iff_lt.2 (hx.trans_lt hrank.1), compare_lt_iff_lt.2 (hi.trans_lt hvalue.1)]
    · have hi : (2 : ℚ) ^ 53 ≤ i := by
        have hle : 2 ^ 53 ≤ i := by omega
        exact_mod_cast hle
      have hx : (1076 * leadingBit : ℕ) ≤ x.rank := by
        unfold rank
        rw [if_neg (mt hsign.1 hneg)]
        omega
      rw [compare_gt_iff_gt.2 (hrank.2.trans_le hx), compare_gt_iff_gt.2 (hvalue.2.trans_le hi)]

end Rounding

end Pickle.Double
