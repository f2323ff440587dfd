import Mathlib.Algebra.Order.Field.Power
import Mathlib.Algebra.Order.Ring.Rat
import Mathlib.Tactic.Linarith
import Mathlib.Tactic.Ring
import Pickle.Double

/-!
# Rounding a double gives the double

A finite double is a number with a mantissa and an exponent, and rounding that number gives the
double back, in whatever quotient the number comes (`ofRatio_eq`).  What has to be shown is that the
search for the exponent ends at that of the double: the quotient lies between two powers of two
whose exponents differ by one after the correction, and the mantissa places the same number between
the same powers.  Subnormal numbers are placed below, where the least exponent stops the search.

Quotients are compared as rational numbers, since the exponents of their powers of two may be
negative.
-/

namespace Pickle.Double

/-! ## Quotients and powers of two -/

section Quotient

variable {num den : ℕ}

theorem scaleDown_spec (num : ℕ) (hden : 0 < den) (q : ℤ) :
    0 < (scaleDown num den q).2 ∧
      ((scaleDown num den q).1 : ℚ) / (scaleDown num den q).2 = num / den / 2 ^ q := by
  cases q with
  | ofNat q =>
    have hpow : (2 : ℚ) ^ (Int.ofNat q) = 2 ^ q := zpow_natCast 2 q
    constructor
    · simpa [scaleDown, Nat.shiftLeft_eq] using hden
    · simp only [scaleDown, Nat.shiftLeft_eq, hpow, Nat.cast_mul, Nat.cast_pow, Nat.cast_ofNat]
      rw [div_div]
  | negSucc q =>
    have hpow : (2 : ℚ) ^ (Int.negSucc q) = (2 ^ (q + 1))⁻¹ := zpow_negSucc 2 q
    constructor
    · exact hden
    · simp only [scaleDown, Nat.shiftLeft_eq, hpow, Nat.cast_mul, Nat.cast_pow, Nat.cast_ofNat]
      rw [div_inv_eq_mul]
      ring

theorem le_div_iff_le_rat {n a b : ℕ} (hb : 0 < b) : n ≤ a / b ↔ (n : ℚ) ≤ a / b := by
  have hpos : (0 : ℚ) < b := by exact_mod_cast hb
  rw [Nat.le_div_iff_mul_le hb, le_div_iff₀ hpos]
  exact_mod_cast Iff.rfl

theorem two_zpow_mul (m n : ℤ) : (2 : ℚ) ^ m * 2 ^ n = 2 ^ (m + n) :=
  (zpow_add₀ two_ne_zero m n).symm

/-- A quotient lies between the powers of two that the lengths of its parts tell. -/
theorem quotient_bounds (hnum : num ≠ 0) (hden : 0 < den) :
    (2 : ℚ) ^ ((num.log2 : ℤ) - den.log2 - 1) < num / den ∧
      (num : ℚ) / den < 2 ^ ((num.log2 : ℤ) - den.log2 + 1) := by
  have hpos : (0 : ℚ) < den := by exact_mod_cast hden
  have hnumLow : (2 : ℚ) ^ (num.log2 : ℤ) ≤ num := by
    rw [zpow_natCast]
    exact_mod_cast Nat.log2_self_le hnum
  have hnumHigh : (num : ℚ) < 2 ^ ((num.log2 : ℤ) + 1) := by
    have hlt : num < 2 ^ (num.log2 + 1) := Nat.lt_log2_self
    exact_mod_cast hlt
  have hdenLow : (2 : ℚ) ^ (den.log2 : ℤ) ≤ den := by
    rw [zpow_natCast]
    exact_mod_cast Nat.log2_self_le (Nat.ne_of_gt hden)
  have hdenHigh : (den : ℚ) < 2 ^ ((den.log2 : ℤ) + 1) := by
    have hlt : den < 2 ^ (den.log2 + 1) := Nat.lt_log2_self
    exact_mod_cast hlt
  constructor
  · rw [lt_div_iff₀ hpos]
    calc (2 : ℚ) ^ ((num.log2 : ℤ) - den.log2 - 1) * den
        < 2 ^ ((num.log2 : ℤ) - den.log2 - 1) * 2 ^ ((den.log2 : ℤ) + 1) :=
          mul_lt_mul_of_pos_left hdenHigh (by positivity)
      _ = 2 ^ (num.log2 : ℤ) := by rw [two_zpow_mul]; congr 1; ring
      _ ≤ num := hnumLow
  · rw [div_lt_iff₀ hpos]
    calc (num : ℚ) < 2 ^ ((num.log2 : ℤ) + 1) := hnumHigh
      _ = 2 ^ ((num.log2 : ℤ) - den.log2 + 1) * 2 ^ (den.log2 : ℤ) := by
          rw [two_zpow_mul]; congr 1; ring
      _ ≤ 2 ^ ((num.log2 : ℤ) - den.log2 + 1) * den :=
          mul_le_mul_of_nonneg_left hdenLow (by positivity)

/-- The exponent of a quotient is the one that leaves fifty-three bits before the point, or the
least one there is. -/
theorem exists_quotientExponent (hnum : num ≠ 0) (hden : 0 < den) :
    ∃ q : ℤ, quotientExponent num den = max (-1074) q ∧
      (2 : ℚ) ^ (52 + q) ≤ num / den ∧ (num : ℚ) / den < 2 ^ (53 + q) := by
  obtain ⟨hlow, hhigh⟩ := quotient_bounds hnum hden
  obtain ⟨hscaled, hvalue⟩ := scaleDown_spec num hden ((num.log2 : ℤ) - den.log2 - 53)
  have hleading : ((2 * leadingBit : ℕ) : ℚ) = 2 ^ (53 : ℤ) := by norm_num [leadingBit]
  unfold quotientExponent
  dsimp only
  generalize hguess : (num.log2 : ℤ) - den.log2 - 53 = guess at *
  have hlow' : (2 : ℚ) ^ (52 + guess) ≤ num / den := by
    rw [show 52 + guess = (num.log2 : ℤ) - den.log2 - 1 by omega]
    exact hlow.le
  have hhigh' : (num : ℚ) / den < 2 ^ (54 + guess) := by
    rw [show 54 + guess = (num.log2 : ℤ) - den.log2 + 1 by omega]
    exact hhigh
  have hpos : (0 : ℚ) < 2 ^ guess := by positivity
  have hiff : 2 * leadingBit ≤ (scaleDown num den guess).1 / (scaleDown num den guess).2 ↔
      (2 : ℚ) ^ (53 + guess) ≤ num / den := by
    rw [le_div_iff_le_rat hscaled, hvalue, hleading, le_div_iff₀ hpos, two_zpow_mul]
  by_cases h : (2 : ℚ) ^ (53 + guess) ≤ num / den
  · refine ⟨guess + 1, by rw [if_pos (hiff.2 h)], ?_, ?_⟩
    · rwa [show 52 + (guess + 1) = 53 + guess by omega]
    · rwa [show 53 + (guess + 1) = 54 + guess by omega]
  · exact ⟨guess, by rw [if_neg (fun hle => h (hiff.1 hle))], hlow', not_le.1 h⟩

end Quotient

/-- A quotient without a rest is rounded to itself. -/
theorem roundHalfEven_of_eq_mul {num den m : ℕ} (hden : 0 < den) (h : num = m * den) :
    roundHalfEven num den = m := by
  have hrest : num % den = 0 := by rw [h, Nat.mul_mod_left]
  have hwhole : num / den = m := by rw [h, Nat.mul_div_cancel m hden]
  unfold roundHalfEven
  simp only [hrest, hwhole]
  rw [if_pos (by omega)]

/-! ## The parts of a double -/

section Parts

variable (x : Double)

/-- A double is its sign and its magnitude. -/
theorem ofMagnitude_isNegative_magnitude : ofMagnitude x.isNegative x.magnitude = x := by
  have hbits : x.bits.toNat < 2 * signBit := x.bits.toNat_lt
  have hsum : x.magnitude + (if x.isNegative then signBit else 0) = x.bits.toNat := by
    unfold magnitude isNegative
    by_cases h : signBit ≤ x.bits.toNat
    · have hmod : x.bits.toNat % signBit = x.bits.toNat - signBit := by
        rw [Nat.mod_eq_sub_mod h, Nat.mod_eq_of_lt (by omega)]
      rw [decide_eq_true h, if_pos rfl, hmod]
      omega
    · rw [decide_eq_false h, if_neg (by simp), Nat.mod_eq_of_lt (by omega), Nat.add_zero]
  rw [ofMagnitude, hsum, UInt64.ofNat_toNat]

theorem mantissa_lt : x.mantissa < 2 * leadingBit := by
  have hlt : x.magnitude % leadingBit < leadingBit := Nat.mod_lt _ (by decide)
  unfold mantissa
  split <;> omega

/-- The mantissa of a double has its leading bit, unless the exponent is the least one. -/
theorem leadingBit_le_mantissa_or : leadingBit ≤ x.mantissa ∨ x.exponent = -1074 := by
  unfold mantissa exponent
  by_cases h : x.exponentField = 0
  · right
    rw [h]
    rfl
  · left
    rw [if_neg h]
    exact Nat.le_add_left _ _

theorem le_exponent : -1074 ≤ x.exponent := by
  unfold exponent
  omega

/-- The magnitude bits in terms of the mantissa and the exponent. -/
theorem magnitude_eq :
    x.magnitude = (x.exponent + 1074).toNat * leadingBit + x.mantissa := by
  have hdiv : leadingBit * x.exponentField + x.magnitude % leadingBit = x.magnitude :=
    Nat.div_add_mod x.magnitude leadingBit
  unfold mantissa exponent
  by_cases h : x.exponentField = 0
  · rw [h] at hdiv ⊢
    simpa using hdiv.symm
  · have hexponent : ((max x.exponentField 1 : ℕ) - 1075 + 1074 : ℤ).toNat =
        x.exponentField - 1 := by omega
    have hmul : (x.exponentField - 1) * leadingBit + leadingBit = leadingBit * x.exponentField := by
      rw [Nat.sub_one_mul, Nat.mul_comm leadingBit]
      have hle : leadingBit ≤ x.exponentField * leadingBit :=
        Nat.le_mul_of_pos_left _ (Nat.pos_of_ne_zero h)
      omega
    rw [hexponent, if_neg h]
    omega

variable {x}

theorem exponent_le (h : x.isFinite = true) : x.exponent ≤ 971 := by
  have hfinite : x.magnitude < infinityBits := of_decide_eq_true h
  have hfield : x.exponentField < 2047 := by
    rw [exponentField, Nat.div_lt_iff_lt_mul (by decide)]
    exact hfinite
  unfold exponent
  omega

end Parts

/-- The power of two that is found for a number is the exponent of its double. -/
theorem quotientExponent_eq {x : Double} {num den : ℕ} (hnum : num ≠ 0) (hden : 0 < den)
    (h : (num : ℚ) / den = x.mantissa * 2 ^ x.exponent) :
    quotientExponent num den = x.exponent := by
  obtain ⟨q, hq, hlow, hhigh⟩ := exists_quotientExponent hnum hden
  rw [h] at hlow hhigh
  have hpos : (0 : ℚ) < 2 ^ x.exponent := by positivity
  have htwo : (1 : ℚ) < 2 := one_lt_two
  have hleast := le_exponent x
  -- Both `q` and the exponent place the number, so they are compared as exponents of powers.
  have hle : q ≤ x.exponent := by
    have hmantissa : (x.mantissa : ℚ) < 2 ^ (53 : ℤ) := by
      have hlt : x.mantissa < 2 ^ 53 := mantissa_lt x
      exact_mod_cast hlt
    have hlt : (2 : ℚ) ^ (52 + q) < 2 ^ (53 + x.exponent) := by
      rw [← two_zpow_mul 53]
      exact hlow.trans_lt (mul_lt_mul_of_pos_right hmantissa hpos)
    have hexponents := (zpow_lt_zpow_iff_right₀ htwo).1 hlt
    omega
  rw [hq]
  rcases leadingBit_le_mantissa_or x with hleading | hleast'
  · have hmantissa : (2 : ℚ) ^ (52 : ℤ) ≤ x.mantissa := by
      have hle' : 2 ^ 52 ≤ x.mantissa := hleading
      exact_mod_cast hle'
    have hlt : (2 : ℚ) ^ (52 + x.exponent) < 2 ^ (53 + q) := by
      rw [← two_zpow_mul 52]
      exact (mul_le_mul_of_nonneg_right hmantissa hpos.le).trans_lt hhigh
    have hexponents := (zpow_lt_zpow_iff_right₀ htwo).1 hlt
    omega
  · omega

/-- A number that is a double is rounded to that double. -/
theorem ofRatio_eq {x : Double} (hfinite : x.isFinite = true) {num den : ℕ} (hden : 0 < den)
    (h : (num : ℚ) / den = x.mantissa * 2 ^ x.exponent) :
    ofRatio x.isNegative num den = x := by
  have hpos : (0 : ℚ) < 2 ^ x.exponent := by positivity
  have hdenPos : (0 : ℚ) < den := by exact_mod_cast hden
  have hmagnitude : x.magnitude < infinityBits := of_decide_eq_true hfinite
  unfold ofRatio
  by_cases hnum : num = 0
  · have hmantissa : x.mantissa = 0 := by
      rw [hnum, Nat.cast_zero, zero_div, eq_comm, mul_eq_zero] at h
      rcases h with h | h
      · exact_mod_cast h
      · exact absurd h hpos.ne'
    have hzero : x.magnitude = 0 := by
      rcases leadingBit_le_mantissa_or x with hleading | hexponent
      · rw [hmantissa] at hleading
        exact absurd hleading (by decide)
      · rw [magnitude_eq, hmantissa, hexponent]
        rfl
    rw [if_pos hnum, ← hzero, ofMagnitude_isNegative_magnitude]
  · obtain ⟨hscaled, hvalue⟩ := scaleDown_spec num hden x.exponent
    have hround : roundHalfEven (scaleDown num den x.exponent).1 (scaleDown num den x.exponent).2 =
        x.mantissa := by
      refine roundHalfEven_of_eq_mul hscaled ?_
      rw [h, mul_div_assoc, div_self hpos.ne', mul_one,
        div_eq_iff (by exact_mod_cast hscaled.ne')] at hvalue
      exact_mod_cast hvalue
    rw [if_neg hnum]
    simp only [quotientExponent_eq hnum hden h, hround, ← magnitude_eq]
    rw [Nat.min_eq_left hmagnitude.le, ofMagnitude_isNegative_magnitude]

end Pickle.Double
