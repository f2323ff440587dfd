import Pickle.Proofs.Double.Exact
import Pickle.Proofs.Line.Integers

/-!
# Canonical spellings of floats are read back

A float is written exactly, so reading it is a matter of getting the same number together again:
the digits and the exponent spell `mantissa * 2 ^ exponent` in one of two forms, and rounding a
number that is a double gives the double.  Only the shortcut for extreme exponents stands in the
way.  The number of digits is at most four hundred before the point; behind it a power of five
stands over the same power of ten, and has not so many digits less than that.
-/

namespace Pickle.Line

/-! ## The number of digits -/

theorem lt_pow_length_decimalDigits (n : ℕ) : n < 10 ^ (decimalDigits n).length := by
  fun_induction decimalDigits n with
  | case1 n h => simpa using h
  | case2 n h ih =>
    rw [List.length_append, List.length_singleton, Nat.pow_succ]
    omega

theorem pow_length_decimalDigits_le {n : ℕ} (hn : n ≠ 0) :
    10 ^ ((decimalDigits n).length - 1) ≤ n := by
  fun_induction decimalDigits n with
  | case1 n h => 
    simp
    omega
  | case2 n h ih =>
    have hrest : n / 10 ≠ 0 := by omega
    have hlength : (decimalDigits (n / 10)).length ≠ 0 := by
      rw [Ne, List.length_eq_zero_iff]
      exact decimalDigits_ne_nil _
    have hpow : 10 ^ ((decimalDigits (n / 10)).length - 1) * 10 =
        10 ^ (decimalDigits (n / 10)).length := by
      rw [← Nat.pow_succ, Nat.succ_eq_add_one, Nat.sub_add_cancel (by omega)]
    have hle := ih hrest
    rw [List.length_append, List.length_singleton, Nat.add_sub_cancel, ← hpow]
    omega

/-- A number other than zero is written without zeros in front. -/
theorem dropWhile_decimalDigits {n : ℕ} (hn : n ≠ 0) :
    (decimalDigits n).dropWhile (· == 0x30) = decimalDigits n := by
  have hhead : ∃ byte rest, decimalDigits n = byte :: rest ∧ byte ≠ 0x30 := by
    fun_induction decimalDigits n with
    | case1 n h =>
      refine ⟨_, [], rfl, fun heq => ?_⟩
      have hvalue := digitValue_digit h
      rw [heq] at hvalue
      exact hn hvalue.symm
    | case2 n h ih =>
      obtain ⟨byte, rest, heq, hbyte⟩ := ih (by omega)
      exact ⟨byte, rest ++ _, by rw [heq]; rfl, hbyte⟩
  obtain ⟨byte, rest, heq, hbyte⟩ := hhead
  rw [heq, List.dropWhile_cons, if_neg (by simpa using hbyte)]

/-! ## Floats -/

/-- No digit is a letter of a name. -/
theorem lowered_of_isDigit {byte : UInt8} (h : isDigit byte = true) : lowered byte = byte := by
  rw [isDigit_iff] at h
  have hcapital : (0x41 ≤ byte && byte ≤ 0x5a) = false := by
    simp [UInt8.le_iff_toNat_le]
    omega
  rw [lowered, hcapital]
  rfl

/-- A line that starts with a digit is no name. -/
theorem map_lowered_ne {digits : Bytes} (hdigits : digits.all isDigit = true)
    (hne : digits ≠ []) (rest : Bytes) {letter : UInt8} (hletter : isDigit letter = false)
    (letters : Bytes) : (digits ++ rest).map lowered ≠ letter :: letters := by
  cases digits with
  | nil => exact absurd rfl hne
  | cons byte others =>
    have hbyte : isDigit byte = true := List.all_eq_true.1 hdigits byte List.mem_cons_self
    intro heq
    obtain ⟨hhead, -⟩ := List.cons.inj heq
    rw [lowered_of_isDigit hbyte] at hhead
    rw [← hhead, hbyte] at hletter
    cases hletter

theorem encode_inf : Utf8.encode "inf" = [0x69, 0x6e, 0x66] := rfl

theorem encode_nan : Utf8.encode "nan" = [0x6e, 0x61, 0x6e] := rfl

theorem encode_negative_exponent : Utf8.encode "e-" = [0x65, 0x2d] := rfl

/-- Digits are taken up to the exponent. -/
theorem splitDecimal_append {digits rest : Bytes} (hdigits : digits.all isDigit = true)
    (hne : digits ≠ []) (hrest : rest = [] ∨ ∃ others, rest = 0x65 :: others) :
    splitDecimal (digits ++ rest) = some (digits, 0, rest) := by
  have hall : ∀ byte ∈ digits, isDigit byte = true := List.all_eq_true.1 hdigits
  have htake : rest.takeWhile isDigit = [] := by
    rcases hrest with rfl | ⟨others, rfl⟩ <;> rfl
  have hdrop : rest.dropWhile isDigit = rest := by
    rcases hrest with rfl | ⟨others, rfl⟩ <;> rfl
  unfold splitDecimal
  rw [List.takeWhile_append_of_pos hall, List.dropWhile_append_of_pos hall, htake, hdrop,
    List.append_nil]
  have hempty : digits.isEmpty = false := by simpa using hne
  rcases hrest with rfl | ⟨others, rfl⟩
  · simp [hempty]
  · simp [hempty]

theorem exponentPart_decimalDigits {n : ℕ} (h : n < exponentCap) :
    exponentPart (Utf8.encode "e-" ++ decimalDigits n) = some (-(n : ℤ)) := by
  have hencode : Utf8.encode "e-" ++ decimalDigits n = 0x65 :: 0x2d :: decimalDigits n := rfl
  have hsplit : splitSign (0x2d :: decimalDigits n) = (true, decimalDigits n) := rfl
  have hempty : (decimalDigits n).isEmpty = false := by
    simpa using decimalDigits_ne_nil n
  have hvalue : exponentValue (decimalDigits n) = n := by
    rw [exponentValue_eq_digitsValue (by rwa [digitsValue_decimalDigits]),
      digitsValue_decimalDigits]
  rw [hencode, exponentPart, hsplit]
  simp [hempty, all_isDigit_decimalDigits, hvalue]

/-- A float of digits and an exponent is the double that they spell. -/
theorem float?_withSign (negative : Bool) (n : ℕ) {rest : Bytes} {exponent : ℤ}
    (hrest : rest = [] ∨ ∃ others, rest = 0x65 :: others)
    (hexponent : exponentPart rest = some exponent) :
    float? (withSign negative (decimalDigits n ++ rest)) =
      some (Double.ofDecimal negative n (if n = 0 then 0 else (decimalDigits n).length)
        exponent) := by
  have hdigits := all_isDigit_decimalDigits n
  have hne := decimalDigits_ne_nil n
  have hsplit : splitSign (withSign negative (decimalDigits n ++ rest)) =
      (negative, decimalDigits n ++ rest) := by
    cases negative with
    | true => rfl
    | false =>
      cases heq : decimalDigits n with
      | nil => exact absurd heq hne
      | cons byte others =>
        have hbyte : isDigit byte = true :=
          List.all_eq_true.1 hdigits byte (by simp [heq])
        simp [withSign, splitSign, isSign_eq_false hbyte]
  -- A digit comes first, so the text is none of the names.
  have hinfinity : infinityNames.contains ((decimalDigits n ++ rest).map lowered) = false := by
    have hname := map_lowered_ne hdigits hne rest (show isDigit 0x69 = false from rfl)
    simp only [infinityNames, List.map_cons, List.map_nil, List.contains_cons, List.contains_nil,
      Bool.or_false, Bool.or_eq_false_iff, beq_eq_false_iff_ne, encode_inf]
    exact ⟨hname _, hname _⟩
  have hnan : (decimalDigits n ++ rest).map lowered ≠ Utf8.encode "nan" := by
    rw [encode_nan]
    exact map_lowered_ne hdigits hne rest rfl _
  have hsignificant : digitsValue ((decimalDigits n).dropWhile (· == 0x30)) = n ∧
      ((decimalDigits n).dropWhile (· == 0x30)).length =
        if n = 0 then 0 else (decimalDigits n).length := by
    by_cases hn : n = 0
    · have hzero : decimalDigits 0 = [0x30] := by
        rw [decimalDigits]
        rfl
      rw [hn, hzero]
      exact ⟨rfl, rfl⟩
    · rw [dropWhile_decimalDigits hn, digitsValue_decimalDigits, if_neg hn]
      exact ⟨rfl, rfl⟩
  unfold float?
  rw [hsplit]
  simp only [hinfinity, hnan, Bool.false_eq_true, if_false, splitDecimal_append hdigits hne hrest,
    hexponent, hsignificant, Option.bind_eq_bind, Option.bind_some, Option.pure_def,
    Nat.cast_zero, sub_zero]

/-- A number of moderate length is not settled by its length. -/
theorem ofDecimal_ofNat (negative : Bool) {n places e : ℕ} (h : n ≠ 0 → places + e ≤ 400) :
    Double.ofDecimal negative n places (.ofNat e) =
      Double.ofRatio negative (n * Nat.pow 10 e) 1 := by
  rw [Double.ofDecimal]
  by_cases hn : n = 0
  · simp [hn, Double.ofRatio]
  · have hhigh := h hn
    have hcast : (Int.ofNat e : ℤ) = e := rfl
    rw [if_neg hn, if_neg (by omega), if_neg (by omega)]

theorem ofDecimal_negSucc (negative : Bool) {n places e : ℕ}
    (h : n ≠ 0 → e + 1 ≤ places + 400 ∧ places ≤ 400 + (e + 1)) :
    Double.ofDecimal negative n places (.negSucc e) =
      Double.ofRatio negative n (Nat.pow 10 (e + 1)) := by
  rw [Double.ofDecimal]
  by_cases hn : n = 0
  · simp [hn, Double.ofRatio]
  · obtain ⟨hlow, hhigh⟩ := h hn
    rw [if_neg hn, if_neg (by omega), if_neg (by omega)]

theorem length_decimalDigits_le {n k : ℕ} (hn : n ≠ 0) (h : n < 10 ^ k) :
    (decimalDigits n).length ≤ k := by
  have hlt : 10 ^ ((decimalDigits n).length - 1) < 10 ^ k :=
    (pow_length_decimalDigits_le hn).trans_lt h
  have hexponent := (Nat.pow_lt_pow_iff_right (by decide)).1 hlt
  omega

theorem le_length_decimalDigits {n k : ℕ} (h : 10 ^ k ≤ n) : k ≤ (decimalDigits n).length := by
  have hlt : 10 ^ k < 10 ^ (decimalDigits n).length := h.trans_lt (lt_pow_length_decimalDigits n)
  exact ((Nat.pow_lt_pow_iff_right (by decide)).1 hlt).le

theorem pow_two_le_pow_ten {i k : ℕ} (h : k ≤ 3 * i) : 2 ^ k ≤ 10 ^ i :=
  calc 2 ^ k ≤ 2 ^ (3 * i) := Nat.pow_le_pow_right (by decide) h
    _ = (2 ^ 3) ^ i := Nat.pow_mul 2 3 i
    _ ≤ 10 ^ i := Nat.pow_le_pow_left (by decide) i

/-- A power of five has not many digits less than the power of ten with the same exponent. -/
theorem pow_ten_sub_le_pow_five {i k : ℕ} (h : k ≤ 3 * i) : 10 ^ (k - i) ≤ 5 ^ k := by
  by_cases hk : k ≤ i
  · rw [Nat.sub_eq_zero_of_le hk]
    exact Nat.pow_pos (by decide)
  · have htwo : 2 ^ (k - i) ≤ 5 ^ i :=
      calc 2 ^ (k - i) ≤ 2 ^ (2 * i) := Nat.pow_le_pow_right (by decide) (by omega)
        _ = (2 ^ 2) ^ i := Nat.pow_mul 2 2 i
        _ ≤ 5 ^ i := Nat.pow_le_pow_left (by decide) i
    calc 10 ^ (k - i) = 2 ^ (k - i) * 5 ^ (k - i) := Nat.mul_pow 2 5 (k - i)
      _ ≤ 5 ^ i * 5 ^ (k - i) := Nat.mul_le_mul_right _ htwo
      _ = 5 ^ k := by rw [← Nat.pow_add, Nat.add_sub_cancel' (by omega)]

/-- A number that ends before the point is spelled by its digits. -/
theorem float?_ofNat {x : Double} (hfinite : x.isFinite = true) {e : ℕ}
    (hexponent : x.exponent = .ofNat e) :
    float? (withSign x.isNegative (decimalDigits (x.mantissa <<< e))) = some x := by
  have hle := Double.exponent_le hfinite
  have hmantissa := x.mantissa_lt
  have hvalue : x.mantissa <<< e = x.mantissa * 2 ^ e := Nat.shiftLeft_eq _ _
  have hlt : x.mantissa <<< e < 10 ^ 400 := by
    have he : e ≤ 971 := by
      rw [hexponent] at hle
      exact Int.ofNat_le.1 hle
    calc x.mantissa <<< e = x.mantissa * 2 ^ e := hvalue
      _ < 2 ^ 53 * 2 ^ e := Nat.mul_lt_mul_of_pos_right hmantissa (Nat.pow_pos (by decide))
      _ = 2 ^ (53 + e) := (Nat.pow_add 2 53 e).symm
      _ ≤ 10 ^ 400 := pow_two_le_pow_ten (by omega)
  have hfloat := float?_withSign x.isNegative (x.mantissa <<< e) (.inl rfl)
    (show exponentPart [] = some (.ofNat 0) from rfl)
  rw [List.append_nil, ofDecimal_ofNat] at hfloat
  · rw [hfloat]
    refine congrArg some (Double.ofRatio_eq hfinite Nat.one_pos ?_)
    have hpow : (2 : ℚ) ^ Int.ofNat e = 2 ^ e := zpow_natCast 2 e
    rw [hvalue, hexponent, hpow]
    simp
  · intro hn
    have hlength := length_decimalDigits_le hn hlt
    rw [if_neg hn]
    omega

/-- A number that goes on behind the point is spelled by digits and a power of ten. -/
theorem float?_negSucc {x : Double} (hfinite : x.isFinite = true) {e : ℕ}
    (hexponent : x.exponent = .negSucc e) :
    float? (withSign x.isNegative (decimalDigits (x.mantissa * Nat.pow 5 (e + 1)) ++
      Utf8.encode "e-" ++ decimalDigits (e + 1))) = some x := by
  have hleast := x.le_exponent
  have hmantissa := x.mantissa_lt
  have he : e + 1 ≤ 1074 := by
    rw [hexponent] at hleast
    omega
  have hpart : exponentPart (Utf8.encode "e-" ++ decimalDigits (e + 1)) = some (.negSucc e) :=
    exponentPart_decimalDigits (lt_of_le_of_lt he (by decide))
  have hrest : ∃ others, Utf8.encode "e-" ++ decimalDigits (e + 1) = 0x65 :: others := ⟨_, rfl⟩
  have hfloat := float?_withSign x.isNegative (x.mantissa * Nat.pow 5 (e + 1)) (.inr hrest) hpart
  rw [← List.append_assoc, ofDecimal_negSucc] at hfloat
  · rw [hfloat]
    refine congrArg some (Double.ofRatio_eq hfinite (Nat.pos_of_ne_zero (by simp)) ?_)
    have hpow : (2 : ℚ) ^ Int.negSucc e = (2 ^ (e + 1))⁻¹ := zpow_negSucc 2 e
    have hten : (10 : ℚ) ^ (e + 1) = 2 ^ (e + 1) * 5 ^ (e + 1) := by
      rw [← mul_pow]
      norm_num
    rw [hexponent, hpow]
    simp only [Nat.pow_eq, Nat.cast_mul, Nat.cast_pow, Nat.cast_ofNat]
    rw [hten]
    rw [mul_div_mul_right _ _ (pow_ne_zero _ (by norm_num)), div_eq_mul_inv]
  · intro hn
    rw [if_neg hn]
    have hupper : x.mantissa * Nat.pow 5 (e + 1) < 10 ^ (16 + (e + 1)) := by
      calc x.mantissa * Nat.pow 5 (e + 1) ≤ 2 ^ 53 * 10 ^ (e + 1) :=
            Nat.mul_le_mul (Nat.le_of_lt hmantissa) (Nat.pow_le_pow_left (by decide) _)
        _ < 10 ^ 16 * 10 ^ (e + 1) :=
            Nat.mul_lt_mul_of_pos_right (by norm_num) (Nat.pow_pos (by decide))
        _ = 10 ^ (16 + (e + 1)) := (Nat.pow_add 10 16 (e + 1)).symm
    have hlower : 10 ^ (e + 1 - 400) ≤ x.mantissa * Nat.pow 5 (e + 1) :=
      (pow_ten_sub_le_pow_five (by omega)).trans (Nat.le_mul_of_pos_left _ (Nat.pos_of_mul_pos_right
        (Nat.pos_of_ne_zero hn)))
    have hmost := length_decimalDigits_le hn hupper
    have hleast' := le_length_decimalDigits hlower
    omega

/-- A float is read back; a NaN only if it is the one that its name stands for. -/
theorem readFloat_ofFloat {x : Double} (h : x.isNaN = true → x = Double.nan) :
    readFloat (ofFloat x) = .ok x := by
  have hfloat : float? (ofFloat x) = some x := by
    unfold ofFloat
    by_cases hnan : x.isNaN = true
    · rw [if_pos hnan, h hnan]
      decide
    · rw [if_neg hnan]
      by_cases hfinite : x.isFinite = true
      · rw [hfinite]
        cases hexponent : x.exponent with
        | ofNat e => exact float?_ofNat hfinite hexponent
        | negSucc e => exact float?_negSucc hfinite hexponent
      · have hinfinite : x.magnitude = Double.infinityBits := by
          have hle : x.magnitude ≤ Double.infinityBits := by
            simpa [Double.isNaN] using hnan
          have hge : Double.infinityBits ≤ x.magnitude := by
            simpa [Double.isFinite] using hfinite
          exact Nat.le_antisymm hle hge
        have hx : x = Double.infinity x.isNegative := by
          rw [Double.infinity, ← hinfinite, Double.ofMagnitude_isNegative_magnitude]
        simp only [Bool.eq_false_iff.2 hfinite, Bool.not_false, if_true]
        generalize x.isNegative = negative at hx
        rw [hx]
        cases negative <;> decide
  rw [readFloat, hfloat]

theorem isPrintable_ofFloat (x : Double) : IsPrintable (ofFloat x) := by
  unfold ofFloat
  rw [encode_nan, encode_inf, encode_negative_exponent]
  split
  · simp
  · refine isPrintable_withSign _ ?_
    split
    · simp
    · split
      · exact isPrintable_decimalDigits _
      · simp [isPrintable_decimalDigits]

end Pickle.Line
