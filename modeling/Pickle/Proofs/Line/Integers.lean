import Mathlib.Algebra.Group.Nat.Defs
import Mathlib.Data.Nat.Basic
import Pickle.Line.Canonical

/-!
# Canonical spellings of integers are read back

Digits are what carries these proofs: `decimalDigits` gives digits alone, at least one of them, whose
value is the number.  A sign in front is split off again because no digit is a sign; and as there are
no zeros in front, the canonical spelling of an integer is never one of the two booleans.

A canonical line has no control characters, `IsPrintable`, so neither its end nor a carriage return
before the end can be found inside of it.
-/

namespace Pickle.Line

/-! ## Lines without control characters -/

/-- Whether all bytes of a line are at least as great as the blank. -/
def IsPrintable (line : Bytes) : Prop := ∀ byte ∈ line, 0x20 ≤ byte.toNat

namespace IsPrintable

variable {first second line : Bytes}

@[simp] theorem nil : IsPrintable [] := by simp [IsPrintable]

@[simp] theorem cons {byte : UInt8} :
    IsPrintable (byte :: line) ↔ 0x20 ≤ byte.toNat ∧ IsPrintable line := by
  simp [IsPrintable]

@[simp] theorem append :
    IsPrintable (first ++ second) ↔ IsPrintable first ∧ IsPrintable second := by
  simp only [IsPrintable, List.mem_append, or_imp, forall_and]

theorem flatMap {α : Type} {spell : α → Bytes} (h : ∀ item, IsPrintable (spell item))
    (items : List α) : IsPrintable (items.flatMap spell) := by
  intro byte hbyte
  obtain ⟨item, -, hitem⟩ := List.mem_flatMap.1 hbyte
  exact h item byte hitem

theorem newline_notMem (h : IsPrintable line) : 0x0a ∉ line := by
  intro hmem
  have hle := h _ hmem
  simp at hle

theorem getLast?_ne (h : IsPrintable line) : line.getLast? ≠ some 0x0d := by
  intro hlast
  have hle := h _ (List.mem_of_getLast? hlast)
  simp at hle

end IsPrintable

/-! ## Digits -/

theorem isDigit_iff {byte : UInt8} :
    isDigit byte = true ↔ 0x30 ≤ byte.toNat ∧ byte.toNat ≤ 0x39 := by
  simp [isDigit, UInt8.le_iff_toNat_le]

theorem toNat_digit {n : ℕ} (h : n < 10) : (UInt8.ofNat (0x30 + n)).toNat = 0x30 + n := by
  rw [UInt8.toNat_ofNat']
  omega

theorem isDigit_digit {n : ℕ} (h : n < 10) : isDigit (UInt8.ofNat (0x30 + n)) = true := by
  rw [isDigit_iff, toNat_digit h]
  omega

theorem digitValue_digit {n : ℕ} (h : n < 10) : digitValue (UInt8.ofNat (0x30 + n)) = n := by
  rw [digitValue, toNat_digit h]
  omega

theorem decimalDigits_ne_nil (n : ℕ) : decimalDigits n ≠ [] := by
  rw [decimalDigits]
  split
  · simp
  · simp

theorem all_isDigit_decimalDigits (n : ℕ) : (decimalDigits n).all isDigit = true := by
  fun_induction decimalDigits n with
  | case1 n h =>
    rw [List.all_cons, isDigit_digit h]
    rfl
  | case2 n h ih =>
    rw [List.all_append, ih, List.all_cons, isDigit_digit (Nat.mod_lt n (by omega))]
    rfl

theorem digitsValue_decimalDigits (n : ℕ) : digitsValue (decimalDigits n) = n := by
  fun_induction decimalDigits n with
  | case1 n h =>
    have hconcat := digitsValue_concat [] (UInt8.ofNat (0x30 + n))
    rw [List.nil_append, digitsValue_nil, digitValue_digit h] at hconcat
    omega
  | case2 n h ih =>
    rw [digitsValue_concat, ih, digitValue_digit (Nat.mod_lt n (by omega))]
    omega

theorem isPrintable_of_all_isDigit {digits : Bytes} (h : digits.all isDigit = true) :
    IsPrintable digits := by
  intro byte hbyte
  have hdigit := isDigit_iff.1 (List.all_eq_true.1 h byte hbyte)
  omega

theorem isPrintable_decimalDigits (n : ℕ) : IsPrintable (decimalDigits n) :=
  isPrintable_of_all_isDigit (all_isDigit_decimalDigits n)

theorem firstOffending_eq_none {allowed : UInt8 → Bool} {literal : Bytes} :
    firstOffending allowed literal = none ↔ literal.all allowed = true := by
  have hnone : literal.findIdx? (fun byte => !allowed byte) = none ↔
      literal.all allowed = true := by
    simp [List.findIdx?_eq_none_iff]
  rw [← hnone, firstOffending]
  constructor
  · intro h
    cases hfound : literal.findIdx? fun byte => !allowed byte with
    | none => rfl
    | some index =>
      obtain ⟨hlt, -⟩ := List.findIdx?_eq_some_iff_getElem.1 hfound
      rw [hfound, Option.bind_some, List.getElem?_eq_getElem hlt] at h
      cases h
  · intro h
    rw [h]
    rfl

/-- A memo index is read back. -/
theorem readIndex_decimalDigits (n : UInt32) : readIndex (decimalDigits n.toNat) = .ok n := by
  have hlt := n.toNat_lt
  have hfits : decimalDigits n.toNat ≠ [] ∧ digitsValue (decimalDigits n.toNat) < UInt32.size := by
    rw [digitsValue_decimalDigits]
    exact ⟨decimalDigits_ne_nil _, hlt⟩
  rw [readIndex, firstOffending_eq_none.2 (all_isDigit_decimalDigits _)]
  simp only [if_pos hfits]
  rw [digitsValue_decimalDigits, UInt32.ofNat_toNat]

/-! ## Integers -/

theorem isSign_eq_false {byte : UInt8} (h : isDigit byte = true) : isSign byte = false := by
  rw [isDigit_iff] at h
  rw [isSign, Bool.or_eq_false_iff]
  constructor
  · rw [beq_eq_false_iff_ne]
    rintro rfl
    simp at h
  · rw [beq_eq_false_iff_ne]
    rintro rfl
    simp at h

/-- Digits are told from a sign in front of them. -/
theorem splitSign_withSign (negative : Bool) {digits : Bytes} (h : digits.all isDigit = true) :
    splitSign (withSign negative digits) = (negative, digits) := by
  cases negative with
  | true => rfl
  | false =>
    cases digits with
    | nil => rfl
    | cons byte rest =>
      have hbyte : isDigit byte = true := List.all_eq_true.1 h byte List.mem_cons_self
      simp [withSign, splitSign, isSign_eq_false hbyte]

theorem firstNonDigit_withSign (negative : Bool) {digits : Bytes}
    (h : digits.all isDigit = true) : firstNonDigit (withSign negative digits) = none := by
  cases negative with
  | true =>
    rw [withSign, if_pos rfl, firstNonDigit, firstOffending_eq_none.2 h]
    rfl
  | false =>
    cases digits with
    | nil => rfl
    | cons byte rest =>
      rw [List.all_cons, Bool.and_eq_true] at h
      rw [withSign, if_neg (by simp), firstNonDigit, h.1, firstOffending_eq_none.2 h.2]
      rfl

theorem getLast?_any_of_all {allowed : UInt8 → Bool} {digits : Bytes}
    (h : digits.all allowed = true) (hne : digits ≠ []) : digits.getLast?.any allowed = true := by
  rw [List.getLast?_eq_some_getLast hne]
  exact List.all_eq_true.1 h _ (List.getLast_mem hne)

theorem getLast?_withSign (negative : Bool) {size : Bytes} (h : size ≠ []) :
    (withSign negative size).getLast? = size.getLast? := by
  cases negative with
  | false => rfl
  | true =>
    rw [withSign, if_pos rfl, List.getLast?_cons, List.getLast?_eq_some_getLast h]
    rfl

/-- An integer is read back. -/
theorem signedInteger_ofInt (field : NumericField) (i : ℤ) :
    signedInteger field (ofInt i) = .ok i := by
  have hdigits := all_isDigit_decimalDigits i.natAbs
  have hlast : (ofInt i).getLast?.any isDigit = true := by
    rw [ofInt, getLast?_withSign _ (decimalDigits_ne_nil _)]
    exact getLast?_any_of_all hdigits (decimalDigits_ne_nil _)
  have hvalue : signedValue (ofInt i) = i := by
    rw [signedValue, ofInt, splitSign_withSign _ hdigits]
    simp only [digitsValue_decimalDigits, decide_eq_true_eq]
    split <;> omega
  rw [signedInteger, ofInt, firstNonDigit_withSign _ hdigits, ← ofInt]
  simp only [if_pos hlast, hvalue]

theorem isPrintable_withSign (negative : Bool) {size : Bytes} (h : IsPrintable size) :
    IsPrintable (withSign negative size) := by
  cases negative with
  | false => exact h
  | true => exact IsPrintable.cons.2 ⟨by decide, h⟩

theorem isPrintable_ofInt (i : ℤ) : IsPrintable (ofInt i) :=
  isPrintable_withSign _ (isPrintable_decimalDigits _)

/-- A canonical integer is none of the lines of two digits that begin with a zero. -/
theorem ofInt_ne {i : ℤ} {n : ℕ} (h : n < 10) :
    ofInt i ≠ [0x30, UInt8.ofNat (0x30 + n)] := by
  intro heq
  have hdigits : decimalDigits i.natAbs = [0x30, UInt8.ofNat (0x30 + n)] := by
    unfold ofInt withSign at heq
    split at heq
    · have hhead := List.head_eq_of_cons_eq heq
      exact absurd hhead (by decide)
    · exact heq
  have hvalue : digitsValue [0x30, UInt8.ofNat (0x30 + n)] = n := by
    have hconcat := digitsValue_concat [0x30] (UInt8.ofNat (0x30 + n))
    rw [digitValue_digit h] at hconcat
    exact hconcat.trans (by simp [digitsValue_eq_foldl, appendDigit, digitValue])
  have hnumber : i.natAbs = n := by
    rw [← digitsValue_decimalDigits i.natAbs, hdigits, hvalue]
  have hlength := congrArg List.length hdigits
  rw [hnumber, decimalDigits, if_pos h] at hlength
  simp at hlength

/-- The argument of `INT` is read back. -/
theorem readInt_ofLiteral (value : IntLiteral) : readInt (ofLiteral value) = .ok value := by
  cases value with
  | bool value => cases value <;> rfl
  | int value =>
    have hfalse : ofInt value ≠ [0x30, 0x30] := ofInt_ne (n := 0) (by decide)
    have htrue : ofInt value ≠ [0x30, 0x31] := ofInt_ne (n := 1) (by decide)
    rw [readInt, ofLiteral, if_neg hfalse, if_neg htrue, signedInteger_ofInt]
    rfl

theorem isPrintable_ofLiteral (value : IntLiteral) : IsPrintable (ofLiteral value) := by
  cases value with
  | bool value => cases value <;> simp [ofLiteral]
  | int value => exact isPrintable_ofInt value

theorem dropLongMark_concat (digits : Bytes) : dropLongMark (digits ++ [0x4c]) = digits := by
  rw [dropLongMark, List.getLast?_concat, if_pos rfl, List.dropLast_concat]

/-- The argument of `LONG` is read back. -/
theorem readLong_ofLong (i : ℤ) : readLong (ofLong i) = .ok i := by
  rw [readLong, ofLong, dropLongMark_concat, signedInteger_ofInt]

theorem isPrintable_ofLong (i : ℤ) : IsPrintable (ofLong i) := by
  simp [ofLong, isPrintable_ofInt]

end Pickle.Line
