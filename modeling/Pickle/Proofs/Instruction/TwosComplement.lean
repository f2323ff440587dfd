import Mathlib
import Pickle.Proofs.Instruction.Words

/-!
# The range of a two's complement

Among the integers that leave the same remainder, a two's complement of some width spells the one in
the signed range of this width: half of the integers that so many bytes can tell apart are below
zero and half are not (`Word.InRange`).  There is no other in the range, so all that is to be known
about a decoded integer follows from its remainder and its range: that encodings are decoded to what
they encode, that a byte of the sign on top changes nothing, and that different bytes of one length
spell different integers (`ofTwosComplement_spec`).
-/

namespace Pickle.Word

variable {width : ℕ} {i j : ℤ}

/-- Whether an integer is in the signed range of some bytes.  In that of no bytes there is zero
alone. -/
def InRange (width : ℕ) (i : ℤ) : Prop :=
  if width = 0 then i = 0 else -2 ^ (8 * width - 1) ≤ i ∧ i < 2 ^ (8 * width - 1)

/-- The byte all of whose bits are the sign of an integer. -/
def signByte (i : ℤ) : UInt8 := if i < 0 then 0xff else 0

theorem ofLittleEndian_eq_ofDigits (bytes : Bytes) :
    ofLittleEndian bytes = Nat.ofDigits 256 (bytes.map UInt8.toNat) := by
  induction bytes with
  | nil => rfl
  | cons byte rest ih =>
    rw [ofLittleEndian, List.map_cons, Nat.ofDigits_cons, ih]

theorem modulus_eq_pow (width : ℕ) : modulus width = 2 ^ (8 * width) := by
  induction width with
  | zero => rfl
  | succ width ih =>
    rw [modulus, ih, Nat.mul_succ, pow_add]
    omega

theorem cast_modulus (width : ℕ) : (modulus width : ℤ) = 2 ^ (8 * width) := by
  rw [modulus_eq_pow]
  push_cast
  rfl

/-- Half of the integers are on either side of zero. -/
theorem inRange_iff_fits : InRange width i ↔ Fits width i := by
  unfold InRange Fits
  rw [cast_modulus]
  by_cases hwidth : width = 0
  · rw [if_pos hwidth, hwidth]
    constructor
    · rintro rfl
      constructor <;> decide
    · rintro ⟨hlow, hhigh⟩
      norm_num at hlow hhigh
      omega
  · have hhalf : (2 : ℤ) ^ (8 * width) = 2 * 2 ^ (8 * width - 1) := by
      rw [← pow_succ']
      congr 1
      omega
    rw [if_neg hwidth, hhalf]
    constructor
    · rintro ⟨hlow, hhigh⟩
      constructor <;> linarith
    · rintro ⟨hlow, hhigh⟩
      constructor <;> linarith

/-- In the range of a width, an integer is known by its remainder. -/
theorem Fits.eq_of_modEq (hi : Fits width i) (hj : Fits width j)
    (h : i ≡ j [ZMOD modulus width]) : i = j := by
  obtain ⟨hlow, hhigh⟩ := hi
  obtain ⟨hlow', hhigh'⟩ := hj
  apply Int.sub_eq_zero.1
  apply Int.eq_zero_of_abs_lt_dvd (h.symm.dvd)
  rw [abs_lt]
  constructor <;> omega

theorem ofTwosComplement_modEq (bytes : Bytes) :
    ofTwosComplement bytes ≡ ofLittleEndian bytes [ZMOD modulus bytes.length] := by
  rw [ofTwosComplement_eq]
  split
  · exact Int.sub_emod_right _ _
  · exact Int.ModEq.refl _

theorem ofLittleEndian_concat (bytes : Bytes) (byte : UInt8) :
    ofLittleEndian (bytes ++ [byte]) =
      ofLittleEndian bytes + modulus bytes.length * byte.toNat := by
  induction bytes with
  | nil => simp [ofLittleEndian, modulus]
  | cons head rest ih =>
    rw [List.cons_append, ofLittleEndian, ofLittleEndian, ih, List.length_cons, modulus]
    ring

/-- More bytes have a larger range. -/
theorem Fits.succ (h : Fits width i) : Fits (width + 1) i := by
  obtain ⟨hlow, hhigh⟩ := h
  have hpos := modulus_pos width
  rw [Fits, modulus]
  push_cast
  constructor <;> omega

/-- What bytes spell, in terms of its own sign. -/
theorem ofTwosComplement_eq_of_sign (bytes : Bytes) :
    ofTwosComplement bytes =
      ofLittleEndian bytes -
        if ofTwosComplement bytes < 0 then (modulus bytes.length : ℤ) else 0 := by
  have hlt := ofLittleEndian_lt bytes
  rw [ofTwosComplement_eq]
  by_cases hhalf : modulus bytes.length ≤ 2 * ofLittleEndian bytes
  · rw [if_pos hhalf, if_pos (by omega)]
  · rw [if_neg hhalf, if_neg (by omega), sub_zero]

/-- A byte of the sign on top leaves the integer as it is: the new bytes spell an integer of the
same remainder, and the old one is in the new range, too. -/
theorem ofTwosComplement_signByte (bytes : Bytes) :
    ofTwosComplement (bytes ++ [signByte (ofTwosComplement bytes)]) = ofTwosComplement bytes := by
  let sign := signByte (ofTwosComplement bytes)
  have hlength : (bytes ++ [sign]).length = bytes.length + 1 := List.length_append
  have hextended := fits_ofTwosComplement (bytes ++ [sign])
  have hcongruent := ofTwosComplement_modEq (bytes ++ [sign])
  rw [hlength] at hextended hcongruent
  apply hextended.eq_of_modEq (fits_ofTwosComplement bytes).succ
  refine hcongruent.trans (Int.modEq_iff_dvd.2 ?_)
  rw [ofLittleEndian_concat, ofTwosComplement_eq_of_sign bytes, modulus]
  by_cases hnegative : ofTwosComplement bytes < 0
  · have hsign : sign = 0xff := if_pos hnegative
    rw [if_pos hnegative, hsign]
    refine ⟨-1, ?_⟩
    push_cast
    norm_num
    ring
  · have hsign : sign = 0 := if_neg hnegative
    rw [if_neg hnegative, hsign]
    exact ⟨0, by simp⟩

/-- Two's complement is exact for bytes of any length.

The integer that bytes spell is congruent to the number that they spell without sign, and in the
signed range of their length.  So an integer in the range of some width is read back from the bytes
of this width that spell its remainder, a byte of the sign on top of any bytes does not change what
they spell, and no two strings of equally many bytes spell the same. -/
theorem ofTwosComplement_spec :
    (∀ bytes : Bytes,
      ofTwosComplement bytes ≡ (Nat.ofDigits 256 (bytes.map UInt8.toNat) : ℕ)
          [ZMOD 2 ^ (8 * bytes.length)] ∧
        InRange bytes.length (ofTwosComplement bytes)) ∧
    (∀ width i, InRange width i →
      (toTwosComplement width i).length = width ∧
        (Nat.ofDigits 256 ((toTwosComplement width i).map UInt8.toNat) : ℕ) =
          i % 2 ^ (8 * width) ∧
        ofTwosComplement (toTwosComplement width i) = i) ∧
    (∀ bytes : Bytes,
      ofTwosComplement (bytes ++ [signByte (ofTwosComplement bytes)]) = ofTwosComplement bytes) ∧
    ∀ bytes other : Bytes, bytes.length = other.length →
      ofTwosComplement bytes = ofTwosComplement other → bytes = other := by
  refine ⟨fun bytes => ⟨?_, ?_⟩, fun width i h => ⟨?_, ?_, ?_⟩, ofTwosComplement_signByte, ?_⟩
  · rw [← ofLittleEndian_eq_ofDigits, ← cast_modulus]
    exact ofTwosComplement_modEq bytes
  · exact inRange_iff_fits.2 (fits_ofTwosComplement bytes)
  · exact length_toTwosComplement width i
  · have hpos := modulus_pos width
    have hnonneg : 0 ≤ i % modulus width := Int.emod_nonneg _ (by omega)
    have hlt : i % modulus width < modulus width := Int.emod_lt_of_pos _ (by omega)
    rw [← ofLittleEndian_eq_ofDigits, toTwosComplement, ofLittleEndian_toLittleEndian (by omega),
      Int.toNat_of_nonneg hnonneg, cast_modulus]
  · exact ofTwosComplement_toTwosComplement (inRange_iff_fits.1 h)
  · intro bytes other hlength hsame
    rw [← toTwosComplement_ofTwosComplement bytes, ← toTwosComplement_ofTwosComplement other, hsame,
      hlength]

/-- The boundaries of two bytes: the lowest integer, which has the top bit alone, all bits, and the
highest integer; and the same lowest integer in three bytes. -/
theorem ofTwosComplement_spec_two_bytes :
    InRange 2 (-32768) ∧ ofTwosComplement (toTwosComplement 2 (-32768)) = -32768 ∧
      toTwosComplement 2 (-32768) = [0x00, 0x80] ∧
      ofTwosComplement [0x00, 0x80, 0xff] = -32768 ∧
      ofTwosComplement [0xff, 0xff] = -1 ∧ ofTwosComplement [0xff, 0x7f] = 32767 := by
  have hrange : InRange 2 (-32768) := by
    rw [InRange, if_neg (by decide)]
    norm_num
  obtain ⟨-, hdecodes, hextends, hinjective⟩ := ofTwosComplement_spec
  obtain ⟨hlength, -, hsame⟩ := hdecodes 2 (-32768) hrange
  have hlowest : ofTwosComplement [0x00, 0x80] = -32768 := by decide
  refine ⟨hrange, hsame, ?_, ?_, by decide, by decide⟩
  · exact hinjective _ [0x00, 0x80] hlength (hsame.trans hlowest.symm)
  · exact (hextends [0x00, 0x80]).trans hlowest

end Pickle.Word
