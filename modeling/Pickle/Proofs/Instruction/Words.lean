import Mathlib.Data.Nat.Basic
import Mathlib.Data.Int.Notation
import Pickle.Instruction.Word

/-!
# Bytes and the integers they spell

The readings and writings of `Pickle.Word` are inverse to each other in both directions: a number
that fits is read back from its bytes, and bytes are written back from the number they spell.  What
is needed beyond the little-endian order is that the top bit of a two's complement tells the upper
half of the numbers from the lower one (`any_getLast_iff`), so that a two's complement spells the one
integer in its range that has the right remainder.
-/

namespace Pickle.Word

theorem modulus_pos (width : ℕ) : 0 < modulus width := by
  induction width with
  | zero => exact Nat.one_pos
  | succ width ih =>
    rw [modulus]
    omega

/-- The top bit tells whether the number is in the upper half of what its bytes can tell apart. -/
theorem any_getLast_iff (bytes : Bytes) :
    (bytes.getLast?.any fun top => 0x80 ≤ top) = true ↔
      modulus bytes.length ≤ 2 * ofLittleEndian bytes := by
  induction bytes with
  | nil => simp [modulus, ofLittleEndian]
  | cons byte rest ih =>
    have hbyte := byte.toNat_lt
    rw [List.length_cons, modulus, ofLittleEndian]
    cases rest with
    | nil =>
      simp [ofLittleEndian, modulus, UInt8.le_iff_toNat_le]
      omega
    | cons next others =>
      have hlast : (byte :: next :: others).getLast? = (next :: others).getLast? := rfl
      rw [hlast, ih, List.length_cons, modulus]
      omega

theorem ofTwosComplement_eq (bytes : Bytes) :
    ofTwosComplement bytes =
      if modulus bytes.length ≤ 2 * ofLittleEndian bytes then
        (ofLittleEndian bytes : ℤ) - modulus bytes.length
      else ofLittleEndian bytes := by
  unfold ofTwosComplement
  simp only [any_getLast_iff]

/-- Bytes spell an integer that fits them. -/
theorem fits_ofTwosComplement (bytes : Bytes) : Fits bytes.length (ofTwosComplement bytes) := by
  have hlt := ofLittleEndian_lt bytes
  rw [ofTwosComplement_eq]
  split
  · constructor <;> omega
  · constructor <;> omega

theorem toTwosComplement_ofTwosComplement (bytes : Bytes) :
    toTwosComplement bytes.length (ofTwosComplement bytes) = bytes := by
  have hlt := ofLittleEndian_lt bytes
  have hmod : (ofTwosComplement bytes % modulus bytes.length).toNat = ofLittleEndian bytes := by
    rw [ofTwosComplement_eq]
    split
    · rw [Int.sub_emod_right, Int.emod_eq_of_lt (by omega) (by omega), Int.toNat_natCast]
    · rw [Int.emod_eq_of_lt (by omega) (by omega), Int.toNat_natCast]
  rw [toTwosComplement, hmod, toLittleEndian_ofLittleEndian]

theorem ofTwosComplement_toTwosComplement {width : ℕ} {i : ℤ} (h : Fits width i) :
    ofTwosComplement (toTwosComplement width i) = i := by
  obtain ⟨hlow, hhigh⟩ := h
  have hpos := modulus_pos width
  have hnonneg : 0 ≤ i % modulus width := Int.emod_nonneg _ (by omega)
  have hlt : i % modulus width < modulus width := Int.emod_lt_of_pos _ (by omega)
  have hvalue : ofLittleEndian (toTwosComplement width i) = (i % modulus width).toNat := by
    rw [toTwosComplement, ofLittleEndian_toLittleEndian (by omega)]
  rw [ofTwosComplement_eq, length_toTwosComplement, hvalue]
  by_cases hsign : i < 0
  · have hmod : i % modulus width = i + modulus width := by
      rw [← Int.add_emod_right, Int.emod_eq_of_lt (by omega) (by omega)]
    rw [hmod, if_pos (by omega)]
    omega
  · have hmod : i % modulus width = i := Int.emod_eq_of_lt (by omega) (by omega)
    rw [hmod, if_neg (by omega)]
    omega

theorem ofBigEndian_toBigEndian {width n : ℕ} (h : n < modulus width) :
    ofBigEndian (toBigEndian width n) = n := by
  rw [ofBigEndian, toBigEndian, List.reverse_reverse, ofLittleEndian_toLittleEndian h]

theorem toBigEndian_ofBigEndian (bytes : Bytes) :
    toBigEndian bytes.length (ofBigEndian bytes) = bytes := by
  have hreverse := toLittleEndian_ofLittleEndian bytes.reverse
  rw [List.length_reverse] at hreverse
  rw [toBigEndian, ofBigEndian, hreverse, List.reverse_reverse]

/-- Four bytes spell the same number as a word with sign and in two's complement. -/
theorem toInt_toInt32 {bytes : Bytes} (h : bytes.length = 4) :
    (UInt32.ofNat (ofLittleEndian bytes)).toInt32.toInt = ofTwosComplement bytes := by
  have hlt := ofLittleEndian_lt bytes
  rw [h] at hlt
  have hmodulus : modulus 4 = 2 ^ 32 := rfl
  have hword : (UInt32.ofNat (ofLittleEndian bytes)).toInt32.toInt =
      (BitVec.ofNat 32 (ofLittleEndian bytes)).toInt := rfl
  rw [hmodulus] at hlt
  rw [hword, BitVec.toInt_eq_toNat_cond, BitVec.toNat_ofNat, Nat.mod_eq_of_lt hlt,
    ofTwosComplement_eq, h, hmodulus]
  by_cases hhalf : 2 * ofLittleEndian bytes < 2 ^ 32
  · rw [if_pos hhalf, if_neg (by omega)]
  · rw [if_neg hhalf, if_pos (by omega)]

theorem fits_int32 (n : Int32) : Fits 4 n.toInt := by
  have hlow := n.le_toInt
  have hhigh := n.toInt_lt
  have hmodulus : modulus 4 = 2 ^ 32 := rfl
  constructor
  · rw [hmodulus]
    omega
  · rw [hmodulus]
    omega

theorem toInt32_toTwosComplement (n : Int32) :
    (UInt32.ofNat (ofLittleEndian (toTwosComplement 4 n.toInt))).toInt32 = n := by
  apply Int32.toInt_inj.1
  rw [toInt_toInt32 (length_toTwosComplement 4 n.toInt),
    ofTwosComplement_toTwosComplement (fits_int32 n)]

theorem toTwosComplement_toInt32 {bytes : Bytes} (h : bytes.length = 4) :
    toTwosComplement 4 (UInt32.ofNat (ofLittleEndian bytes)).toInt32.toInt = bytes := by
  rw [toInt_toInt32 h, ← h, toTwosComplement_ofTwosComplement]

end Pickle.Word
