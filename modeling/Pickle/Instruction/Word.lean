import Pickle.Text.Utf8

/-!
# Integers as bytes

Unsigned integers of a fixed width, in either byte order, and two's complement integers of any
width.  Each reading has its writing beside it.  The integer of no bytes is zero.

For the little-endian order the two are inverse to each other: `toLittleEndian_ofLittleEndian` says
so for all bytes, `ofLittleEndian_toLittleEndian` for the numbers below `modulus width`.
-/

namespace Pickle.Word

/-- The number that bytes spell, the least significant first. -/
def ofLittleEndian : Bytes → Nat
  | [] => 0
  | byte :: rest => byte.toNat + 256 * ofLittleEndian rest

/-- The `width` lowest bytes of a number, the least significant first. -/
def toLittleEndian : (width : Nat) → Nat → Bytes
  | 0, _ => []
  | width + 1, n => UInt8.ofNat n :: toLittleEndian width (n / 256)

/-- The number that bytes spell, the most significant first. -/
def ofBigEndian (bytes : Bytes) : Nat := ofLittleEndian bytes.reverse

/-- The `width` lowest bytes of a number, the most significant first. -/
def toBigEndian (width n : Nat) : Bytes := (toLittleEndian width n).reverse

/-- The number of integers that `width` bytes can tell apart. -/
def modulus : (width : Nat) → Nat
  | 0 => 1
  | width + 1 => 256 * modulus width

/-- The integer of little-endian two's complement bytes: the top bit counts negatively. -/
def ofTwosComplement (bytes : Bytes) : Int :=
  let value := ofLittleEndian bytes
  if (bytes.getLast?.any fun top => 0x80 ≤ top) then
    (value : Int) - modulus bytes.length
  else value

/-- The `width` lowest bytes of an integer in two's complement, the least significant first. -/
def toTwosComplement (width : Nat) (i : Int) : Bytes :=
  toLittleEndian width (i % modulus width).toNat

/-- Whether an integer has a two's complement of `width` bytes; the only one of no bytes is zero. -/
def Fits (width : Nat) (i : Int) : Prop := -modulus width ≤ 2 * i ∧ 2 * i < modulus width

instance (width : Nat) (i : Int) : Decidable (Fits width i) :=
  inferInstanceAs (Decidable (_ ∧ _))

/-! ## The two directions -/

@[simp] theorem length_toLittleEndian (width n : Nat) : (toLittleEndian width n).length = width := by
  induction width generalizing n with
  | zero => rfl
  | succ width ih => simp [toLittleEndian, ih]

@[simp] theorem length_toBigEndian (width n : Nat) : (toBigEndian width n).length = width := by
  simp [toBigEndian]

@[simp] theorem length_toTwosComplement (width : Nat) (i : Int) :
    (toTwosComplement width i).length = width := by
  simp [toTwosComplement]

/-- Bytes spell a number below the modulus of their width. -/
theorem ofLittleEndian_lt (bytes : Bytes) : ofLittleEndian bytes < modulus bytes.length := by
  induction bytes with
  | nil => simp [ofLittleEndian, modulus]
  | cons byte rest ih =>
    have := byte.toNat_lt
    simp only [ofLittleEndian, List.length_cons, modulus]
    omega

/-- A number is read from its lowest bytes up to what they leave out. -/
theorem ofLittleEndian_toLittleEndian_mod (width n : Nat) :
    ofLittleEndian (toLittleEndian width n) = n % modulus width := by
  induction width generalizing n with
  | zero => simp [toLittleEndian, ofLittleEndian, modulus, Nat.mod_one]
  | succ width ih =>
    rw [modulus, Nat.mod_mul]
    simp only [toLittleEndian, ofLittleEndian, ih, UInt8.toNat_ofNat']

/-- A number that fits is read back from its bytes. -/
theorem ofLittleEndian_toLittleEndian {width n : Nat} (h : n < modulus width) :
    ofLittleEndian (toLittleEndian width n) = n := by
  rw [ofLittleEndian_toLittleEndian_mod, Nat.mod_eq_of_lt h]

/-- Bytes are written back from the number they spell. -/
theorem toLittleEndian_ofLittleEndian (bytes : Bytes) :
    toLittleEndian bytes.length (ofLittleEndian bytes) = bytes := by
  induction bytes with
  | nil => rfl
  | cons byte rest ih =>
    have hbyte := byte.toNat_lt
    simp only [List.length_cons, toLittleEndian, ofLittleEndian]
    rw [show (byte.toNat + 256 * ofLittleEndian rest) / 256 = ofLittleEndian rest by omega, ih]
    congr 1
    apply UInt8.toNat_inj.mp
    rw [UInt8.toNat_ofNat']
    omega

end Pickle.Word
