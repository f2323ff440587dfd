import Mathlib.Data.List.Forall2
import Mathlib.Data.List.Induction
import Mathlib.Data.Nat.Digits.Defs
import Pickle.Line.Escape
import Pickle.Proofs.Line.Integers

/-!
# What digits spell

A numeral is a row of digits, each of which has a place; it spells the sum of the values of its
digits, each times the power of the base that belongs to its place (`SpellsIn`).  Which bytes are
digits, and of which value, is read off an alphabet: a digit has the value of its position.

Lines have numerals in two bases.  Those in base ten spell what `digitsValue` says
(`spellsDecimal_iff`), and those in base sixteen, in letters of either case, what `hexValue?` says
(`hexValue?_eq_some_iff`).
-/

namespace Pickle.Line

/-- Whether digits spell a number in a base, `isDigit` being true of a byte and its value as a
digit.  The last digit has the lowest place. -/
def SpellsIn (base : ℕ) (isDigit : UInt8 → ℕ → Prop) (digits : Bytes) (value : ℕ) : Prop :=
  ∃ places, List.Forall₂ isDigit digits.reverse places ∧ Nat.ofDigits base places = value

/-- Whether a byte is a decimal digit of some value. -/
def IsDecimalDigit (byte : UInt8) (value : ℕ) : Prop :=
  (Utf8.encode "0123456789")[value]? = some byte

/-- Whether a byte is a hexadecimal digit of some value, in either case. -/
def IsHexDigit (byte : UInt8) (value : ℕ) : Prop :=
  (Utf8.encode "0123456789abcdef")[value]? = some byte ∨
    (Utf8.encode "0123456789ABCDEF")[value]? = some byte

/-- Whether digits spell a number in base ten. -/
def SpellsDecimal : Bytes → ℕ → Prop := SpellsIn 10 IsDecimalDigit

/-- Whether digits spell a number in base sixteen. -/
def SpellsHex : Bytes → ℕ → Prop := SpellsIn 16 IsHexDigit

/-! ## Numerals in any base -/

section AnyBase

variable {base value : ℕ} {isDigit : UInt8 → ℕ → Prop} {digits : Bytes} {byte : UInt8}

@[simp] theorem spellsIn_nil : SpellsIn base isDigit [] value ↔ value = 0 := by
  simp [SpellsIn, eq_comm]

/-- One more digit at the end moves the others up by one place. -/
theorem spellsIn_concat : SpellsIn base isDigit (digits ++ [byte]) value ↔
    ∃ front last, SpellsIn base isDigit digits front ∧ isDigit byte last ∧
      value = front * base + last := by
  have hreverse : (digits ++ [byte]).reverse = byte :: digits.reverse := by simp
  unfold SpellsIn
  rw [hreverse]
  constructor
  · rintro ⟨places, hplaces, rfl⟩
    cases hplaces with
    | @cons _ last _ others hlast hothers =>
      refine ⟨_, last, ⟨others, hothers, rfl⟩, hlast, ?_⟩
      rw [Nat.ofDigits_cons, Nat.add_comm, Nat.mul_comm]
  · rintro ⟨_, last, ⟨others, hothers, rfl⟩, hlast, rfl⟩
    refine ⟨last :: others, .cons hlast hothers, ?_⟩
    rw [Nat.ofDigits_cons, Nat.add_comm, Nat.mul_comm]

/-- What few digits spell is small. -/
theorem SpellsIn.lt_pow (hdigit : ∀ byte value, isDigit byte value → value < base)
    (h : SpellsIn base isDigit digits value) : value < base ^ digits.length := by
  induction digits using List.reverseRecOn generalizing value with
  | nil =>
    obtain rfl := spellsIn_nil.1 h
    exact Nat.one_pos
  | append_singleton digits byte ih =>
    obtain ⟨front, last, hfront, hlast, rfl⟩ := spellsIn_concat.1 h
    have hbelow : last < base := hdigit byte last hlast
    have hle : (front + 1) * base ≤ base ^ digits.length * base :=
      Nat.mul_le_mul_right base (ih hfront)
    rw [List.length_append, List.length_singleton, Nat.pow_succ]
    rw [Nat.succ_mul] at hle
    omega

end AnyBase

/-! ## Base ten -/

/-- A byte is as far from the first of a run as its number is. -/
theorem ofNat_add_sub {byte : UInt8} {first : ℕ} (h : first ≤ byte.toNat) :
    UInt8.ofNat (first + (byte.toNat - first)) = byte := by
  rw [Nat.add_sub_cancel' h, UInt8.ofNat_toNat]

theorem isDecimalDigit_iff {byte : UInt8} {value : ℕ} :
    IsDecimalDigit byte value ↔ isDigit byte = true ∧ digitValue byte = value := by
  have hdigits : ∀ value < 10,
      (Utf8.encode "0123456789")[value]? = some (UInt8.ofNat (0x30 + value)) := by decide
  constructor
  · intro h
    have hlt : value < 10 := (List.getElem?_eq_some_iff.1 h).1
    rw [IsDecimalDigit, hdigits value hlt] at h
    obtain rfl := Option.some.inj h
    exact ⟨isDigit_digit hlt, digitValue_digit hlt⟩
  · rintro ⟨hdigit, rfl⟩
    have hbounds := isDigit_iff.1 hdigit
    rw [IsDecimalDigit, hdigits _ (digitValue_lt hdigit), digitValue, ofNat_add_sub hbounds.1]

/-- Digits alone spell a number, and it is their value. -/
theorem spellsDecimal_iff {digits : Bytes} {value : ℕ} :
    SpellsDecimal digits value ↔ digits.all isDigit = true ∧ digitsValue digits = value := by
  unfold SpellsDecimal
  induction digits using List.reverseRecOn generalizing value with
  | nil => simp [eq_comm]
  | append_singleton digits byte ih =>
    simp only [spellsIn_concat, ih, isDecimalDigit_iff, List.all_append, List.all_cons,
      List.all_nil, Bool.and_true, Bool.and_eq_true, digitsValue_concat]
    constructor
    · rintro ⟨_, _, ⟨hdigits, rfl⟩, ⟨hbyte, rfl⟩, rfl⟩
      exact ⟨⟨hdigits, hbyte⟩, rfl⟩
    · rintro ⟨⟨hdigits, hbyte⟩, rfl⟩
      exact ⟨_, _, ⟨hdigits, rfl⟩, ⟨hbyte, rfl⟩, rfl⟩

/-! ## Base sixteen -/

theorem isHexDigit_lt {byte : UInt8} {value : ℕ} (h : IsHexDigit byte value) : value < 16 := by
  rcases h with h | h
  · exact (List.getElem?_eq_some_iff.1 h).1
  · exact (List.getElem?_eq_some_iff.1 h).1

theorem hexDigit?_eq_some_iff {byte : UInt8} {value : ℕ} :
    hexDigit? byte = some value ↔ IsHexDigit byte value := by
  constructor
  · -- Each run of consecutive digits in an alphabet begins at a byte of its own.
    have hdigits : ∀ value < 10,
        (Utf8.encode "0123456789abcdef")[value]? = some (UInt8.ofNat (0x30 + value)) := by decide
    have hletters : ∀ value < 6,
        (Utf8.encode "0123456789abcdef")[value + 10]? = some (UInt8.ofNat (0x61 + value)) ∧
          (Utf8.encode "0123456789ABCDEF")[value + 10]? = some (UInt8.ofNat (0x41 + value)) := by
      decide
    intro h
    simp only [hexDigit?, Bool.and_eq_true, decide_eq_true_eq, UInt8.le_iff_toNat_le,
      UInt8.reduceToNat] at h
    split at h
    · next hrange =>
      obtain rfl := Option.some.inj h
      exact .inl ((hdigits _ (by omega)).trans (congrArg some (ofNat_add_sub hrange.1)))
    · split at h
      · next hrange =>
        obtain rfl := Option.some.inj h
        exact .inl ((hletters _ (by omega)).1.trans (congrArg some (ofNat_add_sub hrange.1)))
      · split at h
        · next hrange =>
          obtain rfl := Option.some.inj h
          exact .inr ((hletters _ (by omega)).2.trans (congrArg some (ofNat_add_sub hrange.1)))
        · cases h
  · have hlower : ∀ value < 16,
        (Utf8.encode "0123456789abcdef")[value]?.bind hexDigit? = some value := by decide
    have hupper : ∀ value < 16,
        (Utf8.encode "0123456789ABCDEF")[value]?.bind hexDigit? = some value := by decide
    intro h
    have hlt := isHexDigit_lt h
    rcases h with h | h
    · have hvalue := hlower value hlt
      rwa [h] at hvalue
    · have hvalue := hupper value hlt
      rwa [h] at hvalue

theorem hexValue?_concat (digits : Bytes) (byte : UInt8) : hexValue? (digits ++ [byte]) =
    (hexValue? digits).bind fun front => (hexDigit? byte).map (front * 16 + ·) := by
  unfold hexValue?
  rw [List.foldlM_append]
  cases List.foldlM (fun value digit => (hexDigit? digit).map (value * 16 + ·)) 0 digits with
  | none => rfl
  | some front => simp

/-- Bytes have a value in base sixteen if they are digits alone, and it is what these spell. -/
theorem hexValue?_eq_some_iff {digits : Bytes} {value : ℕ} :
    hexValue? digits = some value ↔ SpellsHex digits value := by
  unfold SpellsHex
  induction digits using List.reverseRecOn generalizing value with
  | nil => simp [hexValue?, eq_comm]
  | append_singleton digits byte ih =>
    simp only [hexValue?_concat, spellsIn_concat, Option.bind_eq_some_iff, Option.map_eq_some_iff,
      ih, hexDigit?_eq_some_iff]
    constructor
    · rintro ⟨front, hfront, last, hlast, rfl⟩
      exact ⟨front, last, hfront, hlast, rfl⟩
    · rintro ⟨front, last, hfront, hlast, rfl⟩
      exact ⟨front, hfront, last, hlast, rfl⟩

end Pickle.Line
