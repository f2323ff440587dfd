import Pickle.Proofs.Line.Faults
import Pickle.Proofs.Line.Numerals

/-!
# Which lines are integers

An integer is written in one or more decimal digits, with at most a sign in front
(`SpellsInteger`), and a reader of integers accepts this and nothing else
(`signedInteger_eq_ok`).  The lines of `INT`, of `LONG` and of indices differ from it in little: two
lines of digits are booleans, a final mark is passed over, or there are no signs.

What is not accepted is rejected in one way only, since a line has one first byte that is not
allowed where it stands, or none (`Rejects.eq`).  So a reader that rejects by `Rejects` is known
from the lines that it accepts, `eq_error_iff`.
-/

namespace Pickle.Line

/-- Whether a line is one or more decimal digits, with at most a sign in front, that spell an
integer. -/
inductive SpellsInteger : Bytes → ℤ → Prop
  | unsigned {digits : Bytes} {value : ℕ} (hne : digits ≠ []) (h : SpellsDecimal digits value) :
      SpellsInteger digits value
  | plus {digits : Bytes} {value : ℕ} (hne : digits ≠ []) (h : SpellsDecimal digits value) :
      SpellsInteger (0x2b :: digits) value
  | minus {digits : Bytes} {value : ℕ} (hne : digits ≠ []) (h : SpellsDecimal digits value) :
      SpellsInteger (0x2d :: digits) (-value)

/-- Whether a line is such an integer, with a mark at its end or without. -/
def SpellsLong (body : Bytes) (n : ℤ) : Prop :=
  SpellsInteger body n ∨ ∃ digits, SpellsInteger digits n ∧ body = digits ++ [0x4c]

variable {body : Bytes} {fault : LineFault} {n : ℤ}

/-! ## Integers -/

/-- Digits behind a sign are read. -/
theorem signedInteger_sign (field : NumericField) {sign : UInt8} (hsign : isSign sign = true)
    {digits : Bytes} (hdigits : digits.all isDigit = true) (hne : digits ≠ []) :
    signedInteger field (sign :: digits) =
      .ok (if sign == 0x2d then -(digitsValue digits : ℤ) else digitsValue digits) := by
  have hnone : firstNonDigit (sign :: digits) = none :=
    firstNonDigit_cons_eq_none.2 ⟨.inr hsign, hdigits⟩
  have hlast : (sign :: digits).getLast?.any isDigit = true := by
    obtain ⟨head, rest, rfl⟩ := List.exists_cons_of_ne_nil hne
    rw [List.getLast?_cons_cons]
    exact getLast?_any_of_all hdigits hne
  rw [signedInteger, hnone]
  simp only [if_pos hlast, signedValue, splitSign, if_pos hsign]

theorem signedInteger_digits (field : NumericField) {digits : Bytes}
    (hdigits : digits.all isDigit = true) (hne : digits ≠ []) :
    signedInteger field digits = .ok (digitsValue digits : ℤ) := by
  have hsplit := splitSign_withSign false hdigits
  have hnone := firstNonDigit_withSign false hdigits
  rw [withSign, if_neg (by simp)] at hsplit hnone
  rw [signedInteger, hnone]
  simp only [if_pos (getLast?_any_of_all hdigits hne), signedValue, hsplit]
  rfl

/-- An integer is read, and nothing else. -/
theorem signedInteger_eq_ok {field : NumericField} :
    signedInteger field body = .ok n ↔ SpellsInteger body n := by
  constructor
  · intro h
    unfold signedInteger at h
    split at h
    · cases h
    · next hnone =>
      split at h
      · next hlast =>
        cases h
        cases body with
        | nil => cases hlast
        | cons head rest =>
          obtain ⟨hdigit | hsign, hrest⟩ := firstNonDigit_cons_eq_none.1 hnone
          · have hall : (head :: rest).all isDigit = true := by
              rw [List.all_cons, hdigit, hrest]
              rfl
            have hsplit := splitSign_withSign false hall
            rw [withSign, if_neg (by simp)] at hsplit
            rw [signedValue, hsplit]
            exact .unsigned (List.cons_ne_nil _ _) (spellsDecimal_iff.2 ⟨hall, rfl⟩)
          · -- A sign alone is refused, since the last byte has to be a digit.
            have hne : rest ≠ [] := by
              rintro rfl
              have hdigit : isDigit head = true := hlast
              rw [isSign_eq_false hdigit] at hsign
              cases hsign
            have hdecimal : SpellsDecimal rest (digitsValue rest) :=
              spellsDecimal_iff.2 ⟨hrest, rfl⟩
            have hsigns : head = 0x2b ∨ head = 0x2d := by simpa [isSign] using hsign
            rcases hsigns with rfl | rfl
            · exact .plus hne hdecimal
            · exact .minus hne hdecimal
      · cases h
  · intro h
    cases h with
    | unsigned hne h =>
      obtain ⟨hdigits, rfl⟩ := spellsDecimal_iff.1 h
      exact signedInteger_digits field hdigits hne
    | plus hne h =>
      obtain ⟨hdigits, rfl⟩ := spellsDecimal_iff.1 h
      exact signedInteger_sign field rfl hdigits hne
    | minus hne h =>
      obtain ⟨hdigits, rfl⟩ := spellsDecimal_iff.1 h
      exact signedInteger_sign field rfl hdigits hne

theorem spellsInteger_ofInt (i : ℤ) : SpellsInteger (ofInt i) i :=
  signedInteger_eq_ok.1 (signedInteger_ofInt .int i)

namespace SpellsInteger

theorem isPrintable (h : SpellsInteger body n) : IsPrintable body := by
  cases h with
  | unsigned _ h => exact isPrintable_of_all_isDigit (spellsDecimal_iff.1 h).1
  | plus _ h =>
    exact IsPrintable.cons.2 ⟨by decide, isPrintable_of_all_isDigit (spellsDecimal_iff.1 h).1⟩
  | minus _ h =>
    exact IsPrintable.cons.2 ⟨by decide, isPrintable_of_all_isDigit (spellsDecimal_iff.1 h).1⟩

/-- An integer ends in a digit, so it has no mark. -/
theorem dropLongMark_eq (h : SpellsInteger body n) : dropLongMark body = body := by
  have hlast : body.getLast? ≠ some 0x4c := by
    intro hmark
    have hread : signedInteger .int body = .ok n := signedInteger_eq_ok.2 h
    have hdigit : (some (0x4c : UInt8)).any isDigit ≠ true := by decide
    unfold signedInteger at hread
    split at hread
    · cases hread
    · rw [hmark, if_neg hdigit] at hread
      cases hread
  rw [dropLongMark, if_neg hlast]

end SpellsInteger

theorem SpellsLong.isPrintable (h : SpellsLong body n) : IsPrintable body := by
  rcases h with h | ⟨digits, hdigits, rfl⟩
  · exact h.isPrintable
  · rw [IsPrintable.append]
    exact ⟨hdigits.isPrintable, IsPrintable.cons.2 ⟨by decide, IsPrintable.nil⟩⟩

/-! ## Lines that are accepted -/

theorem readInt_eq_bool {flag : Bool} :
    readInt body = .ok (.bool flag) ↔ body = [0x30, if flag then 0x31 else 0x30] := by
  constructor
  · intro h
    unfold readInt at h
    split at h
    · next hfalse =>
      cases h
      exact hfalse
    · split at h
      · next htrue =>
        cases h
        exact htrue
      · cases hvalue : signedInteger .int body with
        | ok value =>
          rw [hvalue] at h
          cases h
        | error other =>
          rw [hvalue] at h
          cases h
  · rintro rfl
    cases flag with
    | false => rfl
    | true => rfl

theorem readInt_eq_int : readInt body = .ok (.int n) ↔
    body ≠ [0x30, 0x30] ∧ body ≠ [0x30, 0x31] ∧ SpellsInteger body n := by
  rw [readInt]
  split
  · next hfalse => exact iff_of_false (by simp) fun h => h.1 hfalse
  · next hfalse =>
    split
    · next htrue => exact iff_of_false (by simp) fun h => h.2.1 htrue
    · next htrue =>
      have hread : signedInteger .int body = .ok n ↔ SpellsInteger body n := signedInteger_eq_ok
      rw [and_iff_right hfalse, and_iff_right htrue, ← hread]
      cases signedInteger .int body with
      | error other =>
        show Except.error other = .ok (IntLiteral.int n) ↔ _
        exact iff_of_false (by simp) (by simp)
      | ok value =>
        show Except.ok (IntLiteral.int value) = .ok (.int n) ↔ _
        rw [Except.ok.injEq, Except.ok.injEq, IntLiteral.int.injEq]

/-- Zeros in front are allowed, but `01` is a boolean. -/
example : readInt (Utf8.encode "-012") = .ok (.int (-12)) ∧
    readInt (Utf8.encode "01") = .ok (.bool true) := ⟨by cbv, by cbv⟩

theorem readLong_eq_ok : readLong body = .ok n ↔ SpellsLong body n := by
  constructor
  · intro h
    have hdigits : SpellsInteger (dropLongMark body) n := signedInteger_eq_ok.1 h
    rcases dropLongMark_cases body with hsame | hmark
    · exact .inl (hsame ▸ hdigits)
    · exact .inr ⟨_, hdigits, hmark.symm⟩
  · rintro (h | ⟨digits, hdigits, rfl⟩)
    · rw [readLong, h.dropLongMark_eq]
      exact signedInteger_eq_ok.2 h
    · rw [readLong, dropLongMark_concat]
      exact signedInteger_eq_ok.2 hdigits

theorem readIndex_eq_ok {index : UInt32} :
    readIndex body = .ok index ↔ body ≠ [] ∧ SpellsDecimal body index.toNat := by
  rw [spellsDecimal_iff, readIndex]
  split
  · next hfirst =>
    refine iff_of_false (by simp) fun h => ?_
    rw [firstOffending_eq_none.2 h.2.1] at hfirst
    cases hfirst
  · next hnone =>
    rw [and_iff_right (firstOffending_eq_none.1 hnone)]
    split
    · next hfits =>
      rw [and_iff_right hfits.1, Except.ok.injEq]
      constructor
      · rintro rfl
        exact (UInt32.toNat_ofNat_of_lt' hfits.2).symm
      · intro hvalue
        rw [hvalue, UInt32.ofNat_toNat]
    · next hfits =>
      refine iff_of_false (by simp) fun h => hfits ⟨h.1, ?_⟩
      rw [h.2]
      exact index.toNat_lt

/-- The lines of `INT` are the integers, since those that are booleans are spelled like integers. -/
theorem exists_readInt_eq_ok : (∃ value, readInt body = .ok value) ↔ ∃ n, SpellsInteger body n := by
  constructor
  · rintro ⟨value, h⟩
    cases value with
    | bool flag =>
      obtain rfl := readInt_eq_bool.1 h
      refine ⟨_, .unsigned (List.cons_ne_nil _ _) (spellsDecimal_iff.2 ⟨?_, rfl⟩)⟩
      cases flag with
      | false => rfl
      | true => rfl
    | int n => exact ⟨n, (readInt_eq_int.1 h).2.2⟩
  · rintro ⟨n, h⟩
    by_cases hfalse : body = [0x30, 0x30]
    · exact ⟨.bool false, readInt_eq_bool.2 hfalse⟩
    · by_cases htrue : body = [0x30, 0x31]
      · exact ⟨.bool true, readInt_eq_bool.2 htrue⟩
      · exact ⟨.int n, readInt_eq_int.2 ⟨hfalse, htrue, h⟩⟩

/-! ## Lines that are rejected -/

variable {field : NumericField} {allowed : ℕ → UInt8 → Prop} {literal : Bytes}

theorem IsFirstOffending.eq {index index' : ℕ} {byte byte' : UInt8}
    (h : IsFirstOffending allowed body index byte)
    (h' : IsFirstOffending allowed body index' byte') : index = index' ∧ byte = byte' := by
  have hindex : index = index' := by
    rcases lt_trichotomy index index' with hlt | heq | hlt
    · exact absurd (h'.before index hlt byte h.stands) h.offends
    · exact heq
    · exact absurd (h.before index' hlt byte' h'.stands) h'.offends
  subst hindex
  exact ⟨rfl, Option.some.inj (h.stands.symm.trans h'.stands)⟩

/-- A line is rejected in one way. -/
theorem Rejects.eq {other : LineFault} (h : Rejects field allowed body literal fault)
    (hother : Rejects field allowed body literal other) : fault = other := by
  cases h with
  | byte hfirst =>
    cases hother with
    | byte hfirst' =>
      obtain ⟨rfl, rfl⟩ := hfirst.eq hfirst'
      rfl
    | literal hall => exact absurd (hall _ _ hfirst.stands) hfirst.offends
  | literal hall =>
    cases hother with
    | byte hfirst => exact absurd (hall _ _ hfirst.stands) hfirst.offends
    | literal => rfl

/-- What is not accepted is rejected, in the one way that there is. -/
theorem eq_error_iff {α : Type} {result : Except LineFault α} {accepted : Prop}
    (hok : (∃ value, result = .ok value) ↔ accepted)
    (herror : ∀ fault, result = .error fault → Rejects field allowed body literal fault) :
    result = .error fault ↔ ¬ accepted ∧ Rejects field allowed body literal fault := by
  rw [← hok]
  cases result with
  | ok value => exact iff_of_false (by simp) fun h => h.1 ⟨value, rfl⟩
  | error other =>
    have hother := herror other rfl
    constructor
    · rintro ⟨⟩
      exact ⟨(by simp), hother⟩
    · rintro ⟨-, hfault⟩
      rw [hother.eq hfault]

end Pickle.Line
