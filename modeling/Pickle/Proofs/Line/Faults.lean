import Mathlib
import Pickle.Line.Decimal
import Pickle.Line.Escape
import Pickle.Proofs.Line.Integers

/-!
# Where a line is at fault

A reader of a line that fails says what is wrong and where in the line it is: at a byte that is no
part of a number, at the backslash of an escape that there is none of, or at the start of a line
that is wrong as a whole.  `LineFault.StandsIn` says that the line bears this out, and every reader of a
line is held to it.

Two readers do not look at the line as it is.  A long integer is read without its mark, from the
beginning of the line, so a place there is a place in the line.  A quoted string is read between its
quotes, one byte further on.
-/

namespace Pickle

/-- Whether a fault stands in a line where it is said to stand. -/
def LineFault.StandsIn (fault : LineFault) (body : Bytes) : Prop :=
  match fault.fault with
  | .nonNumeric _ byte => body[fault.offset]? = some byte ∧ Line.isDigit byte = false
  | .invalidEscape escape => 0x5c :: escape <+: body.drop fault.offset
  | .missingQuote unquoted => fault.offset = 0 ∧ unquoted = body
  | .invalidLiteral literal => fault.offset = 0 ∧ (literal = body ∨ literal ++ [0x4c] = body)
  | .notUtf8 => fault.offset = 0 ∧ Utf8.decode body = none
  | _ => False

namespace Line

variable {body : Bytes} {fault : LineFault} {index : ℕ} {byte : UInt8}

/-! ## Numbers -/

/-- Whether a byte is the first one of a line that is not allowed where it stands. -/
structure IsFirstOffending (allowed : ℕ → UInt8 → Prop) (body : Bytes) (index : ℕ)
    (byte : UInt8) : Prop where
  stands : body[index]? = some byte
  offends : ¬ allowed index byte
  before : ∀ earlier < index, ∀ other, body[earlier]? = some other → allowed earlier other

/-- Whether a line of digits is rejected with a fault: at the first byte that is not allowed, or, if
every byte is allowed where it stands, as a whole. -/
inductive Rejects (field : NumericField) (allowed : ℕ → UInt8 → Prop) (body literal : Bytes) :
    LineFault → Prop
  | byte {index : ℕ} {byte : UInt8} (h : IsFirstOffending allowed body index byte) :
      Rejects field allowed body literal ⟨.nonNumeric field byte, index⟩
  | literal (h : ∀ index byte, body[index]? = some byte → allowed index byte) :
      Rejects field allowed body literal ⟨.invalidLiteral literal, 0⟩

/-- Whether a byte can stand in an integer: a digit, or a sign in front. -/
def IsIntegerByte (index : ℕ) (byte : UInt8) : Prop :=
  isDigit byte = true ∨ index = 0 ∧ isSign byte = true

/-- Whether a byte can stand on a line of a long integer, which may have a mark at its end. -/
def IsLongByte (body : Bytes) (index : ℕ) (byte : UInt8) : Prop :=
  IsIntegerByte index byte ∨ index + 1 = body.length ∧ byte = 0x4c

theorem firstOffending_eq_some {allowed : UInt8 → Bool}
    (h : firstOffending allowed body = some (index, byte)) :
    IsFirstOffending (fun _ byte => allowed byte = true) body index byte := by
  obtain ⟨found, hfound, hget⟩ := Option.bind_eq_some_iff.1 h
  obtain ⟨byte', hbyte, hpair⟩ := Option.map_eq_some_iff.1 hget
  obtain ⟨rfl, rfl⟩ := Prod.mk.inj hpair
  obtain ⟨hlt, hnot, hbefore⟩ := List.findIdx?_eq_some_iff_getElem.1 hfound
  refine ⟨hbyte, ?_, fun earlier hearlier other hother => ?_⟩
  · rw [List.getElem?_eq_getElem hlt] at hbyte
    obtain rfl := Option.some.inj hbyte
    simpa using hnot
  · obtain ⟨_, rfl⟩ := List.getElem?_eq_some_iff.1 hother
    simpa using hbefore earlier hearlier

theorem firstNonDigit_eq_some (h : firstNonDigit body = some (index, byte)) :
    IsFirstOffending IsIntegerByte body index byte := by
  cases body with
  | nil => cases h
  | cons head rest =>
    by_cases hhead : (isDigit head || isSign head) = true
    · rw [firstNonDigit, if_pos hhead] at h
      obtain ⟨⟨other, found⟩, hfound, hpair⟩ := Option.map_eq_some_iff.1 h
      obtain ⟨rfl, rfl⟩ := Prod.mk.inj hpair
      obtain ⟨hstands, hoffends, hbefore⟩ := firstOffending_eq_some hfound
      refine ⟨hstands, ?_, fun earlier hearlier byte hbyte => ?_⟩
      · rintro (hdigit | ⟨hzero, -⟩)
        · exact hoffends hdigit
        · exact absurd hzero (Nat.succ_ne_zero other)
      · cases earlier with
        | zero =>
          obtain rfl := Option.some.inj hbyte
          exact (Bool.or_eq_true_iff.1 hhead).imp_right fun hsign => ⟨rfl, hsign⟩
        | succ earlier => exact .inl (hbefore earlier (Nat.lt_of_succ_lt_succ hearlier) byte hbyte)
    · rw [firstNonDigit, if_neg hhead] at h
      obtain ⟨rfl, rfl⟩ := Prod.mk.inj (Option.some.inj h)
      refine ⟨rfl, fun hallowed => hhead ?_, fun _ hearlier => absurd hearlier (Nat.not_lt_zero _)⟩
      exact Bool.or_eq_true_iff.2 (hallowed.imp_right And.right)

theorem firstNonDigit_cons_eq_none {head : UInt8} {rest : Bytes} :
    firstNonDigit (head :: rest) = none ↔
      (isDigit head = true ∨ isSign head = true) ∧ rest.all isDigit = true := by
  by_cases hhead : (isDigit head || isSign head) = true
  · rw [firstNonDigit, if_pos hhead, Option.map_eq_none_iff, firstOffending_eq_none,
      and_iff_right (Bool.or_eq_true_iff.1 hhead)]
  · rw [firstNonDigit, if_neg hhead]
    exact iff_of_false (by simp) fun h => hhead (Bool.or_eq_true_iff.2 h.1)

theorem isIntegerByte_of_firstNonDigit (h : firstNonDigit body = none)
    (hbyte : body[index]? = some byte) : IsIntegerByte index byte := by
  cases body with
  | nil => cases hbyte
  | cons head rest =>
    obtain ⟨hhead, hrest⟩ := firstNonDigit_cons_eq_none.1 h
    cases index with
    | zero =>
      obtain rfl := Option.some.inj hbyte
      exact hhead.imp_right fun hsign => ⟨rfl, hsign⟩
    | succ index => exact .inl (List.all_eq_true.1 hrest _ (List.mem_of_getElem? hbyte))

theorem rejects_of_signedInteger {field : NumericField}
    (h : signedInteger field body = .error fault) :
    Rejects field IsIntegerByte body body fault := by
  unfold signedInteger at h
  split at h
  · next hfirst =>
    cases h
    exact .byte (firstNonDigit_eq_some hfirst)
  · next hnone =>
    split at h
    · cases h
    · cases h
      exact .literal fun index byte hbyte => isIntegerByte_of_firstNonDigit hnone hbyte

theorem rejects_of_readInt (h : readInt body = .error fault) :
    Rejects .int IsIntegerByte body body fault := by
  unfold readInt at h
  split at h
  · cases h
  · split at h
    · cases h
    · cases hvalue : signedInteger .int body with
      | ok value =>
        rw [hvalue] at h
        cases h
      | error other =>
        rw [hvalue] at h
        cases h
        exact rejects_of_signedInteger hvalue

/-- A line is what is left without the mark, with at most the mark behind it. -/
theorem dropLongMark_cases (body : Bytes) :
    dropLongMark body = body ∨ dropLongMark body ++ [0x4c] = body := by
  by_cases hmark : body.getLast? = some 0x4c
  · right
    rw [dropLongMark, if_pos hmark]
    exact List.dropLast_append_getLast? _ hmark
  · left
    rw [dropLongMark, if_neg hmark]

/-- The mark can stand, and before it what can stand in an integer. -/
theorem isLongByte_iff (hbyte : body[index]? = some byte) : IsLongByte body index byte ↔
    ∀ found, (dropLongMark body)[index]? = some found → IsIntegerByte index found := by
  by_cases hmark : body.getLast? = some 0x4c
  · obtain ⟨digits, rfl⟩ := List.getLast?_eq_some_iff.1 hmark
    rw [dropLongMark_concat]
    unfold IsLongByte
    rw [List.length_append, List.length_singleton]
    rcases lt_or_ge index digits.length with hlt | hge
    · rw [List.getElem?_append_left hlt] at hbyte
      have hinside : ¬ (index + 1 = digits.length + 1 ∧ byte = 0x4c) := by omega
      simp only [hbyte, Option.some.injEq, forall_eq', hinside, or_false]
    · have hlast : index = digits.length := by
        have hlt := (List.getElem?_eq_some_iff.1 hbyte).1
        rw [List.length_append, List.length_singleton] at hlt
        omega
      subst hlast
      rw [List.getElem?_concat_length] at hbyte
      obtain rfl := Option.some.inj hbyte
      simp
  · have hsame : dropLongMark body = body := by rw [dropLongMark, if_neg hmark]
    have hlast : ¬ (index + 1 = body.length ∧ byte = 0x4c) := by
      rintro ⟨hlength, rfl⟩
      rw [List.getLast?_eq_getElem?, ← hlength] at hmark
      exact hmark hbyte
    unfold IsLongByte
    simp only [hsame, hbyte, Option.some.injEq, forall_eq', hlast, or_false]

/-- Where a long integer is at fault without its mark, it is with it. -/
theorem rejects_of_readLong (h : readLong body = .error fault) :
    Rejects .long (IsLongByte body) body (dropLongMark body) fault := by
  cases rejects_of_signedInteger h with
  | @byte index byte hfirst =>
    obtain ⟨hstands, hoffends, hbefore⟩ := hfirst
    have hbyte : body[index]? = some byte := by
      rcases dropLongMark_cases body with hsame | hmark
      · rwa [hsame] at hstands
      · rw [← hmark, List.getElem?_append_left (List.getElem?_eq_some_iff.1 hstands).1]
        exact hstands
    exact .byte ⟨hbyte, fun hallowed => hoffends ((isLongByte_iff hbyte).1 hallowed byte hstands),
      fun earlier hearlier other hother => (isLongByte_iff hother).2 (hbefore earlier hearlier)⟩
  | literal hall =>
    exact .literal fun index byte hbyte => (isLongByte_iff hbyte).2 (hall index)

theorem rejects_of_readIndex (h : readIndex body = .error fault) :
    Rejects .memoIndex (fun _ byte => isDigit byte = true) body body fault := by
  unfold readIndex at h
  split at h
  · next hfirst =>
    cases h
    exact .byte (firstOffending_eq_some hfirst)
  · next hnone =>
    split at h
    · cases h
    · cases h
      refine .literal fun index byte hbyte => ?_
      exact List.all_eq_true.1 (firstOffending_eq_none.1 hnone) _ (List.mem_of_getElem? hbyte)

/-- A line that is rejected bears the fault out. -/
theorem Rejects.standsIn {field : NumericField} {allowed : ℕ → UInt8 → Prop} {literal : Bytes}
    (h : Rejects field allowed body literal fault)
    (hdigit : ∀ index byte, isDigit byte = true → allowed index byte)
    (hliteral : literal = body ∨ literal ++ [0x4c] = body) : fault.StandsIn body := by
  cases h with
  | byte hfirst =>
    exact ⟨hfirst.stands, Bool.eq_false_iff.2 fun hbyte => hfirst.offends (hdigit _ _ hbyte)⟩
  | literal => exact ⟨rfl, hliteral⟩

theorem standsIn_of_readInt (h : readInt body = .error fault) : fault.StandsIn body :=
  (rejects_of_readInt h).standsIn (fun _ _ => .inl) (.inl rfl)

theorem standsIn_of_readLong (h : readLong body = .error fault) : fault.StandsIn body :=
  (rejects_of_readLong h).standsIn (fun _ _ hbyte => .inl (.inl hbyte)) (dropLongMark_cases body)

theorem standsIn_of_readIndex (h : readIndex body = .error fault) : fault.StandsIn body :=
  (rejects_of_readIndex h).standsIn (fun _ _ => id) (.inl rfl)

theorem standsIn_of_readFloat (h : readFloat body = .error fault) : fault.StandsIn body := by
  unfold readFloat at h
  split at h
  · cases h
  · split at h
    · next hfirst =>
      cases h
      have hoffending := firstOffending_eq_some hfirst
      refine ⟨hoffending.stands, ?_⟩
      have hbyte := Bool.eq_false_iff.2 hoffending.offends
      simp only [isFloatByte, Bool.or_eq_false_iff] at hbyte
      exact hbyte.1.1.1.1
    · cases h
      exact ⟨rfl, .inl rfl⟩

/-! ## Strings and texts -/

theorem eq_backslash_of_byteItem? ⦃byte : UInt8⦄ ⦃rest : Bytes⦄ ⦃miss : Miss⦄
    (h : byteItem? byte rest = .error miss) : byte = 0x5c := by
  by_contra hne
  rw [byteItem?.eq_def, if_pos hne] at h
  cases h

theorem eq_backslash_of_charItem? ⦃byte : UInt8⦄ ⦃rest : Bytes⦄ ⦃miss : Miss⦄
    (h : charItem? byte rest = .error miss) : byte = 0x5c := by
  by_contra hne
  rw [charItem?.eq_def, if_pos hne] at h
  cases h

/-- Where no item can be taken, a backslash stands, with the bytes that are named behind it. -/
theorem takeItems_eq_error {α : Type} {item? : UInt8 → Bytes → Except Miss (Item α)}
    (hitem : ∀ ⦃byte rest miss⦄, item? byte rest = .error miss → byte = 0x5c) {offset : ℕ}
    (h : takeItems item? offset body = .error fault) :
    ∃ escape distance, fault = ⟨.invalidEscape escape, offset + distance⟩ ∧
      0x5c :: escape <+: body.drop distance := by
  fun_induction takeItems item? offset body with
  | case1 => cases h
  | case2 offset byte rest count hmiss =>
    cases h
    obtain rfl := hitem hmiss
    exact ⟨rest.take count, 0, rfl, (List.prefix_cons_inj _).2 (List.take_prefix _ _)⟩
  | case3 offset byte rest item hfound ih =>
    cases hrest : takeItems item? (offset + 1 + item.tail) (rest.drop item.tail) with
    | ok values =>
      rw [hrest] at h
      cases h
    | error other =>
      rw [hrest] at h
      cases h
      obtain ⟨escape, distance, rfl, hescape⟩ := ih hrest
      refine ⟨escape, 1 + item.tail + distance, by rw [← Nat.add_assoc, ← Nat.add_assoc], ?_⟩
      rw [List.drop_drop] at hescape
      rw [Nat.add_assoc, Nat.add_comm 1, List.drop_succ_cons]
      exact hescape

theorem standsIn_of_readQuoted (h : readQuoted body = .error fault) : fault.StandsIn body := by
  unfold readQuoted at h
  split at h
  · next quote rest =>
    split at h
    · obtain ⟨escape, distance, rfl, hescape⟩ := takeItems_eq_error eq_backslash_of_byteItem? h
      show 0x5c :: escape <+: (quote :: rest).drop (1 + distance)
      rw [Nat.add_comm, List.drop_succ_cons]
      exact hescape.trans ((List.dropLast_prefix rest).drop distance)
    · cases h
      exact ⟨rfl, rfl⟩
  · cases h
    exact ⟨rfl, rfl⟩

theorem standsIn_of_readEscaped (h : readEscaped body = .error fault) : fault.StandsIn body := by
  cases htaken : takeItems charItem? 0 body with
  | ok values =>
    rw [readEscaped, htaken] at h
    cases h
  | error other =>
    rw [readEscaped, htaken] at h
    cases h
    obtain ⟨escape, distance, rfl, hescape⟩ := takeItems_eq_error eq_backslash_of_charItem? htaken
    show 0x5c :: escape <+: body.drop (0 + distance)
    rw [Nat.zero_add]
    exact hescape

/-- A text on a line is at fault as a whole. -/
theorem readText_eq_error (h : readText body = .error fault) :
    fault = ⟨.notUtf8, 0⟩ ∧ Utf8.decode body = none := by
  unfold readText at h
  split at h
  · cases h
  · next hdecode =>
    cases h
    exact ⟨rfl, hdecode⟩

theorem standsIn_of_readText (h : readText body = .error fault) : fault.StandsIn body := by
  obtain ⟨rfl, hdecode⟩ := readText_eq_error h
  exact ⟨rfl, hdecode⟩

end Line

end Pickle
