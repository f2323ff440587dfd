import Pickle.Proofs.Line.Decimals
import Pickle.Proofs.Machine.Integers
import Pickle.Proofs.Machine.Padding

/-!
# Integers that are loaded from their digits

A pickle that is nothing but an integer on a line has no version of its own, and it is one of every
version; the look ahead passes over the line and takes the stop for version zero.  Under whichever
version, the line is read as a whole, since no digit, sign or mark ends it, and the integer that it
spells is what the machine pushes (`load_of_integer`).

With the grammars of the lines, this is `decimal_lines`.
-/

namespace Pickle

open Source Line

/-- A line that spells an integer in some way, and a stop, are loaded to the integer. -/
theorem load_of_integer {feed : Feed} {options : Options} {instruction : Instruction} {n : ℤ}
    (hinteger : instruction.integer? = some n) (hneutral : instruction.opcode ∈ Opcode.neutral)
    (holdest : instruction.opcode.introducedIn = 0) {argument : Bytes}
    (hargument : Reads instruction.opcode.layout.read argument instruction.argument)
    (hbytes : feed.bytes = instruction.opcode.byte :: argument ++ [0x2e])
    (hending : feed.ending = .finished)
    (hprotocol : ∀ version ∈ options.protocol, version.toNat ≤ Opcode.highestVersion) :
    load feed options = .ok (.scalar (.ofInt n)) := by
  have hstop : instruction.operation ≠ .stop := by
    rw [Instruction.operation_of_integer? hinteger]
    rintro ⟨⟩
  -- No version is too old for the instruction, so it is read at whichever one is used.
  have hyields : ∀ version : ℕ, ∃ after,
      Decoder.Yields ⟨Source.ofFeed feed, version, false⟩ ([instruction] ++ [⟨.stop, ()⟩]) after ∧
        after.finish.1 = .ok () := by
    intro version
    have hlegal : instruction.opcode.isLegal version :=
      decide_eq_true (holdest.trans_le (Nat.zero_le _))
    have hat := isAt_ofFeed feed
    rw [hending, hbytes] at hat
    obtain ⟨middle, hrun, hmiddle⟩ := Reads.spelled hlegal hargument hat
    obtain ⟨last, hlast, hend⟩ := @Reads.instruction version ⟨.stop, ()⟩
      (decide_eq_true (Nat.zero_le _)) (show Opcode.stop ≠ .frame by decide) trivial
      _ _ _ [] hmiddle
    obtain ⟨after, hafter⟩ :=
      @Decoder.next_of_isAt_nil ⟨last, version, false⟩ _ rfl hend
    exact ⟨_, .cons (Decoder.next_of_instruction hrun)
      (.cons (Decoder.next_of_instruction hlast) (.nil _)), Decoder.finish_of_finished rfl hafter⟩
  -- Without a version that is given, that of the stop is inferred.
  obtain ⟨version, hversion, hreads⟩ : ∃ version : UInt8,
      version.toNat ≤ Opcode.highestVersion ∧ options.ReadsBy feed version := by
    cases hgiven : options.protocol with
    | some version => exact ⟨version, hprotocol version hgiven, .inl hgiven⟩
    | none =>
      obtain ⟨_, hzero, -⟩ := hyields 0
      have hfirst : ([instruction] ++ [⟨.stop, ()⟩] : List Instruction).find?
          (·.opcode ∉ Opcode.neutral) = some ⟨.stop, ()⟩ := by
        rw [List.singleton_append, List.find?_cons_of_neg (by simpa using hneutral)]
        rfl
      exact ⟨0, Nat.zero_le _, .inr ⟨hgiven,
        Decoder.inferVersion_of_find? (Nat.zero_le 1) hzero hfirst⟩⟩
  obtain ⟨after, hprogram, hfinish⟩ := hyields version.toNat
  rw [load_of_yields hending hversion hreads hprogram hfinish (by simpa using hstop)]
  rw [List.singleton_append, run, Machine.run, Instruction.execute_of_integer? _ _ hinteger]
  rfl

/-- The lines of integers and of indices have exact grammars.

`INT` takes two lines for booleans, and of the others just those that spell an integer, exactly.
`LONG` takes all lines that spell an integer, with or without a mark.  An index takes digits alone,
if they spell less than `2 ^ 32`.

Every other line is rejected, at the first byte that cannot stand where it does, or as a whole if
there is none.

So a pickle that is an integer in decimal is loaded to this integer, whatever the spelling and the
options, and every integer has a spelling for both opcodes. -/
theorem decimal_lines (line : Bytes) :
    ((∀ flag, readInt line = .ok (.bool flag) ↔ line = [0x30, if flag then 0x31 else 0x30]) ∧
      (∀ n, readInt line = .ok (.int n) ↔
        line ≠ [0x30, 0x30] ∧ line ≠ [0x30, 0x31] ∧ SpellsInteger line n) ∧
      ∀ fault, readInt line = .error fault ↔
        (¬ ∃ n, SpellsInteger line n) ∧ Rejects .int IsIntegerByte line line fault) ∧
    ((∀ n, readLong line = .ok n ↔ SpellsLong line n) ∧
      ∀ fault, readLong line = .error fault ↔
        (¬ ∃ n, SpellsLong line n) ∧
          Rejects .long (IsLongByte line) line (dropLongMark line) fault) ∧
    ((∀ index, readIndex line = .ok index ↔ line ≠ [] ∧ SpellsDecimal line index.toNat) ∧
      ∀ fault, readIndex line = .error fault ↔
        (¬ ∃ index : UInt32, line ≠ [] ∧ SpellsDecimal line index.toNat) ∧
          Rejects .memoIndex (fun _ byte => isDigit byte = true) line line fault) ∧
    (∀ (n : ℤ) (feed : Feed) (options : Options), feed.ending = .finished →
      (∀ version ∈ options.protocol, version.toNat ≤ Opcode.highestVersion) →
      (feed.bytes = 0x49 :: line ++ [0x0a, 0x2e] → SpellsInteger line n →
        line ≠ [0x30, 0x30] → line ≠ [0x30, 0x31] →
          load feed options = .ok (.scalar (.ofInt n))) ∧
      (feed.bytes = 0x4c :: line ++ [0x0a, 0x2e] → SpellsLong line n →
        load feed options = .ok (.scalar (.ofInt n)))) ∧
    ∀ n, SpellsInteger (ofInt n) n ∧ ofInt n ≠ [0x30, 0x30] ∧ ofInt n ≠ [0x30, 0x31] ∧
      SpellsLong (ofLong n) n := by
  refine ⟨⟨fun flag => readInt_eq_bool, fun n => readInt_eq_int, fun fault =>
      eq_error_iff exists_readInt_eq_ok fun _ => rejects_of_readInt⟩,
    ⟨fun n => readLong_eq_ok, fun fault =>
      eq_error_iff (exists_congr fun n => readLong_eq_ok) fun _ => rejects_of_readLong⟩,
    ⟨fun index => readIndex_eq_ok, fun fault =>
      eq_error_iff (exists_congr fun index => readIndex_eq_ok) fun _ => rejects_of_readIndex⟩,
    ?_, ?_⟩
  · intro n feed options hending hprotocol
    constructor
    · -- The two lines that spell a boolean are read before any number is.
      intro hbytes hspells hfalse htrue
      let instruction : Instruction := ⟨.int, .int n⟩
      have hargument : Reads instruction.opcode.layout.read (Layout.writeLine line)
          instruction.argument :=
        Reads.printable hspells.isPrintable (readInt_eq_int.2 ⟨hfalse, htrue, hspells⟩)
      have hneutral : Opcode.int ∈ Opcode.neutral := by decide
      refine load_of_integer rfl hneutral rfl hargument ?_ hending hprotocol
      rw [hbytes, Layout.writeLine, List.cons_append, List.cons_append, List.append_assoc]
      rfl
    · intro hbytes hspells
      let instruction : Instruction := ⟨.long, n⟩
      have hargument : Reads instruction.opcode.layout.read (Layout.writeLine line)
          instruction.argument :=
        Reads.printable hspells.isPrintable (readLong_eq_ok.2 hspells)
      have hneutral : Opcode.long ∈ Opcode.neutral := by decide
      refine load_of_integer rfl hneutral rfl hargument ?_ hending hprotocol
      rw [hbytes, Layout.writeLine, List.cons_append, List.cons_append, List.append_assoc]
      rfl
  · intro n
    exact ⟨spellsInteger_ofInt n, ofInt_ne (n := 0) (by decide), ofInt_ne (n := 1) (by decide),
      .inr ⟨_, spellsInteger_ofInt n, rfl⟩⟩

theorem decimal_lines_zeros :
    readInt (Utf8.encode "-012") = .ok (.int (-12)) ∧
      readLong (Utf8.encode "01") = .ok 1 ∧
      (¬ ∃ n, SpellsLong (Utf8.encode "5LL") n) ∧
      load (.ofBytes (Utf8.encode "I-012\n.")) {} = .ok (.scalar (.short (-12))) ∧
      load (.ofBytes (Utf8.encode "L01L\n.")) {} = .ok (.scalar (.short 1)) := by
  have htwelve : SpellsDecimal (Utf8.encode "012") 12 := spellsDecimal_iff.2 ⟨rfl, rfl⟩
  have hnegative : SpellsInteger (Utf8.encode "-012") (-12) := .minus (List.cons_ne_nil _ _) htwelve
  have hone : SpellsInteger (Utf8.encode "01") 1 :=
    .unsigned (List.cons_ne_nil _ _) (spellsDecimal_iff.2 ⟨rfl, rfl⟩)
  have hmarked : SpellsLong (Utf8.encode "01L") 1 := .inr ⟨_, hone, rfl⟩
  obtain ⟨⟨-, hint, -⟩, -, -, hload, -⟩ := decimal_lines (Utf8.encode "-012")
  obtain ⟨-, ⟨hlong, -⟩, -, -, -⟩ := decimal_lines (Utf8.encode "01")
  obtain ⟨-, ⟨-, hrejected⟩, -, -, -⟩ := decimal_lines (Utf8.encode "5LL")
  obtain ⟨-, -, -, hloadMarked, -⟩ := decimal_lines (Utf8.encode "01L")
  refine ⟨(hint _).2 ⟨by decide, by decide, hnegative⟩, (hlong _).2 (.inl hone),
    ((hrejected ⟨.nonNumeric .long 0x4c, 1⟩).1 rfl).1, ?_, ?_⟩
  · exact (hload (-12) _ {} rfl (by simp)).1 rfl hnegative (by decide) (by decide)
  · exact (hloadMarked 1 _ {} rfl (by simp)).2 rfl hmarked

end Pickle
