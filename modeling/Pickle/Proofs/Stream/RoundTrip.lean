import Pickle.Proofs.Stream.Taking

/-!
# Decoders invert the wire format

The laws of single instructions carry over to decoders in both directions.  A program of legal and
well-formed instructions is decoded from the concatenation of its encodings, however the medium
delivers it, by induction on the program.  And a decoder at any point of its work is at the offset
from which its bytes to come are the rest of the feed (`Decoder.IsTracking`), so an instruction that
it gives was taken from there.

`decoder_spec` puts both together.
-/

namespace Pickle

open Source

namespace Decoder

/-! ## From instructions to bytes and back -/

theorem nextByte_of_isAt {source : Source} {offset : ℕ} (h : source.IsAt .finished offset []) :
    ∃ rest, Read.nextByte source = .ok none rest := by
  obtain ⟨feed, hpull⟩ := Feed.pull_of_bytes_eq_nil h.bytes h.ending
  refine ⟨{ source with feed }, ?_⟩
  unfold Read.nextByte
  simp only [h.pushback, h.frames, hpull]

/-- At its end a source has no instruction. -/
theorem next_of_isAt_nil {decoder : Decoder} {offset : ℕ} (hfailed : decoder.failed = false)
    (h : decoder.source.IsAt .finished offset []) :
    ∃ after, decoder.next = (.finished, after) := by
  obtain ⟨rest, hbyte⟩ := nextByte_of_isAt h
  have hrun : Read.instruction decoder.version decoder.source = .ok none rest := by
    have hposition : Read.position decoder.source =
        .ok decoder.source.position decoder.source := rfl
    rw [Read.instruction, Read.bind_of_eq_ok hposition, Read.bind_of_eq_ok hbyte]
    rfl
  refine ⟨{ decoder with source := rest }, ?_⟩
  rw [next, hfailed, hrun]
  rfl

section Collect

variable {decoder after : Decoder} (taken : List Instruction)

theorem collect_of_instruction {instruction : Instruction}
    (h : decoder.next = (.instruction instruction, after)) :
    decoder.collect taken = after.collect (instruction :: taken) := by
  rw [collect]
  split
  · next heq =>
    rw [h] at heq
    cases heq
    rfl
  · next heq =>
    rw [h] at heq
    cases heq
  · next heq =>
    rw [h] at heq
    cases heq

theorem collect_of_error {error : StreamError} (h : decoder.next = (.error error, after)) :
    decoder.collect taken = .error error := by
  rw [collect]
  split
  · next heq =>
    rw [h] at heq
    cases heq
  · next heq =>
    rw [h] at heq
    cases heq
    rfl
  · next heq =>
    rw [h] at heq
    cases heq

theorem collect_of_finished (h : decoder.next = (.finished, after)) :
    decoder.collect taken = .ok taken.reverse := by
  rw [collect]
  split
  · next heq =>
    rw [h] at heq
    cases heq
  · next heq =>
    rw [h] at heq
    cases heq
  · rfl

end Collect

/-- Whether an instruction can be written under a version and read back, frames apart. -/
def IsWritable (version : ℕ) (instruction : Instruction) : Prop :=
  instruction.opcode.isLegal version ∧ instruction.opcode ≠ .frame ∧ instruction.WellFormed

/-- A program is decoded from its encoding. -/
theorem collect_of_isAt {version : ℕ} {program : List Instruction}
    (hprogram : ∀ instruction ∈ program, IsWritable version instruction) {source : Source}
    {offset : ℕ} (h : source.IsAt .finished offset (Instruction.encodeAll program))
    (taken : List Instruction) :
    collect ⟨source, version, false⟩ taken = .ok (taken.reverse ++ program) := by
  induction program generalizing source offset taken with
  | nil =>
    have hend : ∃ after, next ⟨source, version, false⟩ = (.finished, after) :=
      next_of_isAt_nil rfl h
    obtain ⟨after, hnext⟩ := hend
    rw [collect_of_finished taken hnext, List.append_nil]
  | cons instruction others ih =>
    obtain ⟨hlegal, hframe, hwell⟩ := hprogram instruction List.mem_cons_self
    obtain ⟨rest, hrun, hrest⟩ := Reads.instruction hlegal hframe hwell h
    have hnext : next ⟨source, version, false⟩ =
        (.instruction instruction, ⟨rest, version, false⟩) := by
      rw [next, if_neg (by simp), hrun]
    have hothers : ∀ other ∈ others, IsWritable version other :=
      fun other hother => hprogram other (List.mem_cons_of_mem _ hother)
    rw [collect_of_instruction taken hnext, ih hothers hrest, List.reverse_cons, List.append_assoc,
      List.singleton_append]

/-! ## Runs of a decoder -/

/-- The decoders that a decoder becomes when it is asked for instructions, any number of times. -/
inductive Reaches (start : Decoder) : Decoder → Prop
  | refl : Reaches start start
  | next {decoder : Decoder} (h : Reaches start decoder) : Reaches start decoder.next.2

/-- Whether the bytes to come are those of a feed from the offset on, unless an error has ended the
reading. -/
structure IsTracking (bytes : Bytes) (version : ℕ) (decoder : Decoder) : Prop where
  version : decoder.version = version
  pushback : decoder.failed = false → decoder.source.pushback = []
  pending : decoder.failed = false → decoder.source.pending = bytes.drop decoder.position

theorem isTracking_ofFeed {feed : Feed} {version : UInt8} {decoder : Decoder}
    (h : ofFeed feed (some version) = .ok decoder) :
    decoder.IsTracking feed.bytes version.toNat := by
  unfold ofFeed ofSource at h
  dsimp only at h
  split at h
  · cases h
    exact ⟨rfl, fun _ => rfl, fun _ => rfl⟩
  · cases h

/-- Reading keeps track of the bytes that it takes. -/
theorem IsTracking.of_instruction {bytes : Bytes} {version : ℕ} {decoder : Decoder}
    (h : decoder.IsTracking bytes version) (hfailed : decoder.failed = false)
    {instruction? : Option Instruction} {rest : Source}
    (hrun : Read.instruction decoder.version decoder.source = .ok instruction? rest) :
    ({ decoder with source := rest } : Decoder).IsTracking bytes version ∧
      ∃ taken, (∀ instruction ∈ instruction?, Takes.IsInstruction version instruction taken) ∧
        bytes.drop decoder.position = taken ++ bytes.drop rest.position ∧
          rest.position = decoder.position + taken.length := by
  rw [h.version] at hrun
  obtain ⟨hpushback, taken, htaken, hpending, hposition⟩ :=
    Takes.instruction version (h.pushback hfailed) hrun
  rw [h.pending hfailed] at hpending
  have hoffset : rest.position = decoder.position + taken.length := hposition
  have hrest : rest.pending = bytes.drop rest.position := by
    rw [hoffset, ← List.drop_drop, hpending, List.drop_left]
  refine ⟨⟨h.version, fun _ => hpushback, fun _ => hrest⟩, taken, htaken, ?_, hoffset⟩
  rw [← hrest, hpending]

/-- Asking for an instruction keeps track, whatever comes of it. -/
theorem IsTracking.next {bytes : Bytes} {version : ℕ} {decoder : Decoder}
    (h : decoder.IsTracking bytes version) : decoder.next.2.IsTracking bytes version := by
  unfold Decoder.next
  by_cases hfailed : decoder.failed = true
  · rw [if_pos hfailed]
    exact h
  · rw [if_neg hfailed]
    have hfalse : decoder.failed = false := Bool.eq_false_iff.2 hfailed
    cases hrun : Read.instruction decoder.version decoder.source with
    | error error rest =>
      refine ⟨h.version, ?_, ?_⟩
      · intro hnot
        cases hnot
      · intro hnot
        cases hnot
    | ok instruction? rest =>
      have hrest := (h.of_instruction hfalse hrun).1
      cases instruction? with
      | none => exact hrest
      | some instruction => exact hrest

theorem IsTracking.reaches {bytes : Bytes} {version : ℕ} {start decoder : Decoder}
    (h : start.IsTracking bytes version) (hreaches : start.Reaches decoder) :
    decoder.IsTracking bytes version := by
  induction hreaches with
  | refl => exact h
  | next _ ih => exact ih.next

/-- An instruction that a decoder gives was read from the bytes at its offset. -/
theorem IsTracking.instruction {bytes : Bytes} {version : ℕ} {decoder after : Decoder}
    (h : decoder.IsTracking bytes version) {instruction : Instruction}
    (hnext : decoder.next = (.instruction instruction, after)) :
    ∃ taken, Takes.IsInstruction version instruction taken ∧
      bytes.drop decoder.position = taken ++ bytes.drop after.position ∧
        after.position = decoder.position + taken.length := by
  unfold Decoder.next at hnext
  split at hnext
  · cases hnext
  · next hfailed =>
    split at hnext
    · next hrun =>
      cases hnext
      obtain ⟨-, taken, htaken, hdrop, hposition⟩ :=
        h.of_instruction (Bool.eq_false_iff.2 hfailed) hrun
      exact ⟨taken, htaken instruction rfl, hdrop, hposition⟩
    · cases hnext
    · cases hnext

/-! ## Lengths with sign -/

theorem toInt_toInt32_neg {n : ℕ} (hlow : 2 ^ 31 ≤ n) (hhigh : n < 2 ^ 32) :
    (UInt32.ofNat n).toInt32.toInt < 0 := by
  have hmodulus : Word.modulus 4 = 2 ^ 32 := rfl
  have hvalue : Word.ofLittleEndian (Word.toLittleEndian 4 n) = n :=
    Word.ofLittleEndian_toLittleEndian hhigh
  have hword := Word.toInt_toInt32 (Word.length_toLittleEndian 4 n)
  rw [Word.ofTwosComplement_eq, Word.length_toLittleEndian, hvalue, hmodulus,
    if_pos (by omega)] at hword
  rw [hword]
  omega

/-- A length with its top bit set is a negative one, and refused where it stands. -/
theorem length_i32_of_isAt {source : Source} {ending : Ending} {offset n : ℕ} {tail : Bytes}
    (hlow : 2 ^ 31 ≤ n) (hhigh : n < 2 ^ 32)
    (h : source.IsAt ending offset (LengthField.i32.write n ++ tail)) :
    ∃ rest, Read.length .i32 source = .error (.malformed .negativeLength offset) rest := by
  have hlt : n < Word.modulus 4 := hhigh
  have hread : Reads Read.int32 (Word.toLittleEndian 4 n) (UInt32.ofNat n).toInt32 :=
    (Reads.littleEndian hlt).map fun value => (UInt32.ofNat value).toInt32
  obtain ⟨rest, hrun, -⟩ := hread h
  have hposition : Read.position source = .ok offset source := by
    rw [← h.position]
    rfl
  refine ⟨rest, ?_⟩
  rw [Read.length, Read.bind_of_eq_ok hposition, Read.bind_of_eq_ok hrun,
    if_pos (toInt_toInt32_neg hlow hhigh)]
  rfl

theorem instruction_of_negative_length {version : ℕ} {opcode : Opcode}
    (hopcode : opcode = .binString ∨ opcode = .long4) (hlegal : opcode.isLegal version)
    {source : Source} {ending : Ending} {offset n : ℕ} {tail : Bytes} (hlow : 2 ^ 31 ≤ n)
    (hhigh : n < 2 ^ 32)
    (h : source.IsAt ending offset (opcode.byte :: (LengthField.i32.write n ++ tail))) :
    ∃ rest, Read.instruction version source =
      .error (.malformed .negativeLength (offset + 1)) rest := by
  obtain ⟨middle, hbyte, hmiddle⟩ := Reads.nextByte opcode.byte h
  obtain ⟨rest, hlength⟩ := length_i32_of_isAt hlow hhigh hmiddle
  have hdecode : Opcode.decode? opcode.byte version = some opcode := by
    rw [Opcode.decode?, Opcode.ofByte?_byte]
    exact Option.filter_some_pos hlegal
  have hposition : Read.position source = .ok source.position source := rfl
  have hlayout : opcode.layout.read middle =
      .error (.malformed .negativeLength (offset + 1)) rest := by
    rcases hopcode with rfl | rfl
    · exact Read.bind_of_eq_error hlength
    · exact Read.bind_of_eq_error hlength
  have hargument : Read.argument opcode middle =
      .error (.malformed .negativeLength (offset + 1)) rest := by
    refine Read.bind_of_eq_error ?_
    rw [Read.mapError, hlayout]
    rfl
  refine ⟨rest, ?_⟩
  rw [Read.instruction, Read.bind_of_eq_ok hposition, Read.bind_of_eq_ok hbyte]
  simp only [hdecode]
  exact Read.bind_of_eq_error hargument

theorem ofFeed_eq_ok {feed : Feed} {version : UInt8}
    (hversion : version.toNat ≤ Opcode.highestVersion) :
    ofFeed feed (some version) = .ok ⟨Source.ofFeed feed, version.toNat, false⟩ := by
  rw [ofFeed, ofSource, if_pos hversion]

/-- Decoding inverts the encoding of programs.

A program of instructions that are legal under the version, well formed and no frames is what a
medium that delivers its encoding is decoded to, and then the bytes end.

In the other direction, a decoder at any point of its work gives legal instructions only.  One whose
argument does not stand in lines is well formed, so an announced length is that of the payload, and
its encoding is just what the decoder took: the bytes of the feed between its two offsets.

The lengths of `BINSTRING` and `LONG4` have a sign, so the upper half of what four bytes can spell is
no length to write; it is refused. -/
theorem decoder_spec (feed : Feed) (version : UInt8)
    (hversion : version.toNat ≤ Opcode.highestVersion) :
    (∀ program : List Instruction,
      (∀ instruction ∈ program, instruction.opcode.isLegal version.toNat ∧
        instruction.opcode ≠ .frame ∧ instruction.WellFormed) →
      feed.bytes = Instruction.encodeAll program → feed.ending = .finished →
        decodeAll feed (some version) = .ok program) ∧
    (∀ start decoder instruction after, ofFeed feed (some version) = .ok start →
      start.Reaches decoder → decoder.next = (.instruction instruction, after) →
        instruction.opcode.isLegal version.toNat ∧
          (¬ instruction.opcode.layout.IsLine →
            instruction.WellFormed ∧
              feed.bytes.drop decoder.position =
                instruction.encode ++ feed.bytes.drop after.position ∧
              after.position = decoder.position + instruction.encode.length)) ∧
    ∀ (opcode : Opcode) (n : ℕ) (tail : Bytes), opcode = .binString ∨ opcode = .long4 →
      opcode.isLegal version.toNat → 2 ^ 31 ≤ n → n < 2 ^ 32 →
      feed.bytes = opcode.byte :: (LengthField.i32.write n ++ tail) →
        decodeAll feed (some version) = .error (.malformed .negativeLength 1) := by
  have hstart : ∀ start, ofFeed feed (some version) = .ok start →
      start.IsTracking feed.bytes version.toNat := fun start h => isTracking_ofFeed h
  have hat := isAt_ofFeed feed
  refine ⟨?_, ?_, ?_⟩
  · intro program hprogram hbytes hending
    rw [hbytes, hending] at hat
    have hcollect := collect_of_isAt hprogram hat []
    rw [decodeAll, ofFeed_eq_ok hversion]
    exact hcollect
  · intro start decoder instruction after hfeed hreaches hnext
    -- Whatever was decoded before, the bytes that are left are a tail of the feed.
    obtain ⟨taken, ⟨hlegal, htaken⟩, hdrop, hposition⟩ :=
      ((hstart start hfeed).reaches hreaches).instruction hnext
    refine ⟨hlegal, fun hline => ?_⟩
    obtain ⟨hwell, rfl⟩ := htaken hline
    exact ⟨hwell, hdrop, hposition⟩
  · intro opcode n tail hopcode hlegal hlow hhigh hbytes
    rw [hbytes] at hat
    obtain ⟨rest, hrun⟩ := instruction_of_negative_length hopcode hlegal hlow hhigh hat
    have hnext : next ⟨Source.ofFeed feed, version.toNat, false⟩ =
        (.error (.malformed .negativeLength 1), ⟨rest, version.toNat, true⟩) := by
      rw [next, if_neg (by simp), hrun]
    rw [decodeAll, ofFeed_eq_ok hversion]
    exact collect_of_error [] hnext

/-- The bytes of an instruction for each way of writing an argument, and of one without. -/
example : Instruction.encodeAll [
    ⟨.proto, (5 : UInt8)⟩, ⟨.binInt2, (0x1234 : UInt16)⟩, ⟨.longBinPut, (0x12345678 : UInt32)⟩,
    ⟨.binInt, (-2 : Int32)⟩, ⟨.frame, (3 : UInt64)⟩, ⟨.binFloat, ⟨0x3ff8000000000000⟩⟩,
    ⟨.put, (12 : UInt32)⟩, ⟨.int, .bool true⟩, ⟨.long, (-3 : ℤ)⟩, ⟨.float, ⟨0x4340000000000000⟩⟩,
    ⟨.string, [0x61, 0x00]⟩, ⟨.unicode, "é"⟩, ⟨.persId, "id"⟩, ⟨.global, ⟨"m", "C"⟩⟩,
    ⟨.shortBinBytes, ⟨1, [0x7f]⟩⟩, ⟨.binUnicode, ⟨2, "é"⟩⟩, ⟨.long1, ⟨2, -32768⟩⟩,
    ⟨.byteArray8, ⟨1, [0x00]⟩⟩, ⟨.readonlyBuffer, ()⟩, ⟨.stop, ()⟩] =
  [0x80, 5] ++ [0x4d, 0x34, 0x12] ++ [0x72, 0x78, 0x56, 0x34, 0x12] ++
    [0x4a, 0xfe, 0xff, 0xff, 0xff] ++ [0x95, 3, 0, 0, 0, 0, 0, 0, 0] ++
    [0x47, 0x3f, 0xf8, 0, 0, 0, 0, 0, 0] ++ Utf8.encode "p12\n" ++ Utf8.encode "I01\n" ++
    Utf8.encode "L-3L\n" ++ Utf8.encode "F9007199254740992\n" ++
    Utf8.encode "S'a\\x00'\n" ++ Utf8.encode "V\\xe9\n" ++ Utf8.encode "Pid\n" ++
    Utf8.encode "cm\nC\n" ++ [0x43, 1, 0x7f] ++ [0x58, 2, 0, 0, 0, 0xc3, 0xa9] ++
    [0x8a, 2, 0x00, 0x80] ++ [0x96, 1, 0, 0, 0, 0, 0, 0, 0, 0x00] ++ [0x98] ++ [0x2e] := by
  decide +kernel

/-- A program of version two with an announced length and with lines. -/
theorem decoder_spec_version_two :
    let program : List Instruction :=
      [⟨.proto, (2 : UInt8)⟩, ⟨.long1, ⟨1, -1⟩⟩, ⟨.global, ⟨"a", "b"⟩⟩, ⟨.stop, ()⟩]
    (2 : UInt8).toNat ≤ Opcode.highestVersion ∧
      decodeAll (Feed.ofBytes (Instruction.encodeAll program)) (some 2) = .ok program := by
  intro program
  have hversion : (2 : UInt8).toNat ≤ Opcode.highestVersion := by decide
  refine ⟨hversion, (decoder_spec (Feed.ofBytes (Instruction.encodeAll program)) 2 hversion).1
    program ?_ (Feed.bytes_ofBytes _) rfl⟩
  intro instruction hinstruction
  simp only [program, List.mem_cons, List.not_mem_nil, or_false] at hinstruction
  rcases hinstruction with rfl | rfl | rfl | rfl
  · exact ⟨rfl, by decide, trivial⟩
  · refine ⟨rfl, by decide, ?_, ?_⟩
    · show Word.Fits 1 (-1)
      decide
    · show 1 < 0x100
      decide
  · refine ⟨rfl, by decide, ?_, ?_⟩
    · show Line.IsBare "a"
      decide
    · show Line.IsBare "b"
      decide
  · exact ⟨rfl, by decide, trivial⟩

end Decoder

end Pickle
