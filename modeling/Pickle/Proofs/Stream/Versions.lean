import Pickle.Proofs.Stream.Inference

/-!
# Every version extends the earlier ones

A version matters to a decoder in one place only: it says which opcodes are legal.  So an opcode
that a version has is decoded in the same way by every later version (`Opcode.decode?_of_le`), and
two decoders of the same bytes part ways only at an opcode that is new to the older one of them,
which reports it as unknown (`instruction_eq_or_unknown`).

`Decoder.Parallels` says that two decoders have not parted yet.  It is kept by a step in which the
older one reports no unknown opcode, and by a step in which the newer one reports no error and no
opcode that is too new; the runs follow by induction on the number of steps, and `versions_extend`
states them.
-/

namespace Pickle

open Source

namespace Opcode

variable {byte : UInt8} {opcode : Opcode} {older newer : ℕ}

/-- An opcode stays what it is in later versions. -/
theorem decode?_of_le (h : decode? byte older = some opcode) (hle : older ≤ newer) :
    decode? byte newer = some opcode := by
  obtain ⟨hbyte, hlegal⟩ := Option.filter_eq_some_iff.1 h
  have hintroduced : opcode.introducedIn ≤ older := of_decide_eq_true hlegal
  exact Option.filter_eq_some_iff.2 ⟨hbyte, decide_eq_true (hintroduced.trans hle)⟩

/-- An opcode is the same in all versions that have it. -/
theorem decode?_of_introducedIn (h : decode? byte newer = some opcode)
    (hintroduced : opcode.introducedIn ≤ older) : decode? byte older = some opcode :=
  Option.filter_eq_some_iff.2
    ⟨(Option.filter_eq_some_iff.1 h).1, decide_eq_true hintroduced⟩

end Opcode

/-! ## Instructions -/

namespace Source.Read

variable {source middle : Source} {byte : UInt8} {opcode : Opcode} {older newer version : ℕ}

/-- Behind its opcode, an instruction does not depend on the version. -/
theorem instruction_of_opcode (hbyte : nextByte source = .ok (some byte) middle)
    (hdecode : Opcode.decode? byte version = some opcode) :
    Read.instruction version source = (some <$> Read.argument opcode) middle := by
  have hposition : Read.position source = .ok source.position source := rfl
  rw [Read.instruction, bind_of_eq_ok hposition, bind_of_eq_ok hbyte]
  simp only [hdecode]
  rfl

theorem instruction_of_unknown (hbyte : nextByte source = .ok (some byte) middle)
    (hdecode : Opcode.decode? byte version = none) :
    Read.instruction version source =
      .error (.malformed (.unknownOpcode byte version) source.position) middle := by
  have hposition : Read.position source = .ok source.position source := rfl
  rw [Read.instruction, bind_of_eq_ok hposition, bind_of_eq_ok hbyte]
  simp only [hdecode]
  rfl

/-- Two versions give the same instruction, or one of them does not know the opcode. -/
theorem instruction_eq_or_unknown (source : Source) (hle : older ≤ newer) :
    Read.instruction older source = Read.instruction newer source ∨
      ∃ byte middle, nextByte source = .ok (some byte) middle ∧
        Opcode.decode? byte older = none := by
  have hposition : Read.position source = .ok source.position source := rfl
  cases hbyte : nextByte source with
  | error error middle =>
    left
    rw [Read.instruction, Read.instruction, bind_of_eq_ok hposition, bind_of_eq_ok hposition,
      bind_of_eq_error hbyte, bind_of_eq_error hbyte]
  | ok byte? middle =>
    cases byte? with
    | none =>
      left
      rw [Read.instruction, Read.instruction, bind_of_eq_ok hposition, bind_of_eq_ok hposition,
        bind_of_eq_ok hbyte, bind_of_eq_ok hbyte]
    | some byte =>
      cases hdecode : Opcode.decode? byte older with
      | none => exact .inr ⟨byte, middle, rfl, hdecode⟩
      | some opcode =>
        left
        rw [instruction_of_opcode hbyte hdecode,
          instruction_of_opcode hbyte (Opcode.decode?_of_le hdecode hle)]

/-- A version that does not report an unknown opcode reads what any later one reads. -/
theorem instruction_eq_of_known (source : Source) (hle : older ≤ newer)
    (hknown : ∀ byte offset rest, Read.instruction older source ≠
      .error (.malformed (.unknownOpcode byte older) offset) rest) :
    Read.instruction older source = Read.instruction newer source := by
  obtain heq | ⟨byte, middle, hbyte, hdecode⟩ := instruction_eq_or_unknown source hle
  · exact heq
  · exact absurd (instruction_of_unknown hbyte hdecode) (hknown _ _ _)

/-- What a version reads without an error is read by any earlier one that has the opcode. -/
theorem instruction_eq_of_introduced (source : Source) (hle : older ≤ newer)
    (herror : ∀ error rest, Read.instruction newer source ≠ .error error rest)
    (hintroduced : ∀ instruction rest, Read.instruction newer source = .ok (some instruction) rest →
      instruction.opcode.introducedIn ≤ older) :
    Read.instruction older source = Read.instruction newer source := by
  obtain heq | ⟨byte, middle, hbyte, hdecode⟩ := instruction_eq_or_unknown source hle
  · exact heq
  · exfalso
    cases hrun : Read.instruction newer source with
    | error error rest => exact herror _ _ hrun
    | ok instruction? rest =>
      cases instruction? with
      | none =>
        have hend := nextByte_of_instruction hrun
        rw [hbyte] at hend
        cases hend
      | some instruction =>
        obtain ⟨byte', middle', _, hbyte', hdecode', -⟩ := instruction_eq_ok hrun
        rw [hbyte] at hbyte'
        cases hbyte'
        rw [Opcode.decode?_of_introducedIn hdecode' (hintroduced _ _ hrun)] at hdecode
        cases hdecode

end Source.Read

/-! ## Decoders -/

namespace Decoder

/-- Whether a decoder reports an opcode that its version does not have, the next time it is asked. -/
def ReportsUnknown (decoder : Decoder) : Prop :=
  ∃ byte offset, decoder.next.1 = .error (.malformed (.unknownOpcode byte decoder.version) offset)

/-- Whether a decoder keeps to a version, the next time it is asked: it reports no error, and any
instruction has an opcode that the version has. -/
structure KeepsTo (version : ℕ) (decoder : Decoder) : Prop where
  noError : ∀ error, decoder.next.1 ≠ .error error
  introduced : ∀ instruction, decoder.next.1 = .instruction instruction →
    instruction.opcode.introducedIn ≤ version

/-- Whether two decoders are at the same point of the same bytes, the second one for a version that
is no earlier. -/
structure Parallels (older newer : Decoder) : Prop where
  source : older.source = newer.source
  failed : older.failed = newer.failed
  version : older.version ≤ newer.version

namespace Parallels

variable {older newer : Decoder}

/-- Decoders that read the same instruction go on side by side. -/
theorem next_of_instruction_eq (h : Parallels older newer)
    (heq : older.failed = false →
      Read.instruction older.version older.source = Read.instruction newer.version older.source) :
    older.next.1 = newer.next.1 ∧ Parallels older.next.2 newer.next.2 := by
  obtain ⟨source, version, failed⟩ := older
  obtain ⟨source', version', failed'⟩ := newer
  obtain ⟨rfl, rfl, hle⟩ := h
  cases failed with
  | true => exact ⟨rfl, rfl, rfl, hle⟩
  | false =>
    rw [Decoder.next, Decoder.next, if_neg (by simp), if_neg (by simp)]
    dsimp only at heq ⊢
    rw [heq rfl]
    rcases Read.instruction version' source with ⟨_ | instruction, rest⟩ | ⟨error, rest⟩
    · exact ⟨rfl, rfl, rfl, hle⟩
    · exact ⟨rfl, rfl, rfl, hle⟩
    · exact ⟨rfl, rfl, rfl, hle⟩

theorem next_of_known (h : Parallels older newer) (hknown : ¬ older.ReportsUnknown) :
    older.next.1 = newer.next.1 ∧ Parallels older.next.2 newer.next.2 := by
  refine h.next_of_instruction_eq fun hfailed =>
    Read.instruction_eq_of_known _ h.version fun byte offset rest hrun => hknown ⟨byte, offset, ?_⟩
  rw [Decoder.next, if_neg (by simp [hfailed]), hrun]

theorem next_of_keepsTo (h : Parallels older newer) (hkeeps : newer.KeepsTo older.version) :
    older.next.1 = newer.next.1 ∧ Parallels older.next.2 newer.next.2 := by
  refine h.next_of_instruction_eq fun hfailed => ?_
  have hfailed' : ¬ newer.failed = true := by simp [← h.failed, hfailed]
  refine Read.instruction_eq_of_introduced _ h.version (fun error rest hrun => ?_)
    fun instruction rest hrun => ?_
  · refine hkeeps.noError error ?_
    rw [Decoder.next, if_neg hfailed', ← h.source, hrun]
  · refine hkeeps.introduced instruction ?_
    rw [Decoder.next, if_neg hfailed', ← h.source, hrun]

/-- Decoders that have not parted agree on whether the bytes have ended. -/
theorem finish (h : Parallels older newer) : older.finish.1 = newer.finish.1 := by
  unfold Decoder.finish
  rw [h.source]
  cases Read.atEnd newer.source with
  | ok value rest => rfl
  | error error rest => rfl

end Parallels

theorem version_next (decoder : Decoder) : decoder.next.2.version = decoder.version := by
  unfold Decoder.next
  split
  · rfl
  · split
    · rfl
    · rfl
    · rfl

theorem version_after (decoder : Decoder) (steps : ℕ) :
    (decoder.after steps).version = decoder.version := by
  induction steps with
  | zero => rfl
  | succ steps ih => exact (version_next _).trans ih

/-- Whether two decoders cannot be told apart for a number of steps: before each of them they stand
at the same offset, give the same instruction, the same error or the same end when they are asked for
one, and agree on whether the bytes have ended. -/
def IndistinctFor (count : ℕ) (older newer : Decoder) : Prop :=
  ∀ steps < count, (older.after steps).next.1 = (newer.after steps).next.1 ∧
    (older.after steps).position = (newer.after steps).position ∧
    (older.after steps).finish.1 = (newer.after steps).finish.1

/-- Decoders that are side by side stay so as long as no step parts them. -/
theorem Parallels.indistinctFor {older newer : Decoder} {count : ℕ} (h : Parallels older newer)
    (hstep : ∀ steps < count, Parallels (older.after steps) (newer.after steps) →
      (older.after steps).next.1 = (newer.after steps).next.1 ∧
        Parallels (older.after steps).next.2 (newer.after steps).next.2) :
    older.IndistinctFor count newer := by
  have hafter : ∀ steps < count, Parallels (older.after steps) (newer.after steps) := by
    intro steps hsteps
    induction steps with
    | zero => exact h
    | succ steps ih =>
      have hbefore : steps < count := Nat.lt_of_succ_lt hsteps
      exact (hstep steps hbefore (ih hbefore)).2
  intro steps hsteps
  have hparallel := hafter steps hsteps
  refine ⟨(hstep steps hsteps hparallel).1, ?_, hparallel.finish⟩
  rw [position, position, hparallel.source]

/-- Every version extends the earlier ones.  There is a decoder for either of two versions, and

* as long as the one for the earlier version reports no unknown opcode, or
* as long as the one for the later version reports no error at all, and only instructions that the
  earlier version has,

the two cannot be told apart: they give the same instructions up to the same end or the same error,
and at the same offsets. -/
theorem versions_extend (feed : Feed) (version later : UInt8) (hle : version.toNat ≤ later.toNat)
    (hlater : later.toNat ≤ Opcode.highestVersion) :
    ∃ older newer, ofFeed feed (some version) = .ok older ∧ ofFeed feed (some later) = .ok newer ∧
      ∀ count,
        ((∀ steps < count, ¬ (older.after steps).ReportsUnknown) →
          older.IndistinctFor count newer) ∧
        ((∀ steps < count, (newer.after steps).KeepsTo version.toNat) →
          older.IndistinctFor count newer) := by
  refine ⟨⟨Source.ofFeed feed, version.toNat, false⟩, ⟨Source.ofFeed feed, later.toNat, false⟩,
    ofFeed_eq_ok (hle.trans hlater), ofFeed_eq_ok hlater, fun count => ⟨fun hknown => ?_,
      fun hkeeps => ?_⟩⟩
  · refine Parallels.indistinctFor ⟨rfl, rfl, hle⟩ fun steps hsteps hafter => ?_
    exact hafter.next_of_known (hknown steps hsteps)
  · refine Parallels.indistinctFor ⟨rfl, rfl, hle⟩ fun steps hsteps hafter => ?_
    refine hafter.next_of_keepsTo ?_
    rw [version_after]
    exact hkeeps steps hsteps

/-- An argument that is cut off in the second version is so in the fourth one, and what the fourth
version reads without its own opcodes is read by the second one. -/
theorem versions_extend_two_four :
    let cut := Feed.ofBytes [0x4e, 0x4b]
    let whole := Feed.ofBytes [0x4e, 0x2e]
    ((2 : UInt8).toNat ≤ (4 : UInt8).toNat ∧ (4 : UInt8).toNat ≤ Opcode.highestVersion) ∧
      (∃ newer, ofFeed cut (some 4) = .ok newer ∧
        (newer.after 1).next.1 = .error (.malformed (.truncatedArgument .binInt1) 2)) ∧
      ∃ older, ofFeed whole (some 2) = .ok older ∧
        (older.after 1).next.1 = .instruction ⟨.stop, ()⟩ ∧ (older.after 2).next.1 = .finished := by
  intro cut whole
  have hle : (2 : UInt8).toNat ≤ (4 : UInt8).toNat := by decide
  have hlater : (4 : UInt8).toNat ≤ Opcode.highestVersion := by decide
  obtain ⟨older, newer, holder, hnewer, hsame⟩ := versions_extend cut 2 4 hle hlater
  obtain ⟨older', newer', holder', hnewer', hsame'⟩ := versions_extend whole 2 4 hle hlater
  rw [ofFeed_eq_ok (by decide)] at holder hnewer'
  obtain rfl := Except.ok.inj holder
  obtain rfl := Except.ok.inj hnewer'
  refine ⟨⟨hle, hlater⟩, ⟨newer, hnewer, ?_⟩, older', holder', ?_⟩
  · have hknown : ∀ steps < 2, ¬ Decoder.ReportsUnknown
        (Decoder.after ⟨Source.ofFeed cut, 2, false⟩ steps) := by
      rintro (_ | _ | steps) hsteps ⟨byte, offset, h⟩
      · cases h
      · cases h
      · omega
    -- The claim about the newer decoder is evaluated with the older one, by the agreement.
    rw [← ((hsame 2).1 hknown 1 (by decide)).1]
    rfl
  · have hkeeps : ∀ steps < 3, Decoder.KeepsTo 2
        (Decoder.after ⟨Source.ofFeed whole, 4, false⟩ steps) := by
      rintro (_ | _ | _ | steps) hsteps
      · exact ⟨fun _ h => (by cases h), fun _ h => (by cases h; decide)⟩
      · exact ⟨fun _ h => (by cases h), fun _ h => (by cases h; decide)⟩
      · exact ⟨fun _ h => (by cases h), fun _ h => (by cases h)⟩
      · omega
    have hsteps := (hsame' 3).2 hkeeps
    exact ⟨(hsteps 1 (by decide)).1, (hsteps 2 (by decide)).1⟩

end Decoder

end Pickle
