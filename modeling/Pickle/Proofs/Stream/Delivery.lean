import Pickle.Proofs.Stream.Front
import Pickle.Proofs.Stream.Headerless
import Pickle.Proofs.Stream.Spans

/-!
# Loading from a medium

Loading a pickle is an action on a source like any other, `Source.Read.pickle`: it finds the version,
carries out instructions up to a stop, and makes sure that no byte follows.  Told in this way, what it
leaves of the medium is known whatever comes of it, and it is `Forward` because its parts are.

Two theorems follow.  How bytes are delivered makes no difference, and a medium that fails makes one
only if a byte is asked for that it does not deliver (`load_of_deliveries`).  And a pickle tells where
it ends: what follows it is never looked at, except to find that something does (`load_append`).
-/

namespace Pickle

open Source

/-! ## Looking ahead -/

namespace LookAhead

variable {stage : LookAhead} {source rest : Source}

theorem run_of_byte {byte : UInt8} (h : Read.nextByte source = .ok (some byte) rest)
    (taken : Bytes) :
    run stage taken source =
      match stage.step byte with
      | .version found => ⟨.ok found, byte :: taken, rest⟩
      | .unknown fault => ⟨.error (.malformed fault source.position), byte :: taken, rest⟩
      | .next stage => run stage (byte :: taken) rest := by
  rw [run]
  split
  · next heq => rw [h] at heq; cases heq
  · next heq => rw [h] at heq; cases heq
  · next heq =>
    rw [h] at heq
    cases heq
    rfl

theorem run_of_none (h : Read.nextByte source = .ok none rest) (taken : Bytes) :
    run stage taken source =
      ⟨.error (.malformed .unexpectedEnd rest.position), taken, rest⟩ := by
  rw [run]
  split
  · next heq => rw [h] at heq; cases heq
  · next heq =>
    rw [h] at heq
    cases heq
    rfl
  · next heq => rw [h] at heq; cases heq

theorem run_of_error {error : StreamError} (h : Read.nextByte source = .error error rest)
    (taken : Bytes) : run stage taken source = ⟨.error error, taken, rest⟩ := by
  rw [run]
  split
  · next heq =>
    rw [h] at heq
    cases heq
    rfl
  · next heq => rw [h] at heq; cases heq
  · next heq => rw [h] at heq; cases heq

/-- The first byte of a look ahead is the first thing that it takes. -/
theorem feed_size_run (stage : LookAhead) (taken : Bytes) (source : Source) :
    (run stage taken source).source.feed.size ≤ (left (Read.nextByte source)).feed.size := by
  fun_induction run stage taken source with
  | case1 stage taken source error rest hrun => rw [hrun]; exact le_rfl
  | case2 stage taken source rest hrun => rw [hrun]; exact le_rfl
  | case3 stage taken source byte rest hrun found hstep => rw [hrun]; exact le_rfl
  | case4 stage taken source byte rest hrun fault hstep => rw [hrun]; exact le_rfl
  | case5 stage taken source byte rest hrun later hstep ih =>
    rw [hrun]
    exact ih.trans (feed_size_nextByte rest)

/-- A look ahead in a front goes as in the whole, unless it asks for a byte of the tail. -/
theorem run_front {tail : Bytes} {ending : Ending} {short long : Source}
    (hparts : Parts tail ending) (hfront : IsFront tail ending short long) (stage : LookAhead)
    (taken : Bytes) :
    ((run stage taken short).verdict = (run stage taken long).verdict ∧
        (run stage taken short).taken = (run stage taken long).taken ∧
        IsFront tail ending (run stage taken short).source (run stage taken long).source) ∨
      (∃ error, (run stage taken short).verdict = .error error ∧
          (ending = .failure → error = .unreadable)) ∧
        (run stage taken long).source.feed.size < tail.length := by
  have hbyte := Forward.nextByte.front hparts hfront
  have hsize := feed_size_run stage taken long
  generalize hrun' : Read.nextByte long = result at hbyte hsize
  fun_induction run stage taken short generalizing long result with
  | case1 stage taken short error short' hrun =>
    rw [hrun] at hbyte
    cases hbyte with
    | error error hrest =>
      rw [run_of_error hrun']
      exact .inl ⟨rfl, rfl, hrest⟩
    | beyond hstopped hasked => exact .inr ⟨⟨error, rfl, hstopped⟩, lt_of_le_of_lt hsize hasked⟩
  -- The front ends here, and the longer feed may go on with the tail.
  | case2 stage taken short short' hrun =>
    rw [hrun] at hbyte
    cases hbyte with
    | ok _ hrest =>
      rw [run_of_none hrun', hrest.position]
      exact .inl ⟨rfl, rfl, hrest⟩
    | beyond hstopped hasked =>
      refine .inr ⟨⟨_, rfl, fun hending => ?_⟩, lt_of_le_of_lt hsize hasked⟩
      rw [hstopped.1] at hending
      cases hending
  | case3 stage taken short byte short' hrun found hstep =>
    rw [hrun] at hbyte
    cases hbyte with
    | ok _ hrest =>
      rw [run_of_byte hrun', hstep]
      exact .inl ⟨rfl, rfl, hrest⟩
    | beyond hstopped _ => cases hstopped.2
  | case4 stage taken short byte short' hrun fault hstep =>
    rw [hrun] at hbyte
    cases hbyte with
    | ok _ hrest =>
      rw [run_of_byte hrun', hstep, hfront.position]
      exact .inl ⟨rfl, rfl, hrest⟩
    | beyond hstopped _ => cases hstopped.2
  | case5 stage taken short byte short' hrun later hstep ih =>
    rw [hrun] at hbyte
    cases hbyte with
    | @ok _ _ long' hrest =>
      rw [run_of_byte hrun', hstep]
      exact ih hrest _ rfl (Forward.nextByte.front hparts hrest) (feed_size_run _ _ _)
    | beyond hstopped _ => cases hstopped.2

end LookAhead

namespace Source

theorem IsFront.restored {tail : Bytes} {ending : Ending} {short long : Source}
    (h : IsFront tail ending short long) (bytes : Bytes) :
    IsFront tail ending (short.restored bytes) (long.restored bytes) :=
  ⟨congrArg (· - bytes.length) h.position, congrArg (bytes ++ ·) h.pushback, h.frames, h.bytes,
    h.shortEnding, h.longEnding⟩

theorem Forward.inferVersion : Forward Never Read.inferVersion where
  size_le source := by
    have hsize := (LookAhead.feed_size_run .opcode [] source).trans (feed_size_nextByte source)
    rw [inferVersion_eq]
    split
    · exact hsize
    · exact hsize
  front tail ending short long hparts hfront := by
    rw [inferVersion_eq, inferVersion_eq]
    obtain ⟨hverdict, htaken, hrest⟩ | ⟨⟨error, herror, hfailure⟩, hasked⟩ :=
      LookAhead.run_front hparts hfront .opcode []
    · rw [← hverdict, ← htaken]
      cases (LookAhead.run .opcode [] short).verdict with
      | ok version => exact .ok version (hrest.restored _)
      | error error => exact .error error (hrest.restored _)
    · rw [herror]
      refine .beyond hfailure ?_
      cases (LookAhead.run .opcode [] long).verdict with
      | ok version => exact hasked
      | error error => exact hasked

/-! ## Loading as an action -/

namespace Read

/-- A version, if there is such a one. -/
def supported (version : UInt8) : Read ℕ :=
  if version.toNat ≤ Opcode.highestVersion then return version.toNat
  else fail (.unsupportedProtocol version)

/-- The version to decode by: a given one, or the one that the bytes show. -/
def versionOf : Option UInt8 → Read ℕ
  | some version => supported version
  | none => do supported (← inferVersion)

/-- Carries out the instructions of a source, up to the first stop. -/
def carryOut (env : Environment) (machine : Machine) (version : ℕ) (source : Source) :
    EStateM.Result StreamError Source (Except Error Value) :=
  match _h : instruction version source with
  | .error error rest => .error error rest
  | .ok none rest => .ok (.error (.ofFailure .missingStop)) rest
  | .ok (some taken) rest =>
    match Exec.execute env taken machine with
    | .ok (.halted value) _ => .ok (.ok value) rest
    | .ok .running machine => carryOut env machine version rest
    | .error error _ => .ok (.error error) rest
termination_by source.size
decreasing_by exact size_of_instruction _h

/-- Loads the pickle at the source. -/
def pickle (options : Options) : Read (Except Error Value) := do
  let version ← versionOf options.protocol
  match ← carryOut options.environment options.machine version with
  | .error error => return .error error
  | .ok value =>
    if options.allowsTrailing then return .ok value
    atEnd
    return .ok value

section CarryOut

variable {env : Environment} {machine : Machine} {version : ℕ} {source rest : Source}

theorem carryOut_of_error {error : StreamError}
    (h : instruction version source = .error error rest) :
    carryOut env machine version source = .error error rest := by
  rw [carryOut]
  split
  · next heq =>
    rw [h] at heq
    cases heq
    rfl
  · next heq => rw [h] at heq; cases heq
  · next heq => rw [h] at heq; cases heq

theorem carryOut_of_none (h : instruction version source = .ok none rest) :
    carryOut env machine version source = .ok (.error (.ofFailure .missingStop)) rest := by
  rw [carryOut]
  split
  · next heq => rw [h] at heq; cases heq
  · next heq =>
    rw [h] at heq
    cases heq
    rfl
  · next heq => rw [h] at heq; cases heq

theorem carryOut_of_instruction {taken : Instruction}
    (h : instruction version source = .ok (some taken) rest) :
    carryOut env machine version source =
      match Exec.execute env taken machine with
      | .ok (.halted value) _ => .ok (.ok value) rest
      | .ok .running machine => carryOut env machine version rest
      | .error error _ => .ok (.error error) rest := by
  rw [carryOut]
  split
  · next heq => rw [h] at heq; cases heq
  · next heq => rw [h] at heq; cases heq
  · next heq =>
    rw [h] at heq
    cases heq
    rfl

/-- The first instruction is the first thing that is taken. -/
theorem feed_size_carryOut (env : Environment) (machine : Machine) (version : ℕ)
    (source : Source) :
    (left (carryOut env machine version source)).feed.size ≤
      (left (instruction version source)).feed.size := by
  fun_induction carryOut env machine version source with
  | case1 machine source error rest hrun => rw [hrun]; exact le_rfl
  | case2 machine source rest hrun => rw [hrun]; exact le_rfl
  | case3 machine source taken rest hrun value machine' hexec => rw [hrun]; exact le_rfl
  | case4 machine source taken rest hrun machine' hexec ih =>
    rw [hrun]
    exact ih.trans ((Forward.instruction version).size_le rest)
  | case5 machine source taken rest hrun error machine' hexec => rw [hrun]; exact le_rfl

/-- What the machine does with a source is what it does with the decoder of that source. -/
theorem runDecoder_eq_carryOut (env : Environment) (machine : Machine) (version : ℕ)
    (source : Source) :
    machine.runDecoder env ⟨source, version, false⟩ =
      match carryOut env machine version source with
      | .ok (.ok value) rest => .ok (value, ⟨rest, version, false⟩)
      | .ok (.error error) _ => .error error
      | .error error _ => .error (.stream error) := by
  fun_induction carryOut env machine version source with
  | case1 machine source error rest hrun =>
    rw [Machine.runDecoder_eq, Decoder.next, if_neg (by simp), hrun]
  | case2 machine source rest hrun =>
    rw [Machine.runDecoder_eq, Decoder.next, if_neg (by simp), hrun]
  | case3 machine source taken rest hrun value machine' hexec =>
    rw [Machine.runDecoder_eq, Decoder.next_of_instruction hrun]
    simp only [hexec]
  | case4 machine source taken rest hrun machine' hexec ih =>
    rw [Machine.runDecoder_eq, Decoder.next_of_instruction hrun]
    simp only [hexec]
    exact ih
  | case5 machine source taken rest hrun error machine' hexec =>
    rw [Machine.runDecoder_eq, Decoder.next_of_instruction hrun]
    simp only [hexec]

end CarryOut

theorem ofFeed_eq_versionOf (feed : Feed) (given : Option UInt8) :
    Decoder.ofFeed feed given =
      match versionOf given (Source.ofFeed feed) with
      | .ok version source => .ok ⟨source, version, false⟩
      | .error error _ => .error error := by
  have hcheck (version : UInt8) (source : Source) :
      Decoder.ofSource source version =
        match supported version source with
        | .ok version source => .ok ⟨source, version, false⟩
        | .error error _ => .error error := by
    unfold Decoder.ofSource supported
    split
    · rfl
    · rfl
  cases given with
  | some version => exact hcheck version _
  | none =>
    rw [Decoder.ofFeed]
    cases hinfer : inferVersion (Source.ofFeed feed) with
    | ok version source =>
      have hversion : versionOf none (Source.ofFeed feed) = _ := Read.bind_of_eq_ok hinfer
      rw [hversion]
      exact hcheck version source
    | error error source =>
      have hversion : versionOf none (Source.ofFeed feed) = _ := Read.bind_of_eq_error hinfer
      rw [hversion]

end Read

/-- What loading a feed comes to is what the action comes to at its start. -/
theorem load_eq_pickle (feed : Feed) (options : Options) :
    load feed options =
      match Read.pickle options (ofFeed feed) with
      | .ok result _ => result
      | .error error _ => .error (.stream error) := by
  rw [load, Read.ofFeed_eq_versionOf]
  cases hversion : Read.versionOf options.protocol (ofFeed feed) with
  | error error rest =>
    have hpickle : Read.pickle options (ofFeed feed) = _ := Read.bind_of_eq_error hversion
    rw [hpickle]
    rfl
  | ok version source =>
    have hpickle : Read.pickle options (ofFeed feed) = _ := Read.bind_of_eq_ok hversion
    rw [hpickle]
    show (options.machine.runDecoder options.environment ⟨source, version, false⟩ >>= _) = _
    rw [Read.runDecoder_eq_carryOut]
    cases hrun : Read.carryOut options.environment options.machine version source with
    | error error rest =>
      rw [Read.bind_of_eq_error hrun]
      rfl
    | ok result rest =>
      rw [Read.bind_of_eq_ok hrun]
      cases result with
      | error error => rfl
      | ok value =>
        -- Only what is left behind the value is looked at differently.
        cases htrailing : options.allowsTrailing with
        | true => rfl
        | false =>
          show (((Decoder.finish ⟨rest, version, false⟩).1.mapError Error.stream) >>= fun _ =>
              pure value) =
            match ((Read.atEnd >>= fun _ => pure (.ok value)) : Read (Except Error Value)) rest with
            | .ok result _ => result
            | .error error _ => .error (.stream error)
          unfold Decoder.finish
          cases hend : Read.atEnd rest with
          | ok _ after => rw [Read.bind_of_eq_ok hend]; rfl
          | error error after => rw [Read.bind_of_eq_error hend]; rfl

/-! ## Loading goes forward -/

namespace Forward

theorem versionOf (given : Option UInt8) : Forward Never (Read.versionOf given) := by
  have hsupported (version : UInt8) : Forward Never (Read.supported version) := by
    unfold Read.supported
    split
    · exact pure _
    · exact position_bind fun start => failAt _ start
  cases given with
  | some version => exact hsupported version
  | none => exact inferVersion.bind hsupported

/-- An error of a machine may tell of the end, since it may miss the stop. -/
theorem carryOut (env : Environment) (machine : Machine) (version : ℕ) :
    Forward (fun result => ∃ error, result = .error error)
      (Read.carryOut env machine version) where
  size_le source := (Read.feed_size_carryOut env machine version source).trans
    ((instruction version).size_le source)
  front tail ending short long hparts hfront := by
    have hinstruction := (instruction version).front hparts hfront
    have hsize := Read.feed_size_carryOut env machine version long
    generalize hrun' : Read.instruction version long = result at hinstruction hsize
    fun_induction Read.carryOut env machine version short generalizing long result with
    | case1 machine short error short' hrun =>
      rw [hrun] at hinstruction
      cases hinstruction with
      | error error hrest =>
        rw [Read.carryOut_of_error hrun']
        exact .error error hrest
      | beyond hstopped hasked => exact .beyond hstopped (lt_of_le_of_lt hsize hasked)
    | case2 machine short short' hrun =>
      rw [hrun] at hinstruction
      cases hinstruction with
      | ok _ hrest =>
        rw [Read.carryOut_of_none hrun']
        exact .ok _ hrest
      | beyond hstopped hasked =>
        exact .beyond ⟨hstopped.1, _, rfl⟩ (lt_of_le_of_lt hsize hasked)
    | case3 machine short taken short' hrun value machine' hexec =>
      rw [hrun] at hinstruction
      cases hinstruction with
      | ok _ hrest =>
        rw [Read.carryOut_of_instruction hrun', hexec]
        exact .ok _ hrest
      | beyond hstopped _ => cases hstopped.2
    | case4 machine short taken short' hrun machine' hexec ih =>
      rw [hrun] at hinstruction
      cases hinstruction with
      | ok _ hrest =>
        rw [Read.carryOut_of_instruction hrun', hexec]
        exact ih _ hrest _ rfl ((instruction version).front hparts hrest)
          (Read.feed_size_carryOut ..)
      | beyond hstopped _ => cases hstopped.2
    | case5 machine short taken short' hrun error machine' hexec =>
      rw [hrun] at hinstruction
      cases hinstruction with
      | ok _ hrest =>
        rw [Read.carryOut_of_instruction hrun', hexec]
        exact .ok _ hrest
      | beyond hstopped _ => cases hstopped.2

/-- Loading asks whether the bytes have ended, so any result may tell of the end. -/
theorem pickle (options : Options) : Forward (fun _ => True) (Read.pickle options) := by
  refine (versionOf _).bind fun version => (carryOut _ _ _).bindEarly (fun result => ?_) ?_
  · cases result with
    | error error => exact pure _
    | ok value =>
      dsimp only
      split
      · exact pure _
      · exact atEnd.bindEarly (fun _ => pure _) fun _ _ _ => ⟨rfl, trivial⟩
  · rintro _ source ⟨error, rfl⟩
    exact ⟨rfl, trivial⟩

end Forward

end Source

/-! ## How bytes are delivered -/

/-- What a medium still has when a pickle has been loaded from it, whatever came of that. -/
def leftover (feed : Feed) (options : Options) : Feed :=
  (left (Read.pickle options (Source.ofFeed feed))).feed

/-- Whether loading asks a medium that has some bytes, and then others, for one of the others. -/
def AsksBeyond (options : Options) (front tail : Bytes) : Prop :=
  (leftover (.ofBytes (front ++ tail)) options).size < tail.length

theorem isFront_ofFeed {short long : Feed} {tail : Bytes} (hbytes : long.bytes = short.bytes ++ tail)
    (hlong : long.ending = .finished) :
    IsFront tail short.ending (Source.ofFeed short) (Source.ofFeed long) :=
  ⟨rfl, rfl, rfl, hbytes, rfl, hlong⟩

/-- Loading a front comes to the same as loading the whole, unless a byte of the tail is asked
for. -/
theorem load_front {short long : Feed} {tail : Bytes} (hparts : Parts tail short.ending)
    (hbytes : long.bytes = short.bytes ++ tail) (hlong : long.ending = .finished)
    (options : Options) :
    (tail.length ≤ (leftover long options).size ∧ load short options = load long options) ∨
      ((leftover long options).size < tail.length ∧
        (short.ending = .failure → load short options = .error (.stream .unreadable))) := by
  have hpickle := (Forward.pickle options).front hparts (isFront_ofFeed hbytes hlong)
  rw [load_eq_pickle, load_eq_pickle, leftover]
  generalize Read.pickle options (Source.ofFeed short) = result,
    Read.pickle options (Source.ofFeed long) = result' at hpickle
  have hall {short' long' : Source} (h : IsFront tail short.ending short' long') :
      tail.length ≤ long'.feed.size := by
    rw [Feed.size, h.bytes, List.length_append]
    exact Nat.le_add_left ..
  cases hpickle with
  | ok value hrest => exact .inl ⟨hall hrest, rfl⟩
  | error error hrest => exact .inl ⟨hall hrest, rfl⟩
  | beyond hstopped hasked =>
    refine .inr ⟨hasked, fun hfailure => ?_⟩
    cases result with
    | ok value rest =>
      rw [hstopped.1] at hfailure
      cases hfailure
    | error error rest =>
      rw [hstopped hfailure]

/-- How bytes are delivered makes no difference.

A medium that comes to its end gives the same value, or the same error at the same offset, as its
bytes in memory, however long its chunks are and however often it is interrupted.

A medium that fails after some bytes gives the same as memory in which other bytes follow these, as
long as loading from there takes none of the others; it is then also what these bytes alone come to.
If one of the others is taken, the failure of the medium is reported, and nothing else. -/
theorem load_of_deliveries (feed : Feed) (options : Options) :
    (feed.ending = .finished → load feed options = load (.ofBytes feed.bytes) options) ∧
    (feed.ending = .failure → ∀ tail, tail ≠ [] →
      (AsksBeyond options feed.bytes tail →
        load feed options = .error (.stream .unreadable)) ∧
      (¬ AsksBeyond options feed.bytes tail →
        load feed options = load (.ofBytes (feed.bytes ++ tail)) options ∧
          load feed options = load (.ofBytes feed.bytes) options)) := by
  refine ⟨fun hending => ?_, fun hending tail htail => ?_⟩
  · have hsame : (Feed.ofBytes feed.bytes).bytes = feed.bytes ++ [] := by simp
    obtain ⟨-, hload⟩ | ⟨hasked, -⟩ := load_front (.inr hending) hsame rfl options
    · exact hload
    · exact absurd hasked (Nat.not_lt_zero _)
  · have hwhole : (Feed.ofBytes (feed.bytes ++ tail)).bytes = feed.bytes ++ tail :=
      Feed.bytes_ofBytes _
    have hfront : (Feed.ofBytes (feed.bytes ++ tail)).bytes =
        (Feed.ofBytes feed.bytes).bytes ++ tail := by simp
    refine ⟨fun hasks => ?_, fun hasks => ?_⟩
    · obtain ⟨hle, -⟩ | ⟨-, hload⟩ := load_front (.inl htail) hwhole rfl options
      · exact absurd hasks (not_lt.2 hle)
      · exact hload hending
    · obtain ⟨-, hload⟩ | ⟨hlt, -⟩ := load_front (.inl htail) hwhole rfl options
      · obtain ⟨-, hload'⟩ | ⟨hlt, -⟩ := load_front (.inl htail) hfront rfl options
        · exact ⟨hload, hload.trans hload'.symm⟩
        · exact absurd hlt hasks
      · exact absurd hlt hasks

/-- The number seven from a slow medium, and from two that fail before its end and behind it. -/
theorem load_of_deliveries_slow :
    let slow : Feed := ⟨[.interruption, .chunk 0x80 [2, 0x4b], .interruption, .chunk 7 [0x2e]],
      .finished⟩
    let cut : Feed := ⟨[.chunk 0x80 [], .interruption, .chunk 2 [0x4b]], .failure⟩
    let whole : Feed := ⟨[.chunk 0x80 [2], .chunk 0x4b [7, 0x2e]], .failure⟩
    (slow.ending = .finished ∧ cut.ending = .failure ∧ whole.ending = .failure ∧
        AsksBeyond {} cut.bytes [7, 0x2e] ∧
        ¬ AsksBeyond { allowsTrailing := true } whole.bytes [0x2e]) ∧
      load slow {} = load (.ofBytes [0x80, 2, 0x4b, 7, 0x2e]) {} ∧
      load cut {} = .error (.stream .unreadable) ∧
      load whole { allowsTrailing := true } =
        load (.ofBytes [0x80, 2, 0x4b, 7, 0x2e]) { allowsTrailing := true } := by
  intro slow cut whole
  have hcut : AsksBeyond {} cut.bytes [7, 0x2e] := by
    have hsize : (leftover (.ofBytes (cut.bytes ++ [7, 0x2e])) {}).size = 0 := by cbv
    rw [AsksBeyond, hsize]
    decide
  have hwhole : ¬ AsksBeyond { allowsTrailing := true } whole.bytes [0x2e] := by
    have hsize : (leftover (.ofBytes (whole.bytes ++ [0x2e])) { allowsTrailing := true }).size =
        1 := by cbv
    rw [AsksBeyond, hsize]
    decide
  exact ⟨⟨rfl, rfl, rfl, hcut, hwhole⟩, (load_of_deliveries slow {}).1 rfl,
    ((load_of_deliveries cut {}).2 rfl _ (by simp)).1 hcut,
    (((load_of_deliveries whole { allowsTrailing := true }).2 rfl _ (by simp)).2 hwhole).2⟩

/-! ## Where a pickle ends -/

theorem Decoder.IsBetween.carryOut {bytes : Bytes} {version : ℕ} {source rest : Source}
    (h : IsBetween bytes version ⟨source, version, false⟩) {env : Environment} {machine : Machine}
    {value : Value} (hrun : Read.carryOut env machine version source = .ok (.ok value) rest) :
    IsBetween bytes version ⟨rest, version, false⟩ := by
  fun_induction Read.carryOut env machine version source with
  | case1 => cases hrun
  | case2 => cases hrun
  | case3 machine source taken rest hinstruction value machine' hexec =>
    cases hrun
    exact (h.next (Decoder.next_of_instruction hinstruction)).1
  | case4 machine source taken rest hinstruction machine' hexec ih =>
    exact ih (h.next (Decoder.next_of_instruction hinstruction)).1 hrun
  | case5 => cases hrun

section Append

variable {options : Options} {version : UInt8} {short long : Feed} {tail : Bytes} {value : Value}

/-- What loading to the very end has found: the value at the stop, and no byte behind it. -/
theorem carryOut_of_load (hprotocol : options.protocol = some version)
    (hload : load short { options with allowsTrailing := false } = .ok value) :
    version.toNat ≤ Opcode.highestVersion ∧ ∃ rest,
      Read.carryOut options.environment options.machine version.toNat (Source.ofFeed short) =
          .ok (.ok value) rest ∧
        (Decoder.finish ⟨rest, version.toNat, false⟩).1 = .ok () := by
  by_cases hversion : version.toNat ≤ Opcode.highestVersion
  · have hdecoder : Decoder.ofFeed short options.protocol =
        .ok ⟨Source.ofFeed short, version.toNat, false⟩ := by
      rw [hprotocol, Decoder.ofFeed_eq_ok hversion]
    rw [@load_of_ofFeed short { options with allowsTrailing := false } _ hdecoder] at hload
    change (options.machine.runDecoder options.environment _ >>= _) = _ at hload
    rw [Read.runDecoder_eq_carryOut] at hload
    cases hrun : Read.carryOut options.environment options.machine version.toNat
        (Source.ofFeed short) with
    | error error rest =>
      rw [hrun] at hload
      cases hload
    | ok result rest =>
      rw [hrun] at hload
      cases result with
      | error error => cases hload
      | ok found =>
        change ((Decoder.finish ⟨rest, version.toNat, false⟩).1.mapError Error.stream >>=
          fun _ => pure found) = .ok value at hload
        refine ⟨hversion, rest, ?_⟩
        cases hfinish : (Decoder.finish ⟨rest, version.toNat, false⟩).1 with
        | error error =>
          rw [hfinish] at hload
          cases hload
        | ok _ =>
          rw [hfinish] at hload
          obtain rfl : found = value := Except.ok.inj hload
          exact ⟨rfl, rfl⟩
  · have hdecoder : Decoder.ofFeed short (some version) =
        .error (.malformed (.unsupportedProtocol version) 0) := if_neg hversion
    rw [load, show ({ options with allowsTrailing := false } : Options).protocol = some version from
      hprotocol, hdecoder] at hload
    cases hload

/-- Behind the end of a front begins the tail. -/
theorem finish_of_tail {rest rest' : Source} {number : ℕ} (htail : tail ≠ [])
    (hbetween : Decoder.IsBetween short.bytes number ⟨rest, number, false⟩)
    (hfinish : (Decoder.finish ⟨rest, number, false⟩).1 = .ok ())
    (hfront : IsFront tail .finished rest rest') :
    (Decoder.finish ⟨rest', number, false⟩).1 =
      .error (.malformed .trailingBytes (short.bytes.length + 1)) := by
  have hwindow : rest.window = [] := hbetween.finish_eq_ok_iff.1 hfinish
  obtain ⟨hframes, hposition⟩ := hbetween.frames_of_window hwindow
  have hposition' : rest'.position = short.bytes.length := hfront.position.symm.trans hposition
  obtain ⟨byte, others, rfl⟩ := List.exists_cons_of_ne_nil htail
  have hwindow' : rest'.window = byte :: others := by
    rcases hfront.window with ⟨hne, -⟩ | ⟨-, -, hlong⟩
    · exact absurd hframes hne
    · rw [hlong, hwindow, List.nil_append]
  obtain ⟨last, hbyte, hlast⟩ := nextByte_of_window hwindow'
  have hend : Read.atEnd rest' = .error (.malformed .trailingBytes last.position) last := by
    rw [Read.atEnd, Read.bind_of_eq_ok hbyte]
    rfl
  rw [Decoder.finish, hend, hlast.position, hposition']
  rfl

theorem load_append_of_protocol (hprotocol : options.protocol = some version)
    (hshort : short.ending = .finished) (hlong : long.ending = .finished)
    (hbytes : long.bytes = short.bytes ++ tail) (htail : tail ≠ [])
    (hload : load short { options with allowsTrailing := false } = .ok value) :
    load long { options with allowsTrailing := true } = .ok value ∧
      load long { options with allowsTrailing := false } =
        .error (.stream (.malformed .trailingBytes (short.bytes.length + 1))) := by
  obtain ⟨hversion, rest, hrun, hfinish⟩ := carryOut_of_load hprotocol hload
  have hbetween := (Decoder.isBetween_ofFeed hshort).carryOut hrun
  have hcarry := (Forward.carryOut options.environment options.machine version.toNat).front
    (.inl htail) (isFront_ofFeed hbytes hlong)
  rw [hrun, hshort] at hcarry
  generalize hrun' : Read.carryOut options.environment options.machine version.toNat
    (Source.ofFeed long) = result at hcarry
  -- A value was loaded, so reading stopped at it and not at the end of the shorter feed.
  cases hcarry with
  | beyond hstopped _ =>
    obtain ⟨-, error, herror⟩ := hstopped
    cases herror
  | @ok _ _ rest' hfront =>
    have hdecoder : Decoder.ofFeed long options.protocol =
        .ok ⟨Source.ofFeed long, version.toNat, false⟩ := by
      rw [hprotocol, Decoder.ofFeed_eq_ok hversion]
    have hdecoded : options.machine.runDecoder options.environment
        ⟨Source.ofFeed long, version.toNat, false⟩ = .ok (value, ⟨rest', version.toNat, false⟩) := by
      rw [Read.runDecoder_eq_carryOut, hrun']
    constructor
    · rw [@load_of_ofFeed long { options with allowsTrailing := true } _ hdecoder]
      change (options.machine.runDecoder options.environment _ >>= _) = _
      rw [hdecoded]
      rfl
    · rw [@load_of_ofFeed long { options with allowsTrailing := false } _ hdecoder]
      change (options.machine.runDecoder options.environment _ >>= _) = _
      rw [hdecoded]
      change ((Decoder.finish ⟨rest', version.toNat, false⟩).1.mapError Error.stream >>=
        fun _ => pure value) = _
      rw [finish_of_tail htail hbetween hfinish hfront]
      rfl

/-- What can be loaded without a version has one that can be told. -/
theorem inferVersion_of_load (hprotocol : options.protocol = none)
    (hload : load short options = .ok value) :
    ∃ version source, version.toNat ≤ Opcode.highestVersion ∧
      Read.inferVersion (Source.ofFeed short) = .ok version source := by
  rw [load, hprotocol, Decoder.ofFeed] at hload
  cases hinfer : Read.inferVersion (Source.ofFeed short) with
  | error error source =>
    rw [hinfer] at hload
    cases hload
  | ok version source =>
    rw [hinfer] at hload
    by_cases hversion : version.toNat ≤ Opcode.highestVersion
    · exact ⟨version, source, hversion, rfl⟩
    · dsimp only at hload
      rw [Decoder.ofSource, if_neg hversion] at hload
      cases hload

end Append

/-- Pickles are self-delimiting.

If some bytes are loaded as a value and nothing follows it, then the same value is loaded from them
with anything behind, as long as bytes may follow; and if none may, the first of those bytes is
reported, whatever they are and whether the version is given or inferred. -/
theorem load_append (options : Options) (pickle tail : Bytes) (value : Value) (htail : tail ≠ [])
    (hload : load (.ofBytes pickle) { options with allowsTrailing := false } = .ok value) :
    load (.ofBytes (pickle ++ tail)) { options with allowsTrailing := true } = .ok value ∧
      load (.ofBytes (pickle ++ tail)) { options with allowsTrailing := false } =
        .error (.stream (.malformed .trailingBytes (pickle.length + 1))) := by
  have hbytes : (Feed.ofBytes (pickle ++ tail)).bytes = (Feed.ofBytes pickle).bytes ++ tail := by
    simp
  have hlength : pickle.length = (Feed.ofBytes pickle).bytes.length := by simp
  rw [hlength]
  rcases Option.eq_none_or_eq_some options.protocol with hprotocol | ⟨version, hprotocol⟩
  · -- The version that is inferred from the pickle is inferred from it with the tail.
    obtain ⟨version, source, hversion, hinfer⟩ :=
      @inferVersion_of_load { options with allowsTrailing := false } _ _ hprotocol hload
    have hfront := Forward.inferVersion.front (.inl htail) (isFront_ofFeed hbytes rfl)
    rw [hinfer] at hfront
    generalize hinfer' : Read.inferVersion (Source.ofFeed (.ofBytes (pickle ++ tail))) = result
      at hfront
    -- Either setting for trailing bytes starts from the same inferred version.
    have hsame (allows : Bool) :
        load (.ofBytes pickle) { options with allowsTrailing := allows } =
            load (.ofBytes pickle)
              { options with protocol := some version, allowsTrailing := allows } ∧
          load (.ofBytes (pickle ++ tail)) { options with allowsTrailing := allows } =
            load (.ofBytes (pickle ++ tail))
              { options with protocol := some version, allowsTrailing := allows } := by
      obtain ⟨decodes, protocol, constants, extensions, buffers, loader, trailing, host⟩ := options
      obtain rfl : protocol = none := hprotocol
      cases hfront with
      | beyond hstopped _ => exact hstopped.2.elim
      | ok _ _ =>
        exact ⟨load_of_inferVersion rfl hversion hinfer
            ⟨decodes, none, constants, extensions, buffers, loader, allows, host⟩,
          load_of_inferVersion rfl hversion hinfer'
            ⟨decodes, none, constants, extensions, buffers, loader, allows, host⟩⟩
    rw [(hsame false).1] at hload
    rw [(hsame true).2, (hsame false).2]
    exact @load_append_of_protocol { options with protocol := some version } version _ _ _ _ rfl
      rfl rfl hbytes htail hload
  · exact load_append_of_protocol hprotocol rfl rfl hbytes htail hload

/-- A stop in a frame, and behind it bytes that would begin a frame without an end. -/
theorem load_append_framed :
    let pickle : Bytes := [0x80, 4, 0x95, 3, 0, 0, 0, 0, 0, 0, 0, 0x4b, 7, 0x2e]
    let tail : Bytes := [0x95, 0xff]
    (tail ≠ [] ∧ load (.ofBytes pickle) {} = .ok (.scalar (.short 7))) ∧
      load (.ofBytes (pickle ++ tail)) { allowsTrailing := true } = .ok (.scalar (.short 7)) ∧
      load (.ofBytes (pickle ++ tail)) {} = .error (.stream (.malformed .trailingBytes 15)) := by
  intro pickle tail
  have htail : tail ≠ [] := by decide
  have hload : load (.ofBytes pickle) {} = .ok (.scalar (.short 7)) := by cbv
  exact ⟨⟨htail, hload⟩, load_append {} pickle tail _ htail hload⟩

end Pickle
