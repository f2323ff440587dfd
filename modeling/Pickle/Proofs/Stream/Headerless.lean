import Pickle.Load
import Pickle.Proofs.Stream.Inference

/-!
# Streams without an announcement

A stream of one of the two oldest versions does not say which of them it is in.  The look ahead and
the decoder read such a stream independently of each other: one goes from opcode to opcode and skips
lines without a look at what they spell, the other makes instructions of the same bytes.  What keeps
them in step is that a neutral instruction hands out just the bytes that lead the look ahead back to
an opcode (`tells_of_yields`), however many lines these bytes have and whatever stands in them.  So
the look ahead comes to the opcode byte of the first instruction that is not neutral.  There it goes
by a list of its own, which agrees with the table of the decoder on the version that introduced the
opcode (`Opcode.toldVersion?_eq`).

`inferVersion_of_yields` puts this together.  Since a decoder after the look ahead follows one that
was given the version, what is loaded is the same, too.
-/

namespace Pickle

open Source

/-! ## Neutral opcodes -/

/-- The opcodes that both of the oldest versions write in the same way, so that nothing is learnt
from them. -/
def Opcode.neutral : List Opcode :=
  [.mark, .popMark, .pushNone, .reduce, .append, .build, .setItem, .tuple, .int, .long, .global]

/-- The look ahead skips the lines of just the neutral opcodes. -/
theorem Opcode.mem_neutral_iff (op : Opcode) :
    op ∈ Opcode.neutral ↔ ∃ lines, op.sharedLines? = some lines := by
  cases op <;> simp [Opcode.neutral, Opcode.sharedLines?]

/-- The look ahead and the decoder have a list each of what the two oldest versions write.  Neutral
opcodes apart, the lists agree. -/
theorem Opcode.toldVersion?_eq (op : Opcode) : op.toldVersion? =
    if op ∉ Opcode.neutral ∧ op.introducedIn ≤ 1 then some (UInt8.ofNat op.introducedIn)
    else none := by
  cases op <;> rfl

namespace LookAhead

variable {byte : UInt8} {op : Opcode}

theorem step_of_neutral {lines : ℕ} (hbyte : Opcode.ofByte? byte = some op)
    (hlines : op.sharedLines? = some lines) :
    LookAhead.opcode.step byte = .next (skip lines) := by
  rw [step, ofOpcode, hbyte]
  cases op <;> cases hlines <;> rfl

/-- Any other opcode of the oldest versions tells which one has it. -/
theorem step_of_telling (hbyte : Opcode.ofByte? byte = some op) (hneutral : op ∉ Opcode.neutral)
    (hlegal : op.introducedIn ≤ 1) :
    LookAhead.opcode.step byte = .version (UInt8.ofNat op.introducedIn) := by
  have hlines : op.sharedLines? = none := by
    rw [Option.eq_none_iff_forall_ne_some]
    exact fun lines hlines => hneutral ((Opcode.mem_neutral_iff op).2 ⟨lines, hlines⟩)
  have hproto : op ≠ .proto := by
    rintro rfl
    exact absurd hlegal (by decide)
  rw [step, ofOpcode, hbyte]
  split
  · next heq => cases heq
  · next heq => exact absurd (Option.some.inj heq) hproto
  · next heq =>
    obtain rfl := Option.some.inj heq
    simp only [hlines, Opcode.toldVersion?_eq, if_pos (And.intro hneutral hlegal)]

/-- The look ahead finds the version that the window tells. -/
theorem run_of_tells {stage : LookAhead} {path tail : Bytes} {found : UInt8}
    (h : stage.Tells path found) {source : Source} (hwindow : source.window = path ++ tail)
    (taken : Bytes) : (run stage taken source).verdict = .ok found := by
  induction h generalizing source taken with
  | version hstep =>
    obtain ⟨rest, hbyte, -⟩ := nextByte_of_window hwindow
    rw [run]
    split
    · next heq => rw [hbyte] at heq; cases heq
    · next heq => rw [hbyte] at heq; cases heq
    · next heq =>
      rw [hbyte] at heq
      cases heq
      rw [hstep]
  | next hstep _ ih =>
    obtain ⟨rest, hbyte, hrest⟩ := nextByte_of_window hwindow
    have htail := hrest.window
    rw [hwindow] at htail
    rw [run]
    split
    · next heq => rw [hbyte] at heq; cases heq
    · next heq => rw [hbyte] at heq; cases heq
    · next heq =>
      rw [hbyte] at heq
      cases heq
      rw [hstep]
      exact ih (List.cons.inj htail).2.symm _

end LookAhead

/-- What a machine does with the next answer of a decoder. -/
theorem Machine.runDecoder_eq (env : Environment) (machine : Machine) (decoder : Decoder) :
    machine.runDecoder env decoder =
      match decoder.next.1 with
      | .finished => .error (.ofFailure .missingStop)
      | .error error => .error (.stream error)
      | .instruction instruction =>
        match Exec.execute env instruction machine with
        | .ok (.halted value) _ => .ok (value, decoder.next.2)
        | .ok .running machine => machine.runDecoder env decoder.next.2
        | .error error _ => .error error := by
  rw [Machine.runDecoder]
  split
  · next hnext => rw [hnext]
  · next hnext => rw [hnext]
  · next hnext =>
    generalize decoder.next = answer at hnext ⊢
    subst hnext
    rfl

/-! ## Decoder and look ahead in step -/

namespace Decoder

variable {version : ℕ} {after : Decoder} {program : List Instruction} {first : Instruction}

/-- The bytes that a decoder takes for neutral instructions and the opcode after them tell the
version of that opcode.  The induction is on the instructions; outside frames, the bytes of each are
the front of the window of the source before it. -/
theorem tells_of_yields (hversion : version ≤ 1) {source : Source} (hframes : source.frames = [])
    (h : Yields ⟨source, version, false⟩ program after)
    (hfirst : program.find? (·.opcode ∉ Opcode.neutral) = some first) :
    ∃ path tail, source.window = path ++ tail ∧
      LookAhead.opcode.Tells path (UInt8.ofNat first.opcode.introducedIn) := by
  induction program generalizing source with
  | nil => cases hfirst
  | cons instruction others ih =>
    cases h with
    | cons hnext hothers =>
      obtain ⟨hrun, hmiddle⟩ := instruction_of_next hnext
      obtain ⟨byte, inside, outside, hbyte, hdecode, hread, hsettled⟩ :=
        Read.instruction_eq_ok hrun
      obtain ⟨hopcode, hlegal⟩ := Option.filter_eq_some_iff.1 hdecode
      have hhead : source.HandsOut [byte] inside := handsOut_of_nextByte hbyte
      -- A neutral opcode is skipped with its lines, and any other one decides.
      by_cases hneutral : instruction.opcode ∈ Opcode.neutral
      · obtain ⟨lines, hlines⟩ := (Opcode.mem_neutral_iff _).1 hneutral
        obtain ⟨path, hpath, hleads⟩ := LookAhead.leads_layout hlines hread
        have houtside : outside.frames = [] :=
          (hhead.trans hpath).frames_eq_nil.2 hframes
        rw [settled_of_frames houtside] at hsettled
        rw [hmiddle, hsettled] at hothers
        rw [List.find?_cons_of_neg (by simpa using hneutral)] at hfirst
        obtain ⟨more, tail, hwindow, htells⟩ := ih houtside hothers hfirst
        refine ⟨byte :: (path ++ more), tail, ?_, ?_⟩
        · rw [hhead.window, hpath.window, hwindow, List.singleton_append,
            List.cons_append, List.append_assoc]
        · exact .next (LookAhead.step_of_neutral hopcode hlines) (hleads.tells htells)
      · rw [List.find?_cons_of_pos (by simpa using hneutral)] at hfirst
        obtain rfl := Option.some.inj hfirst
        have hlow : instruction.opcode.introducedIn ≤ 1 :=
          (of_decide_eq_true hlegal).trans hversion
        exact ⟨[byte], inside.window, hhead.window,
          .version (LookAhead.step_of_telling hopcode hneutral hlow)⟩

/-- What a decoder gives is legal under its version. -/
theorem Yields.isLegal {source : Source} (h : Yields ⟨source, version, false⟩ program after)
    {instruction : Instruction} (hmem : instruction ∈ program) :
    instruction.opcode.introducedIn ≤ version := by
  induction program generalizing source with
  | nil => cases hmem
  | cons head others ih =>
    cases h with
    | cons hnext hothers =>
      obtain ⟨hrun, hmiddle⟩ := instruction_of_next hnext
      rcases List.mem_cons.1 hmem with rfl | hmem
      · obtain ⟨_, _, _, _, hdecode, _, _⟩ := Read.instruction_eq_ok hrun
        exact of_decide_eq_true (Option.filter_eq_some_iff.1 hdecode).2
      · rw [hmiddle] at hothers
        exact ih hothers hmem

/-- A pickle that stops has an instruction that is not neutral. -/
theorem exists_telling (body : List Instruction) :
    ∃ first, (body ++ [⟨.stop, ()⟩] : List Instruction).find? (·.opcode ∉ Opcode.neutral) =
      some first := by
  rw [← Option.isSome_iff_exists, List.find?_isSome]
  refine ⟨⟨.stop, ()⟩, List.mem_append_right _ List.mem_cons_self, ?_⟩
  exact decide_eq_true (show Opcode.stop ∉ Opcode.neutral by decide)

/-- The version of the first instruction that is not neutral is inferred. -/
theorem inferVersion_of_find? {feed : Feed} (hversion : version ≤ 1)
    (h : Yields ⟨Source.ofFeed feed, version, false⟩ program after)
    (hfirst : program.find? (·.opcode ∉ Opcode.neutral) = some first) :
    ∃ source, Read.inferVersion (Source.ofFeed feed) =
      .ok (UInt8.ofNat first.opcode.introducedIn) source := by
  obtain ⟨path, tail, hwindow, htells⟩ := tells_of_yields hversion rfl h hfirst
  rw [inferVersion_eq, LookAhead.run_of_tells htells hwindow []]
  exact ⟨_, rfl⟩

/-! ## Loading under inference -/

/-- A machine comes to the same with two decoders one of which follows the other. -/
theorem Follows.runDecoder {found : UInt8} {inferred given : Decoder}
    (h : Follows found inferred given) (env : Environment) (machine : Machine) :
    (∃ error, machine.runDecoder env inferred = .error error ∧
        machine.runDecoder env given = .error error) ∨
      ∃ value inferred' given', machine.runDecoder env inferred = .ok (value, inferred') ∧
        machine.runDecoder env given = .ok (value, given') ∧ Follows found inferred' given' := by
  fun_induction Machine.runDecoder env machine inferred generalizing given with
  | case1 machine inferred after hnext =>
    rw [Machine.runDecoder_eq env machine given, ← h.next.1]
    simp only [hnext]
    exact .inl ⟨_, rfl, rfl⟩
  | case2 machine inferred error after hnext =>
    rw [Machine.runDecoder_eq env machine given, ← h.next.1]
    simp only [hnext]
    exact .inl ⟨_, rfl, rfl⟩
  | case3 machine inferred instruction after hnext value machine' hrun =>
    have hafter := h.next.2
    rw [Machine.runDecoder_eq env machine given, ← h.next.1]
    simp only [hnext, hrun] at hafter ⊢
    exact .inr ⟨value, after, given.next.2, rfl, rfl, hafter⟩
  | case4 machine inferred instruction after hnext machine' hrun ih =>
    have hafter := h.next.2
    rw [Machine.runDecoder_eq env machine given, ← h.next.1]
    simp only [hnext, hrun] at hafter ⊢
    exact ih hafter
  | case5 machine inferred instruction after hnext error machine' hrun =>
    rw [Machine.runDecoder_eq env machine given, ← h.next.1]
    simp only [hnext, hrun]
    exact .inl ⟨error, rfl, rfl⟩

end Decoder

/-- What becomes of a decoder when the machine asks it for the instructions of the pickle. -/
theorem load_of_ofFeed {feed : Feed} {options : Options} {decoder : Decoder}
    (h : Decoder.ofFeed feed options.protocol = .ok decoder) :
    load feed options = do
      let (value, rest) ← options.machine.runDecoder options.environment decoder
      if options.allowsTrailing then return value
      rest.finish.1.mapError Error.stream
      return value := by
  rw [load, h]
  rfl

/-- Loading under inference comes to the same as loading under the version that is inferred. -/
theorem load_of_inferVersion {feed : Feed} {version : UInt8} {source : Source}
    (hending : feed.ending = .finished) (hversion : version.toNat ≤ Opcode.highestVersion)
    (hinfer : Read.inferVersion (Source.ofFeed feed) = .ok version source) (options : Options) :
    load feed { options with protocol := none } =
      load feed { options with protocol := some version } := by
  have hfollows := Decoder.Follows.of_inferVersion hending hinfer
  rw [load_of_ofFeed (Decoder.ofFeed_of_inferVersion hversion hinfer),
    load_of_ofFeed (Decoder.ofFeed_eq_ok hversion)]
  show (options.machine.runDecoder options.environment _ >>= _) =
    (options.machine.runDecoder options.environment _ >>= _)
  obtain ⟨error, hinferred, hgiven⟩ | ⟨value, inferred, given, hinferred, hgiven, hrest⟩ :=
    hfollows.runDecoder options.environment options.machine
  · rw [hinferred, hgiven]
  · rw [hinferred, hgiven]
    simp only [bind, Except.bind, hrest.finish]

namespace Decoder

/-- The bytes that a program is written as are decoded to it. -/
theorem exists_yields_encodeAll {version : ℕ} {program : List Instruction}
    (hprogram : ∀ instruction ∈ program, IsWritable version instruction) :
    ∃ after, Yields ⟨Source.ofFeed (Feed.ofBytes (Instruction.encodeAll program)), version, false⟩
      program after := by
  have hat := isAt_ofFeed (Feed.ofBytes (Instruction.encodeAll program))
  rw [Feed.bytes_ofBytes] at hat
  obtain ⟨_, after, _, hyields, -, rfl⟩ :=
    collect_eq_ok_iff.1 (collect_of_isAt hprogram hat [])
  exact ⟨after, hyields⟩

/-- The look ahead agrees with the decoder on the oldest versions.

Whenever a decoder for version one gives instructions up to a stop, the version is inferred that
introduced the first of their opcodes that is not neutral; stopping counts for version zero.

In particular, version zero is inferred of whatever decodes as such up to a stop, and loading it
comes to the same whether the version is inferred or given. -/
theorem inferVersion_of_yields (feed : Feed) (start after : Decoder) (body : List Instruction)
    (hyields : start.Yields (body ++ [⟨.stop, ()⟩]) after) :
    (ofFeed feed (some 1) = .ok start →
      ∃ first version source,
        (body ++ [⟨.stop, ()⟩] : List Instruction).find? (·.opcode ∉ Opcode.neutral) =
            some first ∧
          Read.inferVersion (Source.ofFeed feed) = .ok version source ∧
          version.toNat = first.opcode.introducedIn) ∧
    (ofFeed feed (some 0) = .ok start →
      (∃ source, Read.inferVersion (Source.ofFeed feed) = .ok 0 source) ∧
        (feed.ending = .finished → ∀ options : Options,
          load feed { options with protocol := none } =
            load feed { options with protocol := some 0 })) := by
  obtain ⟨first, hfirst⟩ := exists_telling body
  refine ⟨fun hstart => ?_, fun hstart => ?_⟩
  · have hlow : (1 : UInt8).toNat ≤ 1 := le_refl _
    rw [ofFeed_eq_ok (by decide)] at hstart
    obtain rfl := Except.ok.inj hstart
    obtain ⟨source, hinfer⟩ := inferVersion_of_find? hlow hyields hfirst
    have hintroduced : first.opcode.introducedIn ≤ 1 :=
      hyields.isLegal (List.mem_of_find?_eq_some hfirst)
    refine ⟨first, _, source, hfirst, hinfer, ?_⟩
    rw [UInt8.toNat_ofNat']
    omega
  · have hlow : (0 : UInt8).toNat ≤ 1 := Nat.zero_le _
    rw [ofFeed_eq_ok (by decide)] at hstart
    obtain rfl := Except.ok.inj hstart
    obtain ⟨source, hinfer⟩ := inferVersion_of_find? hlow hyields hfirst
    have hintroduced : first.opcode.introducedIn ≤ 0 :=
      hyields.isLegal (List.mem_of_find?_eq_some hfirst)
    -- What is legal in version zero is inferred to be of that version.
    rw [Nat.le_zero.1 hintroduced] at hinfer
    exact ⟨⟨source, hinfer⟩, fun hending options =>
      load_of_inferVersion hending (by decide) hinfer options⟩

/-- A class whose names are spelt with bytes that would tell a version as opcodes, and a list of
version zero. -/
theorem inferVersion_of_yields_lines :
    let named := Feed.ofBytes [0x63, 0x4b, 0x71, 0x0a, 0x5d, 0x7d, 0x0a, 0x29, 0x52, 0x2e]
    let listed := Feed.ofBytes [0x28, 0x4e, 0x6c, 0x2e]
    (∃ version source, Read.inferVersion (Source.ofFeed named) = .ok version source ∧
        version.toNat = Opcode.emptyTuple.introducedIn) ∧
      (∃ source, Read.inferVersion (Source.ofFeed listed) = .ok 0 source) ∧
      load listed {} = load listed { protocol := some 0 } := by
  intro named listed
  let spelt : List Instruction :=
    [⟨.global, ⟨"Kq", "]\x7d"⟩⟩, ⟨.emptyTuple, ()⟩, ⟨.reduce, ()⟩, ⟨.stop, ()⟩]
  have hwritable : ∀ instruction ∈ spelt, IsWritable 1 instruction := by
    intro instruction hinstruction
    simp only [spelt, List.mem_cons, List.not_mem_nil, or_false] at hinstruction
    rcases hinstruction with rfl | rfl | rfl | rfl
    · refine ⟨rfl, by decide, ?_, ?_⟩
      · show Line.IsBare "Kq"
        decide
      · show Line.IsBare "]\x7d"
        decide
    all_goals exact ⟨rfl, by decide, trivial⟩
  have hencoded : Feed.ofBytes (Instruction.encodeAll spelt) = named := rfl
  obtain ⟨after, hnamed⟩ := exists_yields_encodeAll hwritable
  rw [hencoded] at hnamed
  -- Read byte by byte, since it is the version zero decoder that has to read it.
  have hlisted : Yields ⟨Source.ofFeed listed, 0, false⟩
      ([⟨.mark, ()⟩, ⟨.pushNone, ()⟩, ⟨.list, ()⟩] ++ [⟨.stop, ()⟩])
      ⟨⟨Feed.ofBytes [], 4, [], []⟩, 0, false⟩ :=
    .cons rfl (.cons rfl (.cons rfl (.cons rfl (.nil _))))
  obtain ⟨first, version, source, hfirst, hinfer, hversion⟩ :=
    (inferVersion_of_yields named _ _ [⟨.global, ⟨"Kq", "]\x7d"⟩⟩, ⟨.emptyTuple, ()⟩, ⟨.reduce, ()⟩]
      hnamed).1 rfl
  obtain ⟨hzero, hload⟩ := (inferVersion_of_yields listed _ _ _ hlisted).2 rfl
  have htelling : first = ⟨.emptyTuple, ()⟩ := by
    cases hfirst
    rfl
  rw [htelling] at hversion
  exact ⟨⟨version, source, hinfer, hversion⟩, hzero, hload rfl {}⟩

end Decoder

end Pickle
