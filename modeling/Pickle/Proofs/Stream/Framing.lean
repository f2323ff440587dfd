import Pickle.Proofs.Stream.RoundTrip
import Pickle.Proofs.Stream.Window

/-!
# Frames and what they hold

Frames say how a pickle may be read ahead and nothing else.  `Decoder.IsFraming` describes the ways
of putting runs of whole instructions into frames, and frames into frames; whichever is chosen, the
instructions come out as they went in.  The induction is on the way of framing.  What carries it is
a window that begins with the framed bytes (`IsFraming.yields`): an instruction hands out its bytes,
and entering a frame makes the bytes of the frame the whole window, so that the frame is exhausted
just when the run that it holds has been read.

A frame that ends inside an instruction ends the reading there (`instruction_of_cut`): the argument
depends on the window alone, and its window is too short.
-/

namespace Pickle

open Source

/-! ## Instructions from windows -/

namespace Source

/-- A source without the frames that are exhausted, unless bytes are put back. -/
def settled (source : Source) : Source :=
  if source.pushback.isEmpty then
    { source with frames := source.frames.dropWhile List.isEmpty }
  else source

variable {source : Source}

theorem leaveExhaustedFrames_eq (source : Source) :
    ∃ count, Read.leaveExhaustedFrames source = .ok count source.settled := by
  unfold Read.leaveExhaustedFrames settled
  split
  · exact ⟨_, rfl⟩
  · exact ⟨0, rfl⟩

/-- Bytes to read keep the innermost frame. -/
theorem settled_of_window (h : source.window ≠ []) : source.settled = source := by
  obtain ⟨feed, position, pushback, frames⟩ := source
  unfold settled
  cases pushback with
  | cons head others => rfl
  | nil =>
    cases frames with
    | nil => rfl
    | cons frame outer =>
      cases frame with
      | nil => exact absurd rfl h
      | cons head left => rfl

theorem pushback_settled (source : Source) : source.settled.pushback = source.pushback := by
  unfold settled
  split
  · rfl
  · rfl

theorem position_settled (source : Source) : source.settled.position = source.position := by
  unfold settled
  split
  · rfl
  · rfl

theorem settled_of_frames (h : source.frames = []) : source.settled = source := by
  unfold settled
  split
  · rw [h]
    exact congrArg (Source.mk _ _ _) h.symm
  · rfl

/-- What a window holds beyond the bytes handed out is the window then. -/
theorem HandsOut.window_eq {after : Source} {taken tail : Bytes} (h : source.HandsOut taken after)
    (hwindow : source.window = taken ++ tail) : after.window = tail := by
  rw [h.window] at hwindow
  exact List.append_cancel_left hwindow

/-- What has been read in a frame leaves everything around the frame as it was. -/
theorem HandsOut.frames {after : Source} {taken frame : Bytes} {outer : List Bytes}
    (h : source.HandsOut taken after) (hpushback : source.pushback = [])
    (hframes : source.frames = frame :: outer) :
    ∃ left, frame = taken ++ left ∧ after.pushback = [] ∧ after.frames = left :: outer ∧
      after.feed.bytes = source.feed.bytes := by
  have hafter := h.pushback_eq_nil hpushback
  have hwindow := h.window
  have hbeyond := h.beyond
  obtain ⟨feed, position, pushback, frames⟩ := after
  obtain rfl : pushback = [] := hafter
  simp only [Source.window, Source.beyond, hpushback, hframes, List.nil_append,
    List.headD_cons] at hwindow hbeyond
  cases frames with
  | nil => simp at hbeyond
  | cons left outer' =>
    obtain ⟨rfl, hfeed⟩ := List.append_inj' hbeyond rfl
    exact ⟨left, hwindow, rfl, rfl, (List.cons.inj hfeed).1⟩

/-- Once all of a frame has been read, leaving it gives back what was around it. -/
theorem HandsOut.leave {middle inside : Source} {taken body : Bytes} {start : ℕ}
    (h : source.HandsOut taken middle) (hmiddle : middle.pushback = [])
    (hinside : HandsOut ⟨middle.feed, start, [], body :: middle.frames⟩ body inside)
    (hstart : start + body.length = source.position + taken.length) :
    ∃ outside, source.HandsOut taken outside ∧ inside.settled = outside.settled := by
  obtain ⟨left, hleft, hnone, hframes, hfeed⟩ := hinside.frames rfl rfl
  obtain rfl : left = [] := List.append_right_eq_self.1 hleft.symm
  refine ⟨⟨inside.feed, inside.position, [], middle.frames⟩, ⟨?_, ?_, ?_, ?_, ?_⟩, ?_⟩
  · rw [hinside.position, hstart]
  · rw [h.window]
    simp only [Source.window, hmiddle, hfeed]
  · rw [← h.beyond]
    simp only [Source.beyond, hfeed]
  · exact hinside.ending.trans h.ending
  · rw [← h.pushback, hmiddle]
  · obtain ⟨feed, position, pushback, frames⟩ := inside
    obtain rfl : pushback = [] := hnone
    obtain rfl : frames = [] :: middle.frames := hframes
    rfl

namespace Read

variable {version : ℕ} {rest : Source} {instruction : Instruction}

/-- Reading an instruction finds the end of the bytes, or an opcode and the argument behind it. -/
theorem instruction_cases {instruction? : Option Instruction}
    (h : Read.instruction version source = .ok instruction? rest) :
    (instruction? = none ∧ nextByte source = .ok none rest) ∨
      ∃ byte middle after opcode argument, nextByte source = .ok (some byte) middle ∧
        Opcode.decode? byte version = some opcode ∧
        opcode.layout.read middle = .ok argument after ∧
        instruction? = some ⟨opcode, argument⟩ ∧ rest = after.settled := by
  obtain ⟨start, _, hstart, hnext⟩ := bind_eq_ok h
  cases hstart
  obtain ⟨byte?, middle, hbyte, hread⟩ := bind_eq_ok hnext
  cases byte? with
  | none =>
    cases hread
    exact .inl ⟨rfl, hbyte⟩
  | some byte =>
    cases hdecode : Opcode.decode? byte version with
    | none =>
      simp only [hdecode] at hread
      cases hread
    | some opcode =>
      simp only [hdecode] at hread
      obtain ⟨decoded, after, hargument, hdone⟩ := bind_eq_ok hread
      cases hdone
      obtain ⟨argument, inside, hlayout, hleave⟩ := bind_eq_ok hargument
      obtain ⟨count, outside, hsettle, hdone⟩ := bind_eq_ok hleave
      cases hdone
      obtain ⟨count', hsettle'⟩ := leaveExhaustedFrames_eq inside
      rw [hsettle'] at hsettle
      cases hsettle
      unfold mapError at hlayout
      split at hlayout
      · next hread =>
        cases hlayout
        exact .inr ⟨byte, middle, inside, opcode, argument, hbyte, hdecode, hread, rfl, rfl⟩
      · cases hlayout

/-- An instruction is the opcode of the next byte and the argument behind it. -/
theorem instruction_eq_ok (h : Read.instruction version source = .ok (some instruction) rest) :
    ∃ byte middle after, nextByte source = .ok (some byte) middle ∧
      Opcode.decode? byte version = some instruction.opcode ∧
      instruction.opcode.layout.read middle = .ok instruction.argument after ∧
      rest = after.settled := by
  obtain ⟨hnone, -⟩ | ⟨byte, middle, after, opcode, argument, hbyte, hdecode, hread, hsome, hrest⟩ :=
    instruction_cases h
  · cases hnone
  · cases hsome
    exact ⟨byte, middle, after, hbyte, hdecode, hread, hrest⟩

/-- There is no instruction only where there is no byte. -/
theorem nextByte_of_instruction (h : Read.instruction version source = .ok none rest) :
    nextByte source = .ok none rest := by
  obtain ⟨-, hbyte⟩ | ⟨_, _, _, _, _, _, _, _, hsome, _⟩ := instruction_cases h
  · exact hbyte
  · cases hsome

theorem instruction_of_argument {byte : UInt8} {middle after : Source} {opcode : Opcode}
    {argument : opcode.layout.Argument} (hbyte : nextByte source = .ok (some byte) middle)
    (hdecode : Opcode.decode? byte version = some opcode)
    (hread : opcode.layout.read middle = .ok argument after) :
    Read.instruction version source = .ok (some ⟨opcode, argument⟩) after.settled := by
  have hposition : Read.position source = .ok source.position source := rfl
  have hmap : mapError (.inArgument opcode) opcode.layout.read middle = .ok argument after := by
    rw [mapError, hread]
  obtain ⟨count, hsettle⟩ := leaveExhaustedFrames_eq after
  rw [Read.instruction, bind_of_eq_ok hposition, bind_of_eq_ok hbyte]
  simp only [hdecode]
  rw [Read.argument, bind_assoc, bind_of_eq_ok hmap, bind_assoc, bind_of_eq_ok hsettle]
  rfl

theorem instruction_of_argument_error {byte : UInt8} {middle after : Source} {opcode : Opcode}
    {error : StreamError} (hbyte : nextByte source = .ok (some byte) middle)
    (hdecode : Opcode.decode? byte version = some opcode)
    (hread : opcode.layout.read middle = .error error after) :
    Read.instruction version source = .error (error.inArgument opcode) after := by
  have hposition : Read.position source = .ok source.position source := rfl
  have hmap : mapError (.inArgument opcode) opcode.layout.read middle =
      .error (error.inArgument opcode) after := by rw [mapError, hread]
  rw [Read.instruction, bind_of_eq_ok hposition, bind_of_eq_ok hbyte]
  simp only [hdecode]
  rw [Read.argument, bind_assoc, bind_of_eq_error hmap]

/-- Where the window ends inside the argument, the instruction is cut. -/
theorem instruction_of_cut {byte : UInt8} {tail : Bytes} {opcode : Opcode}
    (hwindow : source.window = byte :: tail) (hdecode : Opcode.decode? byte version = some opcode)
    (hread : ∀ first, source.HandsOut [byte] first → ∃ after,
      opcode.layout.read first = .error (.malformed .unexpectedEnd after.position) after ∧
        first.HandsOut first.window after) :
    ∃ after, Read.instruction version source =
        .error (.malformed (.truncatedArgument opcode) after.position) after ∧
      source.HandsOut source.window after := by
  obtain ⟨first, hbyte, hfirst⟩ := nextByte_of_window hwindow
  obtain ⟨after, hrun, hafter⟩ := hread first hfirst
  refine ⟨after, instruction_of_argument_error hbyte hdecode hrun, ?_⟩
  rw [hfirst.window]
  exact hfirst.trans hafter

end Read

end Source

/-! ## Arguments from windows -/

/-- Whether all of some bytes are read as an argument in some source. -/
def Layout.Spells (layout : Layout) (bytes : Bytes) (argument : layout.Argument) : Prop :=
  ∃ source after : Source, source.Ends ∧ source.window = bytes ∧ after.window = [] ∧
    layout.read source = .ok argument after

namespace Layout

variable {layout : Layout} {bytes : Bytes} {argument : layout.Argument} {source : Source}

/-- What is read as an argument in one source is so wherever a window begins with it. -/
theorem Spells.read (h : layout.Spells bytes argument) (hframe : layout ≠ .frame)
    (hends : source.Ends) {tail : Bytes} (hwindow : source.window = bytes ++ tail) :
    ∃ after, layout.read source = .ok argument after ∧ source.HandsOut bytes after := by
  obtain ⟨model, modelAfter, hmodelEnds, rfl, hall, hrun⟩ := h
  have hbeside : Beside model.position source.position model source :=
    ⟨hmodelEnds, hends, ⟨tail, hwindow.symm⟩, Nat.add_comm ..⟩
  have hcoupled := Coupled.layout hframe hbeside
  rw [hrun] at hcoupled
  obtain ⟨taken, after, hread, hshort, hlong⟩ := hcoupled.of_ok
  have htaken := hshort.window
  rw [hall, List.append_nil] at htaken
  exact ⟨after, hread, htaken ▸ hlong⟩

/-- Fewer bytes are used up, and the end of the window is reported. -/
theorem Spells.read_cut (h : layout.Spells bytes argument) (hframe : layout ≠ .frame)
    (hends : source.Ends) (hwindow : source.window <+: bytes) (hne : source.window ≠ bytes) :
    ∃ after, layout.read source = .error (.malformed .unexpectedEnd after.position) after ∧
      source.HandsOut source.window after := by
  obtain ⟨model, modelAfter, hmodelEnds, rfl, hall, hrun⟩ := h
  have hbeside : Beside source.position model.position source model :=
    ⟨hends, hmodelEnds, hwindow, Nat.add_comm ..⟩
  have hcoupled := Coupled.layout hframe hbeside
  rw [hrun] at hcoupled
  generalize layout.read source = result at hcoupled ⊢
  cases hcoupled with
  | @ok taken _ _ value hshort hlong =>
    -- All bytes of the model are taken, and the shorter window would have to hold them.
    have htaken : model.window = taken := by rw [hlong.window, hall, List.append_nil]
    have hholds : model.window <+: source.window := ⟨_, htaken ▸ hshort.window.symm⟩
    exact absurd (hwindow.eq_of_length_le hholds.length_le) hne
  | ended hne hshort => exact ⟨_, rfl, hshort⟩

end Layout

/-! ## Lengths of frames -/

namespace Source

variable {source : Source} {count : UInt64} {tail : Bytes}

theorem length_write_frame (count : UInt64) : (Layout.frame.write count).length = 8 :=
  Word.length_toLittleEndian 8 count.toNat

theorem littleEndian_of_window (hwindow : source.window = Layout.frame.write count ++ tail) :
    ∃ after, Read.littleEndian 8 source = .ok count.toNat after ∧
      source.HandsOut (Layout.frame.write count) after := by
  have hlength := length_write_frame count
  have hle : 8 ≤ source.window.length := by
    rw [hwindow, List.length_append]
    omega
  obtain ⟨after, hrun, hafter⟩ := bytes_of_le hle
  have htake : source.window.take 8 = Layout.frame.write count := by
    rw [hwindow, ← hlength, List.take_left]
  rw [htake] at hrun hafter
  have hvalue : Word.ofLittleEndian (Layout.frame.write count) = count.toNat :=
    Word.ofLittleEndian_toLittleEndian count.toNat_lt
  refine ⟨after, ?_, hafter⟩
  rw [Read.littleEndian, Read.bind_of_eq_ok hrun, hvalue]
  rfl

/-- The bytes of an entered frame become the window, with all that was there around it. -/
theorem read_frame {body : Bytes} (hcount : body.length = count.toNat)
    (hpushback : source.pushback = [])
    (hwindow : source.window = Layout.frame.write count ++ (body ++ tail)) :
    ∃ middle, source.HandsOut (Layout.frame.write count ++ body) middle ∧
      Layout.frame.read source = .ok count
        ⟨middle.feed, source.position + 8, [], body :: middle.frames⟩ := by
  obtain ⟨first, hlength, hfirst⟩ := littleEndian_of_window hwindow
  have hrest : first.window = body ++ tail := hfirst.window_eq hwindow
  have hle : count.toNat ≤ first.window.length := by
    rw [hrest, List.length_append]
    omega
  obtain ⟨middle, hbody, hmiddle⟩ := bytes_of_le hle
  have htake : first.window.take count.toNat = body := by
    rw [hrest, ← hcount, List.take_left]
  rw [htake] at hbody hmiddle
  have hall := hfirst.trans hmiddle
  have hback : middle.position - body.length = source.position + 8 := by
    rw [hmiddle.position, hfirst.position, length_write_frame]
    omega
  have henter : Read.enterFrame count.toNat first =
      .ok () ⟨middle.feed, source.position + 8, [], body :: middle.frames⟩ := by
    rw [Read.enterFrame, Read.bind_of_eq_ok hbody, ← hback, ← hall.pushback_eq_nil hpushback]
    rfl
  refine ⟨middle, hall, ?_⟩
  rw [Layout.read, Read.bind_of_eq_ok hlength, Read.bind_of_eq_ok henter]
  show EStateM.Result.ok (UInt64.ofNat count.toNat) _ = _
  rw [UInt64.ofNat_toNat]

/-- A frame whose length, or whose bytes, the window does not hold as a whole cannot be entered. -/
theorem read_frame_cut {body : Bytes} (hcount : body.length = count.toNat) (hends : source.Ends)
    (hwindow : source.window <+: Layout.frame.write count ++ body)
    (hne : source.window ≠ Layout.frame.write count ++ body) :
    ∃ after, Layout.frame.read source = .error (.malformed .unexpectedEnd after.position) after ∧
      source.HandsOut source.window after := by
  have hlength := length_write_frame count
  -- Cut short is either the length of the frame or its body.
  by_cases hshort : source.window.length < 8
  · obtain ⟨after, hrun, hafter⟩ := bytes_of_lt hshort hends
    refine ⟨after, ?_, hafter⟩
    have hlittle : Read.littleEndian 8 source =
        .error (.malformed .unexpectedEnd after.position) after := Read.bind_of_eq_error hrun
    exact Read.bind_of_eq_error hlittle
  · obtain ⟨part, hpart⟩ : Layout.frame.write count <+: source.window :=
      List.prefix_of_prefix_length_le (List.prefix_append ..) hwindow (by omega)
    rw [← hpart] at hwindow hne
    have hfront : part <+: body := (List.prefix_append_right_inj _).1 hwindow
    have hpartNe : part ≠ body := fun heq => hne (heq ▸ rfl)
    have hlt : part.length < body.length :=
      lt_of_le_of_ne hfront.length_le fun heq => hpartNe (hfront.eq_of_length heq)
    obtain ⟨first, hlittle, hfirst⟩ := littleEndian_of_window hpart.symm
    have hrest : first.window = part := hfirst.window_eq hpart.symm
    have hshort : first.window.length < count.toNat := by
      rw [hrest]
      omega
    obtain ⟨after, hrun, hafter⟩ := bytes_of_lt hshort (hfirst.ends hends)
    refine ⟨after, ?_, ?_⟩
    · have henter : Read.enterFrame count.toNat first =
          .error (.malformed .unexpectedEnd after.position) after := Read.bind_of_eq_error hrun
      rw [Layout.read, Read.bind_of_eq_ok hlittle]
      exact Read.bind_of_eq_error henter
    · rw [hrest] at hafter
      rw [← hpart]
      exact hfirst.trans hafter

end Source

namespace Decoder

/-! ## Runs of instructions -/

/-- Whether a decoder gives some instructions, one after the other, and is another one then. -/
inductive Yields : Decoder → List Instruction → Decoder → Prop
  | nil (decoder : Decoder) : Yields decoder [] decoder
  | cons {decoder middle after : Decoder} {instruction : Instruction} {rest : List Instruction}
      (h : decoder.next = (.instruction instruction, middle)) (hrest : Yields middle rest after) :
      Yields decoder (instruction :: rest) after

theorem Yields.append {start middle after : Decoder} {first second : List Instruction}
    (hfirst : Yields start first middle) (hsecond : Yields middle second after) :
    Yields start (first ++ second) after := by
  induction hfirst with
  | nil => exact hsecond
  | cons h _ ih => exact .cons h (ih hsecond)

/-- Collecting succeeds where the instructions are followed by the end of the bytes. -/
theorem collect_eq_ok_iff {decoder : Decoder} {taken all : List Instruction} :
    decoder.collect taken = .ok all ↔
      ∃ program after last, decoder.Yields program after ∧ after.next = (.finished, last) ∧
        all = taken.reverse ++ program := by
  constructor
  · intro h
    fun_induction Decoder.collect decoder taken with
    | case1 decoder taken instruction after hnext ih =>
      obtain ⟨program, last, finish, hyields, hlast, rfl⟩ := ih h
      refine ⟨instruction :: program, last, finish, .cons hnext hyields, hlast, ?_⟩
      rw [List.reverse_cons, List.append_assoc, List.singleton_append]
    | case2 => cases h
    | case3 decoder taken after hnext =>
      cases h
      exact ⟨[], decoder, after, .nil decoder, hnext, (List.append_nil _).symm⟩
  · rintro ⟨program, after, last, hyields, hlast, rfl⟩
    induction hyields generalizing taken with
    | nil decoder => rw [collect_of_finished taken hlast, List.append_nil]
    | cons h _ ih =>
      rw [collect_of_instruction taken h, ih hlast, List.reverse_cons, List.append_assoc,
        List.singleton_append]

theorem next_of_instruction {source rest : Source} {version : ℕ} {instruction : Instruction}
    (h : Read.instruction version source = .ok (some instruction) rest) :
    next ⟨source, version, false⟩ = (.instruction instruction, ⟨rest, version, false⟩) := by
  rw [next, if_neg (by simp), h]

theorem instruction_of_next {source : Source} {version : ℕ} {instruction : Instruction}
    {after : Decoder} (h : next ⟨source, version, false⟩ = (.instruction instruction, after)) :
    Read.instruction version source = .ok (some instruction) after.source ∧
      after = ⟨after.source, version, false⟩ := by
  rw [next, if_neg (by simp)] at h
  split at h
  · next hrun =>
    cases h
    exact ⟨hrun, rfl⟩
  · cases h
  · cases h

/-- Instructions come to an end only where nothing is left to read. -/
theorem window_of_finished {source : Source} {version : ℕ} {after : Decoder}
    (h : next ⟨source, version, false⟩ = (.finished, after)) : source.window = [] := by
  rw [next, if_neg (by simp)] at h
  split at h
  · cases h
  · next hrun =>
    by_contra hne
    obtain ⟨head, tail, hwindow⟩ := List.exists_cons_of_ne_nil hne
    obtain ⟨rest, hbyte, -⟩ := nextByte_of_window hwindow
    rw [Read.nextByte_of_instruction hrun] at hbyte
    cases hbyte
  · cases h

/-- Where nothing is left to read, the bytes end cleanly. -/
theorem finished_of_window {source : Source} {version : ℕ} (h : source.window = [])
    (hends : source.Ends) :
    ∃ after, next ⟨source, version, false⟩ = (.finished, after) ∧
      (finish ⟨source, version, false⟩).1 = .ok () := by
  obtain ⟨rest, hbyte, -⟩ := nextByte_of_window_nil h hends
  have hrun : Read.instruction version source = .ok none rest := by
    have hposition : Read.position source = .ok source.position source := rfl
    rw [Read.instruction, Read.bind_of_eq_ok hposition, Read.bind_of_eq_ok hbyte]
    rfl
  have hend : Read.atEnd source = .ok () rest := by
    rw [Read.atEnd, Read.bind_of_eq_ok hbyte]
    rfl
  refine ⟨⟨rest, version, false⟩, ?_, ?_⟩
  · rw [next, if_neg (by simp), hrun]
  · rw [finish, hend]

/-! ## Spellings -/

/-- Whether some bytes, on their own, are decoded to one instruction that is no frame.  An
instruction may have many spellings; its encoding is one (`isSpelling_encode`). -/
structure IsSpelling (version : UInt8) (bytes : Bytes) (instruction : Instruction) : Prop where
  notFrame : instruction.opcode ≠ .frame
  decoded : decodeAll (Feed.ofBytes bytes) (some version) = .ok [instruction]

theorem isSpelling_encode {version : UInt8} (hversion : version.toNat ≤ Opcode.highestVersion)
    {instruction : Instruction} (h : IsWritable version.toNat instruction) :
    IsSpelling version instruction.encode instruction where
  notFrame := h.2.1
  decoded := by
    have hat : (Source.ofFeed (Feed.ofBytes instruction.encode)).IsAt .finished 0
        (Instruction.encodeAll [instruction]) := by
      have hfeed := isAt_ofFeed (Feed.ofBytes instruction.encode)
      rw [Feed.bytes_ofBytes] at hfeed
      rwa [Instruction.encodeAll_cons, Instruction.encodeAll_nil, List.append_nil]
    have hprogram : ∀ other ∈ [instruction], IsWritable version.toNat other := by
      rintro other hother
      obtain rfl := List.mem_singleton.1 hother
      exact h
    rw [decodeAll, ofFeed_eq_ok hversion]
    exact collect_of_isAt hprogram hat []

/-- Behind the opcode, a spelling spells the argument. -/
theorem IsSpelling.argument {version : UInt8} {bytes : Bytes} {instruction : Instruction}
    (h : IsSpelling version bytes instruction) :
    ∃ byte tail, bytes = byte :: tail ∧
      Opcode.decode? byte version.toNat = some instruction.opcode ∧
      instruction.opcode.layout.Spells tail instruction.argument := by
  have hlayout := Opcode.layout_ne_frame h.notFrame
  have hdecoded := h.decoded
  by_cases hversion : version.toNat ≤ Opcode.highestVersion
  · rw [decodeAll, ofFeed_eq_ok hversion] at hdecoded
    obtain ⟨program, after, last, hyields, hlast, hprogram⟩ := collect_eq_ok_iff.1 hdecoded
    obtain rfl : program = [instruction] := hprogram.symm
    cases hyields with
    | cons hnext hrest =>
      cases hrest
      obtain ⟨hrun, hafter⟩ := instruction_of_next hnext
      obtain ⟨byte, middle, inside, hbyte, hdecode, hread, hsettled⟩ :=
        Read.instruction_eq_ok hrun
      rw [hafter, hsettled] at hlast
      have hwindow : (Source.ofFeed (Feed.ofBytes bytes)).window = bytes := Feed.bytes_ofBytes bytes
      have hends : (Source.ofFeed (Feed.ofBytes bytes)).Ends := .inr rfl
      -- Something was read, so there is a first byte to it.
      cases bytes with
      | nil =>
        obtain ⟨rest, hnone, -⟩ := nextByte_of_window_nil hwindow hends
        rw [hnone] at hbyte
        cases hbyte
      | cons head tail =>
        obtain ⟨rest, hsome, hrest⟩ := nextByte_of_window hwindow
        rw [hsome] at hbyte
        cases hbyte
        refine ⟨byte, tail, rfl, hdecode, middle, inside, hrest.ends hends, ?_, ?_, hread⟩
        · rw [hrest.window] at hwindow
          exact (List.cons.inj hwindow).2
        · by_contra hne
          rw [settled_of_window hne] at hlast
          exact hne (window_of_finished hlast)
  · rw [decodeAll, ofFeed, ofSource, if_neg hversion] at hdecoded
    cases hdecoded

/-- A window that begins with a spelling gives the instruction. -/
theorem IsSpelling.instruction {version : UInt8} {bytes : Bytes} {instruction : Instruction}
    (h : IsSpelling version bytes instruction) {source : Source} (hends : source.Ends)
    {tail : Bytes} (hwindow : source.window = bytes ++ tail) :
    ∃ after, source.HandsOut bytes after ∧
      Read.instruction version.toNat source = .ok (some instruction) after.settled := by
  obtain ⟨byte, inside, rfl, hdecode, hspells⟩ := h.argument
  have hlayout := Opcode.layout_ne_frame h.notFrame
  obtain ⟨first, hbyte, hfirst⟩ := nextByte_of_window hwindow
  obtain ⟨after, hread, hafter⟩ :=
    hspells.read hlayout (hfirst.ends hends) (hfirst.window_eq hwindow)
  exact ⟨after, hfirst.trans hafter, Read.instruction_of_argument hbyte hdecode hread⟩

/-- A window that ends inside a spelling is used up, and its end is reported as one inside the
argument. -/
theorem IsSpelling.instruction_of_cut {version : UInt8} {bytes : Bytes} {instruction : Instruction}
    (h : IsSpelling version bytes instruction) {source : Source} (hends : source.Ends)
    (hnil : source.window ≠ []) (hwindow : source.window <+: bytes) (hne : source.window ≠ bytes) :
    ∃ after, Read.instruction version.toNat source =
        .error (.malformed (.truncatedArgument instruction.opcode) after.position) after ∧
      source.HandsOut source.window after := by
  obtain ⟨byte, inside, rfl, hdecode, hspells⟩ := h.argument
  obtain ⟨head, cut, hcut⟩ := List.exists_cons_of_ne_nil hnil
  rw [hcut] at hwindow hne
  obtain ⟨rfl, hinside⟩ := List.cons_prefix_cons.1 hwindow
  refine Read.instruction_of_cut hcut hdecode fun first hfirst => ?_
  obtain rfl : first.window = cut := hfirst.window_eq hcut
  exact hspells.read_cut (Opcode.layout_ne_frame h.notFrame) (hfirst.ends hends) hinside
    fun heq => hne (heq ▸ rfl)

/-! ## Framed programs -/

/-- The ways of putting a program into frames.  The first index has the spellings of the instructions
without frames, the second one the framed bytes, and the third one the instructions with the frames
among them.  Any run of whole instructions may stand in a frame, with frames around parts of it,
and a run may be empty. -/
inductive IsFraming (version : UInt8) :
    List (Bytes × Instruction) → Bytes → List Instruction → Prop
  | nil : IsFraming version [] [] []
  | instruction {bytes framed : Bytes} {instruction : Instruction}
      {plain : List (Bytes × Instruction)} {program : List Instruction}
      (h : IsSpelling version bytes instruction) (hrest : IsFraming version plain framed program) :
      IsFraming version ((bytes, instruction) :: plain) (bytes ++ framed) (instruction :: program)
  | frame {body framed : Bytes} {held plain : List (Bytes × Instruction)}
      {inside program : List Instruction} (count : UInt64) (hcount : body.length = count.toNat)
      (hbody : IsFraming version held body inside)
      (hrest : IsFraming version plain framed program) :
      IsFraming version (held ++ plain)
        ((⟨.frame, count⟩ : Instruction).encode ++ (body ++ framed))
        (⟨.frame, count⟩ :: (inside ++ program))

theorem decode?_frame {version : ℕ} (h : 4 ≤ version) :
    Opcode.decode? Opcode.frame.byte version = some .frame := by
  have hlegal : Opcode.frame.isLegal version = true := decide_eq_true h
  rw [Opcode.decode?, Opcode.ofByte?_byte]
  exact Option.filter_some_pos hlegal

namespace IsFraming

variable {version : UInt8} {plain others : List (Bytes × Instruction)} {framed more : Bytes}
  {program rest : List Instruction}

theorem append (h : IsFraming version plain framed program)
    (hmore : IsFraming version others more rest) :
    IsFraming version (plain ++ others) (framed ++ more) (program ++ rest) := by
  induction h with
  | nil => exact hmore
  | instruction h _ ih =>
    rw [List.append_assoc]
    exact .instruction h ih
  | frame count hcount hbody _ _ ih =>
    rw [List.append_assoc, List.append_assoc, List.append_assoc, List.cons_append,
      List.append_assoc]
    exact .frame count hcount hbody ih

/-- The program without frames is one way. -/
theorem unframed (h : IsFraming version plain framed program) :
    IsFraming version plain (plain.flatMap Prod.fst) (plain.map Prod.snd) := by
  induction h with
  | nil => exact .nil
  | instruction h _ ih => exact .instruction h ih
  | frame count hcount hbody hrest ihbody ihrest =>
    rw [List.flatMap_append, List.map_append]
    exact ihbody.append ihrest

/-- Apart from frames, the instructions are those of the program. -/
theorem filter_notFrame (h : IsFraming version plain framed program) :
    program.filter (fun instruction => instruction.opcode ≠ .frame) = plain.map Prod.snd := by
  induction h with
  | nil => rfl
  | instruction h _ ih =>
    rw [List.filter_cons_of_pos (by simpa using h.notFrame), ih, List.map_cons]
  | frame count hcount hbody hrest ihbody ihrest =>
    rw [List.filter_cons_of_neg (by simp), List.filter_append, ihbody, ihrest, List.map_append]

/-- A window that begins with framed bytes gives the instructions, and hands out just these bytes.
Frames that are exhausted on the way are left. -/
theorem yields (h : IsFraming version plain framed program) (hlegal : 4 ≤ version.toNat)
    {source : Source} (hends : source.Ends) (hpushback : source.pushback = []) {tail : Bytes}
    (hwindow : source.window = framed ++ tail) :
    ∃ after, source.HandsOut framed after ∧
      Yields ⟨source.settled, version.toNat, false⟩ program
        ⟨after.settled, version.toNat, false⟩ := by
  induction h generalizing source tail with
  | nil => exact ⟨source, .refl source, .nil _⟩
  | @instruction bytes framed instruction plain program h _ ih =>
    rw [List.append_assoc] at hwindow
    obtain ⟨middle, hmiddle, hrun⟩ := h.instruction hends hwindow
    obtain ⟨after, hafter, hyields⟩ := ih (hmiddle.ends hends)
      (hmiddle.pushback_eq_nil hpushback) (hmiddle.window_eq hwindow)
    obtain ⟨byte, inside, rfl, -⟩ := h.argument
    refine ⟨after, hmiddle.trans hafter, ?_⟩
    rw [settled_of_window (by simp [hwindow])]
    exact .cons (next_of_instruction hrun) hyields
  | @frame body framed held plain inside program count hcount _ _ ihbody ihrest =>
    have hencode : (⟨.frame, count⟩ : Instruction).encode =
        Opcode.frame.byte :: Layout.frame.write count := rfl
    rw [hencode, List.cons_append, List.cons_append] at hwindow
    obtain ⟨first, hbyte, hfirst⟩ := nextByte_of_window hwindow
    have hfirstPushback := hfirst.pushback_eq_nil hpushback
    rw [List.append_assoc, List.append_assoc] at hwindow
    have hfirstWindow : first.window =
        Layout.frame.write count ++ (body ++ (framed ++ tail)) := hfirst.window_eq hwindow
    obtain ⟨middle, hmiddle, hread⟩ := read_frame hcount hfirstPushback hfirstWindow
    have hrun := Read.instruction_of_argument hbyte (decode?_frame hlegal) hread
    let entered : Source := ⟨middle.feed, first.position + 8, [], body :: middle.frames⟩
    have hentered : entered.window = body ++ [] := by simp [entered, Source.window]
    -- The body is read to the end of its frame, and the rest from where the frame ends.
    obtain ⟨insideAfter, hinside, hyieldsInside⟩ := ihbody (.inl (by simp [entered])) rfl hentered
    have hstart : first.position + 8 + body.length =
        first.position + (Layout.frame.write count ++ body).length := by
      rw [List.length_append, length_write_frame, Nat.add_assoc]
    obtain ⟨outside, houtside, hsettled⟩ :=
      hmiddle.leave (hmiddle.pushback_eq_nil hfirstPushback) hinside hstart
    rw [← List.append_assoc] at hfirstWindow
    have hrest : outside.window = framed ++ tail := houtside.window_eq hfirstWindow
    have htaken := hfirst.trans houtside
    obtain ⟨after, hafter, hyields⟩ :=
      ihrest (htaken.ends hends) (htaken.pushback_eq_nil hpushback) hrest
    refine ⟨after, ?_, ?_⟩
    · have hall := htaken.trans hafter
      rw [List.append_assoc, List.append_assoc] at hall
      exact hall
    · rw [settled_of_window (by simp [hwindow])]
      rw [hsettled] at hyieldsInside
      exact .cons (next_of_instruction hrun) (hyieldsInside.append hyields)

/-- Framed bytes that are a whole feed give the instructions and then come to their end. -/
theorem exists_yields {feed : Feed} (h : IsFraming version plain framed program)
    (hlegal : 4 ≤ version.toNat) (hbytes : feed.bytes = framed) (hending : feed.ending = .finished) :
    ∃ after last, Yields ⟨Source.ofFeed feed, version.toNat, false⟩ program after ∧
      after.next = (.finished, last) ∧ after.finish.1 = .ok () := by
  subst hbytes
  have hstart : (Source.ofFeed feed).window = feed.bytes ++ [] := (List.append_nil _).symm
  obtain ⟨after, hafter, hyields⟩ := h.yields hlegal (.inr hending) rfl hstart
  have hwindow : after.window = [] := List.append_right_eq_self.1 hafter.window.symm
  rw [settled_of_frames (hafter.frames_eq_nil.2 rfl)] at hyields
  obtain ⟨last, hlast, hfinish⟩ :=
    @finished_of_window after version.toNat hwindow (hafter.ends (.inr hending))
  exact ⟨_, last, hyields, hlast, hfinish⟩

end IsFraming

/-! ## Frames that end too early -/

/-- The bytes that a decoder needs for an instruction: its spelling, or for a frame the encoding
and all that the frame holds. -/
inductive IsWhole (version : UInt8) : Bytes → Instruction → Prop
  | spelling {bytes : Bytes} {instruction : Instruction}
      (h : IsSpelling version bytes instruction) : IsWhole version bytes instruction
  | frame {body : Bytes} (count : UInt64) (hcount : body.length = count.toNat) :
      IsWhole version ((⟨.frame, count⟩ : Instruction).encode ++ body) ⟨.frame, count⟩

/-- A window that ends inside an instruction is used up, and its end is reported as one inside the
argument. -/
theorem IsWhole.instruction_of_cut {version : UInt8} {bytes : Bytes} {instruction : Instruction}
    (h : IsWhole version bytes instruction) (hlegal : 4 ≤ version.toNat) {source : Source}
    (hends : source.Ends) (hnil : source.window ≠ []) (hwindow : source.window <+: bytes)
    (hne : source.window ≠ bytes) :
    ∃ after, Read.instruction version.toNat source =
        .error (.malformed (.truncatedArgument instruction.opcode) after.position) after ∧
      source.HandsOut source.window after := by
  cases h with
  | spelling h => exact h.instruction_of_cut hends hnil hwindow hne
  | @frame body count hcount =>
    have hencode : (⟨.frame, count⟩ : Instruction).encode ++ body =
        Opcode.frame.byte :: (Layout.frame.write count ++ body) := rfl
    obtain ⟨head, cut, hcut⟩ := List.exists_cons_of_ne_nil hnil
    rw [hencode, hcut] at hwindow hne
    obtain ⟨rfl, hinside⟩ := List.cons_prefix_cons.1 hwindow
    refine Read.instruction_of_cut hcut (decode?_frame hlegal) fun first hfirst => ?_
    obtain rfl : first.window = cut := hfirst.window_eq hcut
    exact read_frame_cut hcount (hfirst.ends hends) hinside fun heq => hne (heq ▸ rfl)

/-- Frames are transparent, whatever runs of whole instructions they hold and however they are
nested.  The framed bytes are decoded to the program with frames among its instructions, and the
bytes without frames to the program alone; both times the bytes end cleanly.

A frame that ends inside an instruction, on the other hand, is the end of the reading, at any point
of the work of a decoder.  What is left of the frame is used up, its end is reported as one inside
the argument of the instruction, and all bytes beyond the frame are left as they were. -/
theorem frames_transparent (version : UInt8) (hlegal : 4 ≤ version.toNat)
    (hversion : version.toNat ≤ Opcode.highestVersion) :
    (∀ feed plain framed program, IsFraming version plain framed program →
      feed.bytes = framed → feed.ending = .finished →
        decodeAll feed (some version) = .ok program ∧
        program.filter (fun instruction => instruction.opcode ≠ .frame) = plain.map Prod.snd ∧
        (∃ start after, ofFeed feed (some version) = .ok start ∧ start.Yields program after ∧
          after.finish.1 = .ok ()) ∧
        ∀ unframed : Feed, unframed.bytes = plain.flatMap Prod.fst → unframed.ending = .finished →
          decodeAll unframed (some version) = .ok (plain.map Prod.snd)) ∧
    ∀ feed start decoder bytes instruction cut outer,
      ofFeed feed (some version) = .ok start → start.Reaches decoder → decoder.failed = false →
      decoder.source.frames = cut :: outer → IsWhole version bytes instruction →
      cut ≠ [] → cut <+: bytes → cut ≠ bytes →
        ∃ after, decoder.next =
            (.error (.malformed (.truncatedArgument instruction.opcode)
              (decoder.position + cut.length)), after) ∧
          after.source.frames = [] :: outer ∧
          after.source.feed.bytes = decoder.source.feed.bytes ∧
          after.next = (.finished, after) := by
  have hall : ∀ feed plain framed program, IsFraming version plain framed program →
      feed.bytes = framed → feed.ending = .finished →
        decodeAll feed (some version) = .ok program := by
    intro feed plain framed program h hbytes hending
    obtain ⟨after, last, hyields, hlast, -⟩ := h.exists_yields hlegal hbytes hending
    rw [decodeAll, ofFeed_eq_ok hversion]
    exact collect_eq_ok_iff.2 ⟨program, after, last, hyields, hlast, rfl⟩
  refine ⟨?_, ?_⟩
  · intro feed plain framed program h hbytes hending
    obtain ⟨after, last, hyields, -, hfinish⟩ := h.exists_yields hlegal hbytes hending
    refine ⟨hall feed plain framed program h hbytes hending, h.filter_notFrame,
      ⟨_, after, ofFeed_eq_ok hversion, hyields, hfinish⟩, ?_⟩
    intro unframed hunframed hunframedEnding
    exact hall unframed plain _ _ h.unframed hunframed hunframedEnding
  · intro feed start decoder bytes instruction cut outer hstart hreaches hfailed hframes hwhole
      hnil hcut hne
    have htracking := (isTracking_ofFeed hstart).reaches hreaches
    -- Between instructions nothing is put back, so the window is what is left of the frame.
    have hpushback := htracking.pushback hfailed
    have hwindow : decoder.source.window = cut := by simp [Source.window, hpushback, hframes]
    have hends : decoder.source.Ends := .inl (by simp [hframes])
    obtain ⟨rest, hrun, hrest⟩ := hwhole.instruction_of_cut hlegal hends (hwindow ▸ hnil)
      (hwindow ▸ hcut) (hwindow ▸ hne)
    obtain ⟨left, hleft, -, hrestFrames, hfeed⟩ := hrest.frames hpushback hframes
    rw [hwindow] at hleft
    obtain rfl : left = [] := List.append_right_eq_self.1 hleft.symm
    refine ⟨⟨rest, decoder.version, true⟩, ?_, hrestFrames, hfeed, ?_⟩
    · have hposition := hrest.position
      rw [hwindow] at hposition
      rw [next, if_neg (by simp [hfailed]), htracking.version, hrun, hposition]
      rfl
    · rw [next, if_pos rfl]

/-- A frame that holds nothing but another one, and a frame that ends inside a text. -/
theorem frames_transparent_version_four :
    let none : Instruction := ⟨.pushNone, ()⟩
    let inner : Instruction := ⟨.frame, (1 : UInt64)⟩
    let outer : Instruction := ⟨.frame, (10 : UInt64)⟩
    let text : Instruction := ⟨.shortBinUnicode, ⟨3, "abc"⟩⟩
    let short : Instruction := ⟨.frame, (3 : UInt64)⟩
    (4 ≤ (4 : UInt8).toNat ∧ (4 : UInt8).toNat ≤ Opcode.highestVersion) ∧
      decodeAll (Feed.ofBytes (outer.encode ++ (inner.encode ++ none.encode))) (some 4) =
        .ok [outer, inner, none] ∧
      ∃ start after, ofFeed (Feed.ofBytes (short.encode ++ text.encode)) (some 4) = .ok start ∧
        start.next.2.next =
          (.error (.malformed (.truncatedArgument .shortBinUnicode) 12), after) ∧
        after.source.feed.bytes = [0x62, 0x63] := by
  intro none inner outer text short
  have hlegal : 4 ≤ (4 : UInt8).toNat := by decide
  have hversion : (4 : UInt8).toNat ≤ Opcode.highestVersion := by decide
  obtain ⟨htransparent, hcut⟩ := frames_transparent 4 hlegal hversion
  refine ⟨⟨hlegal, hversion⟩, ?_, ?_⟩
  · have hnone : IsSpelling 4 none.encode none :=
      isSpelling_encode hversion ⟨rfl, by decide, trivial⟩
    have hinner : IsFraming 4 [(none.encode, none)] (inner.encode ++ none.encode) [inner, none] :=
      .frame 1 rfl (.instruction hnone .nil) .nil
    have houter : IsFraming 4 [(none.encode, none)]
        (outer.encode ++ (inner.encode ++ none.encode)) [outer, inner, none] :=
      .frame 10 rfl hinner .nil
    exact (htransparent _ _ _ _ houter (Feed.bytes_ofBytes _) rfl).1
  · have htext : IsSpelling 4 text.encode text :=
      isSpelling_encode hversion ⟨rfl, by decide, by decide, by decide⟩
    let start : Decoder := ⟨Source.ofFeed (Feed.ofBytes (short.encode ++ text.encode)), 4, false⟩
    have hstart : ofFeed (Feed.ofBytes (short.encode ++ text.encode)) (some 4) = .ok start :=
      ofFeed_eq_ok hversion
    have hfailed : start.next.2.failed = false := by decide
    have hframes : start.next.2.source.frames = [[0x8c, 3, 0x61]] := by decide
    have hposition : start.next.2.position = 9 := by decide
    have hrest : start.next.2.source.feed.bytes = [0x62, 0x63] := by decide
    obtain ⟨after, hnext, -, hfeed, -⟩ := hcut _ start start.next.2 text.encode text _ _ hstart
      (.next .refl) hfailed hframes (.spelling htext) (by simp) ⟨[0x62, 0x63], by decide⟩
      (by decide)
    rw [hposition] at hnext
    exact ⟨start, after, hstart, hnext, hfeed.trans hrest⟩

end Decoder

end Pickle
