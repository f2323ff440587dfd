import Mathlib
import Pickle.Proofs.Stream.Reports

/-!
# Where faults stand

A fault of a pickle comes with an offset, and the bytes at this offset bear it out: there stands the
byte that is no opcode or no digit, the backslash of the escape, the line, the length or the text at
fault, or else the bytes end there.

What an instruction is at fault with is known as a distance in the window of the decoder
(`InstructionFaults`).  It becomes an offset in the input since the window is always a part of the
input that begins at the offset of the decoder (`Decoder.IsSited`).  Neither frames nor a look ahead
change that: an entered frame holds the next bytes of the input, bytes that were put back are the
next ones again, and no frame is entered while there are any of these.
-/

namespace Pickle

open Source

namespace Source

/-! ## Windows in the input -/

variable {source after : Source} {taken : Bytes}

/-- The window and what lies beyond it are all bytes to come. -/
theorem window_append_beyond (source : Source) :
    source.window ++ source.beyond.flatten = source.pushback ++ source.pending := by
  obtain ⟨feed, position, pushback, frames⟩ := source
  cases frames with
  | nil => simp [window, beyond, pending]
  | cons frame outer => simp [window, beyond, pending]

theorem HandsOut.pending_eq (h : source.HandsOut taken after) :
    source.pushback ++ source.pending = taken ++ (after.pushback ++ after.pending) := by
  rw [← window_append_beyond, ← window_append_beyond, h.window, h.beyond, List.append_assoc]

/-- Outside frames, an instruction that is no frame is taken from the window. -/
theorem handsOut_of_instruction {version : ℕ} {instruction? : Option Instruction}
    (hframes : source.frames = [])
    (hframe : ∀ byte middle, Read.nextByte source = .ok (some byte) middle →
      Opcode.decode? byte version ≠ some .frame)
    (hrun : Read.instruction version source = .ok instruction? after) :
    ∃ taken, source.HandsOut taken after := by
  cases instruction? with
  | none => exact ⟨[], handsOut_of_nextByte (Read.nextByte_of_instruction hrun)⟩
  | some instruction =>
    obtain ⟨byte, middle, inside, hbyte, hdecode, hread, rfl⟩ := Read.instruction_eq_ok hrun
    have hopcode : instruction.opcode ≠ .frame :=
      fun heq => hframe byte middle hbyte (heq ▸ hdecode)
    have hargument := isArgument_read instruction.opcode.layout middle
    rw [hread] at hargument
    cases hargument with
    | ok hinside =>
      obtain ⟨taken, htaken⟩ := hinside (Opcode.layout_ne_frame hopcode)
      have hall := (handsOut_of_nextByte hbyte).trans htaken
      rw [settled_of_frames (hall.frames_eq_nil.2 hframes)]
      exact ⟨_, hall⟩

theorem Alike.pending_eq {other : Source} (h : source.Alike other) :
    source.pushback ++ source.pending = other.pushback ++ other.pending := by
  rw [← window_append_beyond, ← window_append_beyond, h.window, h.beyond]

end Source

namespace Decoder

variable {input : Bytes} {found : UInt8} {start decoder after : Decoder}

/-- Whether the bytes to come are those of the input from the offset of the decoder on, be they put
back after a look ahead, in frames or still with the feed.  No frame is entered before the bytes put
back are used up. -/
structure IsSited (input : Bytes) (found : UInt8) (decoder : Decoder) : Prop where
  version : decoder.version = found.toNat
  replay : decoder.failed = false → decoder.source.IsReplay found
  unmixed : decoder.failed = false → decoder.source.frames = [] ∨ decoder.source.pushback = []
  pending : decoder.failed = false →
    decoder.source.pushback ++ decoder.source.pending = input.drop decoder.position

theorem isSited_ofFeed {feed : Feed} {version? : Option UInt8}
    (h : ofFeed feed version? = .ok start) : ∃ found, IsSited feed.bytes found start := by
  unfold ofFeed ofSource at h
  cases version? with
  | some version =>
    dsimp only at h
    split at h
    · cases h
      exact ⟨version, rfl, fun _ => .inr (.inl rfl), fun _ => .inl rfl, fun _ => rfl⟩
    · cases h
  | none =>
    dsimp only at h
    split at h
    · next found source hinfer =>
      split at h
      · cases h
        obtain ⟨halike, htells⟩ := tells_of_inferVersion hinfer rfl
        refine ⟨found, rfl, fun _ => .inr (.inr htells), fun _ => .inl ?_, fun _ => ?_⟩
        · exact halike.frames_eq_nil.2 rfl
        · have hposition : source.position = 0 := halike.position
          show _ = feed.bytes.drop source.position
          rw [hposition]
          exact halike.pending_eq
      · cases h
    · cases h

namespace IsSited

/-- Handing out bytes keeps a source sited. -/
theorem of_handsOut {source rest : Source} {taken : Bytes}
    (h : source.pushback ++ source.pending = input.drop source.position)
    (hrest : source.HandsOut taken rest) :
    rest.pushback ++ rest.pending = input.drop rest.position := by
  rw [hrest.pending_eq] at h
  rw [hrest.position, ← List.drop_drop, ← h, List.drop_left]

/-- Reading an instruction keeps a decoder sited.  While bytes are put back, there is no frame. -/
theorem of_instruction (h : decoder.IsSited input found) (hfailed : decoder.failed = false)
    {instruction? : Option Instruction} {rest : Source}
    (hrun : Read.instruction decoder.version decoder.source = .ok instruction? rest) :
    ({ decoder with source := rest } : Decoder).IsSited input found := by
  rw [h.version] at hrun
  have hpending := h.pending hfailed
  suffices hrest : (rest.frames = [] ∨ rest.pushback = []) ∧
      rest.pushback ++ rest.pending = input.drop rest.position from
    ⟨h.version, fun _ => (h.replay hfailed).instruction hrun, fun _ => hrest.1, fun _ => hrest.2⟩
  by_cases hpushback : decoder.source.pushback = []
  · obtain ⟨hnone, taken, -, htaken, hposition⟩ := Takes.instruction _ hpushback hrun
    refine ⟨.inr hnone, ?_⟩
    rw [hpushback, List.nil_append, htaken] at hpending
    rw [hnone, List.nil_append, hposition, ← List.drop_drop]
    show _ = (input.drop decoder.position).drop taken.length
    rw [← hpending, List.drop_left]
  · have hframes := (h.unmixed hfailed).resolve_right hpushback
    obtain ⟨taken, htaken⟩ := handsOut_of_instruction hframes
      (fun byte middle hbyte hdecode =>
        hpushback ((h.replay hfailed).pushback_of_frame (handsOut_of_nextByte hbyte) hdecode)) hrun
    exact ⟨.inl (htaken.frames_eq_nil.2 hframes), of_handsOut hpending htaken⟩

theorem next (h : decoder.IsSited input found) : decoder.next.2.IsSited input found := by
  unfold Decoder.next
  by_cases hfailed : decoder.failed = true
  · rw [if_pos hfailed]
    exact h
  · rw [if_neg hfailed]
    have hfalse : decoder.failed = false := Bool.eq_false_iff.2 hfailed
    cases hrun : Read.instruction decoder.version decoder.source with
    | error error rest => exact ⟨h.version, nofun, nofun, nofun⟩
    | ok instruction? rest =>
      have hrest := h.of_instruction hfalse hrun
      cases instruction? with
      | none => exact hrest
      | some instruction => exact hrest

theorem reaches (h : start.IsSited input found) (hreaches : start.Reaches decoder) :
    decoder.IsSited input found := by
  induction hreaches with
  | refl => exact h
  | next _ ih => exact ih.next

/-- The window is a part of the input that begins at the offset of the decoder. -/
theorem window (h : decoder.IsSited input found) (hfailed : decoder.failed = false) :
    decoder.source.window <+: input.drop decoder.position := by
  rw [← h.pending hfailed, ← window_append_beyond]
  exact List.prefix_append ..

/-- The end of the window is the end of the innermost frame or of the input. -/
theorem end_of_window (h : decoder.IsSited input found) (hfailed : decoder.failed = false)
    (hwindow : decoder.source.window ≠ []) :
    (decoder.source.frames = [] →
      decoder.position + decoder.source.window.length = input.length) ∧
    ∀ frame outer, decoder.source.frames = frame :: outer →
      decoder.source.window.length = frame.length := by
  refine ⟨fun hframes => ?_, fun frame outer hframes => ?_⟩
  · have hpending := h.pending hfailed
    rw [← window_append_beyond, beyond_eq_nil.2 hframes, List.flatten_nil, List.append_nil]
      at hpending
    have hpos := List.length_pos_iff.2 hwindow
    rw [hpending, List.length_drop] at hpos ⊢
    omega
  · have hpushback := (h.unmixed hfailed).resolve_left (by simp [hframes])
    simp [Source.window, hpushback, hframes]

end IsSited

/-! ## Offsets in the input -/

/-- Whether the input bears a fault out at an offset, the decoder being the one that fails with it.

The byte that is no opcode, no digit, or the backslash of no escape stands at the offset.  A line is
at fault from its start on, which comes right behind the opcode; so does a length.  A text is at
fault from the start of its payload or of its line on, which may be the second one of a name.  An
argument that is cut ends with the source it is read from: the innermost frame, or the input. -/
def PointsAt (decoder : Decoder) (input : Bytes) (offset : ℕ) : Fault → Prop
  | .unknownOpcode byte version =>
    offset = decoder.position ∧ version = decoder.version ∧ input[offset]? = some byte
  | .nonNumeric _ byte =>
    decoder.position < offset ∧ input[offset]? = some byte ∧ Line.isDigit byte = false
  | .invalidEscape escape => decoder.position < offset ∧ 0x5c :: escape <+: input.drop offset
  | .missingQuote unquoted =>
    offset = decoder.position + 1 ∧
      ∃ ended, Line.IsEnded unquoted ended ∧ ended <+: input.drop offset
  | .invalidLiteral literal =>
    offset = decoder.position + 1 ∧ ∃ body ended, (literal = body ∨ literal ++ [0x4c] = body) ∧
      Line.IsEnded body ended ∧ ended <+: input.drop offset
  | .negativeLength =>
    offset = decoder.position + 1 ∧ ∃ (opcode : Opcode) (front : Bytes),
      (opcode = .binString ∨ opcode = .long4) ∧
      input[decoder.position]? = some opcode.byte ∧ front <+: input.drop offset ∧
      front.length = 4 ∧ Word.ofTwosComplement front < 0
  | .notUtf8 =>
    ∃ opcode : Opcode, input[decoder.position]? = some opcode.byte ∧
      ((∃ (field : LengthField) (payload : Bytes), opcode.layout = .text field ∧
          offset = decoder.position + 1 + field.width ∧ payload.length < field.bound ∧
          field.write payload.length ++ payload <+: input.drop (decoder.position + 1) ∧
          Utf8.decode payload = none) ∨
        (∃ body ended, offset = decoder.position + 1 ∧ Line.IsEnded body ended ∧
          ended <+: input.drop offset ∧ Utf8.decode body = none) ∨
        ∃ first firstEnded body ended, opcode.layout = .nameLines ∧
          offset = decoder.position + 1 + firstEnded.length ∧ Line.IsEnded first firstEnded ∧
          Line.IsEnded body ended ∧
          firstEnded ++ ended <+: input.drop (decoder.position + 1) ∧ Utf8.decode body = none)
  | .truncatedArgument opcode =>
    input[decoder.position]? = some opcode.byte ∧
      (decoder.source.frames = [] → offset = input.length) ∧
      ∀ frame outer, decoder.source.frames = frame :: outer →
        offset = decoder.position + frame.length
  | .unexpectedEnd | .unsupportedProtocol _ | .uninferableOpcode _ | .trailingBytes => False

/-- What a line bears out, the input does where the line is the argument. -/
theorem pointsAt_of_line {body ended : Bytes} {fault : Fault} {distance : ℕ}
    (hstarts : ended <+: input.drop (decoder.position + 1)) (hline : Line.IsEnded body ended)
    {opcode : Opcode} (hopcode : input[decoder.position]? = some opcode.byte)
    (h : LineFault.StandsIn ⟨fault, distance⟩ body) :
    decoder.PointsAt input (decoder.position + (1 + distance)) fault := by
  -- What ends a line stands behind its body, so distances in the body count in the input.
  have hbody : body <+: input.drop (decoder.position + 1) := by
    refine List.IsPrefix.trans ?_ hstarts
    rcases hline.2 with rfl | ⟨rfl, -⟩
    · exact List.prefix_append ..
    · exact List.prefix_append ..
  cases fault with
  | nonNumeric field byte =>
    obtain ⟨hget, hdigit⟩ := h
    refine ⟨by omega, ?_, hdigit⟩
    obtain ⟨rest, hrest⟩ := hbody
    rw [← Nat.add_assoc, ← List.getElem?_drop, ← hrest,
      List.getElem?_append_left (List.getElem?_eq_some_iff.1 hget).1]
    exact hget
  | invalidEscape escape =>
    refine ⟨by omega, ?_⟩
    rw [← Nat.add_assoc, ← List.drop_drop]
    exact List.IsPrefix.trans h (hbody.drop distance)
  | missingQuote unquoted =>
    obtain ⟨rfl, rfl⟩ := h
    exact ⟨rfl, ended, hline, hstarts⟩
  | invalidLiteral literal =>
    obtain ⟨rfl, hliteral⟩ := h
    exact ⟨rfl, body, ended, hliteral, hline, hstarts⟩
  | notUtf8 =>
    obtain ⟨rfl, hdecode⟩ := h
    exact ⟨opcode, hopcode, .inr (.inl ⟨body, ended, rfl, hline, hstarts, hdecode⟩)⟩
  | unknownOpcode | unexpectedEnd | truncatedArgument | unsupportedProtocol | uninferableOpcode |
    negativeLength | trailingBytes => exact h.elim

theorem eq_of_layout {opcode : Opcode}
    (h : opcode.layout = .bytes .i32 ∨ opcode.layout = .text .i32 ∨ opcode.layout = .integer .i32) :
    opcode = .binString ∨ opcode = .long4 := by
  cases opcode <;> simp [Opcode.layout] at h ⊢

/-- The faults of an instruction are borne out where the window of a decoder has it. -/
theorem IsSited.pointsAt (h : decoder.IsSited input found) (hfailed : decoder.failed = false)
    {fault : Fault} {distance : ℕ}
    (hfault : InstructionFaults decoder.version decoder.source.window fault distance) :
    decoder.PointsAt input (decoder.position + distance) fault := by
  obtain ⟨more, hmore⟩ := h.window hfailed
  -- The window is a part of the input, so its first byte stands at the position.
  have hfront : ∀ byte, decoder.source.window[0]? = some byte →
      decoder.source.window ≠ [] ∧ input[decoder.position]? = some byte := by
    intro byte hbyte
    obtain ⟨hlt, -⟩ := List.getElem?_eq_some_iff.1 hbyte
    have hget : (decoder.source.window ++ more)[0]? = decoder.source.window[0]? :=
      List.getElem?_append_left hlt
    rw [hmore, List.getElem?_drop, hbyte] at hget
    exact ⟨List.ne_nil_of_length_pos hlt, hget⟩
  cases hfault with
  | unknownOpcode hbyte => exact ⟨rfl, rfl, (hfront _ hbyte).2⟩
  | truncated hbyte =>
    obtain ⟨hwindow, hget⟩ := hfront _ hbyte
    obtain ⟨houtside, hinside⟩ := h.end_of_window hfailed hwindow
    exact ⟨hget, houtside, fun frame outer hframes => congrArg _ (hinside frame outer hframes)⟩
  | @argument opcode tail fault distance hwindow hend hfault =>
    have hbyte : decoder.source.window[0]? = some opcode.byte := by
      rw [hwindow]
      rfl
    have hopcode := (hfront _ hbyte).2
    have htail : tail <+: input.drop (decoder.position + 1) := by
      rw [← List.drop_drop, ← hmore, hwindow]
      exact List.prefix_append ..
    generalize hlayout : opcode.layout = layout at hfault
    cases hfault with
    | ended => exact absurd rfl hend
    | line hended hline hstands => exact pointsAt_of_line (hended.trans htail) hline hopcode hstands
    | @secondLine first firstEnded body ended hended hfirst hline hdecode =>
      refine ⟨opcode, hopcode, .inr (.inr ⟨first, firstEnded, body, ended, hlayout, ?_, hfirst,
        hline, hended.trans htail, hdecode⟩)⟩
      rw [Nat.add_assoc]
    | length hcounted hstarts hlength hnegative =>
      rw [← hlayout] at hcounted
      exact ⟨rfl, opcode, _, eq_of_layout hcounted, hopcode, hstarts.trans htail, hlength,
        hnegative⟩
    | @payload field payload hbound hpayload hdecode =>
      refine ⟨opcode, hopcode, .inl ⟨field, payload, hlayout, ?_, hbound, hpayload.trans htail,
        hdecode⟩⟩
      rw [Nat.add_assoc]

/-- The offsets of faults point at what is at fault.

A decoder of any feed, for a version that was given or found by the look ahead, may be asked for
instructions any number of times, in any nesting of frames.  If it fails because the bytes are no
pickle, then the input bears the fault out at the offset that comes with it.  That bytes end too
early is always said of the argument in which they do. -/
theorem fault_points_at_offset {feed : Feed} {version? : Option UInt8} {fault : Fault} {offset : ℕ}
    (hstart : ofFeed feed version? = .ok start) (hreaches : start.Reaches decoder)
    (hnext : decoder.next = (.error (.malformed fault offset), after)) :
    decoder.PointsAt feed.bytes offset fault := by
  obtain ⟨found, hsited⟩ := isSited_ofFeed hstart
  have hdecoder := hsited.reaches hreaches
  rw [Decoder.next] at hnext
  split at hnext
  · cases hnext
  · next hfailed =>
    have hreports := Reports.instruction decoder.source decoder.version
    split at hnext
    · cases hnext
    · cases hnext
    · next hrun =>
      rw [hrun] at hreports
      cases hnext
      cases hreports with
      | malformed hfault => exact hdecoder.pointsAt (Bool.eq_false_iff.2 hfailed) hfault

/-- A letter in a number, in a frame, after a look ahead. -/
theorem fault_points_at_offset_in_frame :
    let bytes : Bytes := [0x80, 4, 0x95, 4, 0, 0, 0, 0, 0, 0, 0, 0x49, 0x31, 0x78, 0x0a]
    ∃ start decoder after : Decoder, ofFeed (Feed.ofBytes bytes) none = .ok start ∧
      start.Reaches decoder ∧
      decoder.next = (.error (.malformed (.nonNumeric .int 0x78) 13), after) ∧
      bytes[13]? = some 0x78 := by
  intro bytes
  let start : Decoder := ⟨⟨Feed.ofBytes (bytes.drop 2), 0, [0x80, 4], []⟩, 4, false⟩
  have hstart : ofFeed (Feed.ofBytes bytes) none = .ok start := by
    have hrun : LookAhead.run .opcode [] (Source.ofFeed (Feed.ofBytes bytes)) =
        ⟨.ok 4, [4, 0x80], ⟨Feed.ofBytes (bytes.drop 2), 2, [], []⟩⟩ := by cbv
    rw [ofFeed, Source.inferVersion_eq, hrun]
    rfl
  have hreaches : start.Reaches start.next.2.next.2 := .next (.next .refl)
  have hnext : start.next.2.next.2.next =
      (.error (.malformed (.nonNumeric .int 0x78) 13), start.next.2.next.2.next.2) := by
    refine Prod.ext ?_ rfl
    cbv
  obtain ⟨-, hget, -⟩ := fault_points_at_offset hstart hreaches hnext
  rw [Feed.bytes_ofBytes] at hget
  exact ⟨start, _, _, hstart, hreaches, hnext, hget⟩

end Decoder

end Pickle
