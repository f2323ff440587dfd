import Mathlib
import Pickle.Proofs.Stream.Inference

/-!
# Every byte belongs to an instruction

Between two instructions a decoder stands outside frames or in a frame that has bytes left
(`Decoder.IsBetween`).  This is what leaving frames after every instruction is for: an exhausted
frame would be taken for the end of the bytes, and everything around it would be dropped without a
word.  So the end that a decoder finds is the end of all bytes, and until then every instruction
takes a span of them, from the first byte on and without gaps (`IsBetween.spans`).

A frame that encloses the innermost one may well be exhausted; it is when both end together.  It
does no harm, since it is left with the innermost one or before the next byte is looked for.
-/

namespace Pickle

open Source

namespace Source

/-- Settling keeps no exhausted frame on top. -/
theorem head?_settled {source : Source} (h : source.pushback = []) :
    source.settled.frames.head? ≠ some [] := by
  rw [settled, if_pos (by simp [h])]
  have hhead := List.head?_dropWhile_not List.isEmpty source.frames
  intro hempty
  rw [hempty] at hhead
  exact absurd hhead (by simp)

/-- Without bytes put back, the size is the number of bytes to come. -/
theorem size_eq_length_pending {source : Source} (h : source.pushback = []) :
    source.size = source.pending.length := by
  rw [size, pending, h, List.length_append, Feed.size, List.length_nil]
  omega

/-- An innermost frame that is not exhausted has the next byte; outside frames the feed has it. -/
theorem pending_eq_nil {source : Source} (hpushback : source.pushback = [])
    (hsettled : source.frames.head? ≠ some []) (hwindow : source.window = []) :
    source.frames = [] ∧ source.pending = [] := by
  obtain ⟨feed, position, pushback, frames⟩ := source
  obtain rfl : pushback = [] := hpushback
  cases frames with
  | nil => exact ⟨rfl, hwindow⟩
  | cons frame outer =>
    obtain rfl : frame = [] := hwindow
    exact absurd rfl hsettled

/-- Where no byte is to come, the window is used up. -/
theorem window_of_pending {source : Source} (hpushback : source.pushback = [])
    (hpending : source.pending = []) : source.window = [] := by
  obtain ⟨hframes, hfeed⟩ := List.append_eq_nil_iff.1 hpending
  rw [window, hpushback, List.nil_append]
  cases hcases : source.frames with
  | nil => exact hfeed
  | cons frame outer =>
    rw [hcases, List.flatten_cons] at hframes
    exact (List.append_eq_nil_iff.1 hframes).1

end Source

namespace Decoder

variable {bytes : Bytes} {version : ℕ} {start decoder after : Decoder}

/-- Whether a decoder stands between two instructions of some bytes, with every frame left that was to
be left. -/
structure IsBetween (bytes : Bytes) (version : ℕ) (decoder : Decoder) : Prop where
  tracking : decoder.IsTracking bytes version
  failed : decoder.failed = false
  ending : decoder.source.feed.ending = .finished
  inside : decoder.position ≤ bytes.length
  settled : decoder.source.frames.head? ≠ some []

/-- Whether bytes are the span of an instruction. -/
structure IsSpan (version : ℕ) (instruction : Instruction) (span : Bytes) : Prop where
  nonempty : span ≠ []
  spells : Takes.IsInstruction version instruction span

/-- The span of a frame is its opcode and its length; what it holds comes later. -/
theorem IsSpan.length_of_frame {instruction : Instruction} {span : Bytes}
    (h : IsSpan version instruction span) (hframe : instruction.opcode = .frame) :
    span.length = 9 := by
  obtain ⟨opcode, argument⟩ := instruction
  obtain rfl : opcode = .frame := hframe
  obtain ⟨-, rfl⟩ := h.spells.2 id
  exact congrArg (· + 1) (length_write_frame argument)

/-- There are no more instructions than bytes in their spans. -/
theorem IsSpan.length_le {program : List Instruction} {spans : List Bytes}
    (h : List.Forall₂ (IsSpan version) program spans) : program.length ≤ spans.flatten.length := by
  induction h with
  | nil => exact le_rfl
  | cons hspan _ ih =>
    have hpos := List.length_pos_iff.2 hspan.nonempty
    rw [List.length_cons, List.flatten_cons, List.length_append]
    omega

/-- An error is the last thing that a decoder gives. -/
theorem next_of_error {error : StreamError} (h : decoder.next = (.error error, after)) :
    after.next.1 = .finished := by
  unfold Decoder.next at h
  split at h
  · cases h
  · split at h
    · cases h
    · cases h
    · cases h
      rw [Decoder.next, if_pos rfl]

theorem isBetween_ofFeed {feed : Feed} (hending : feed.ending = .finished) :
    IsBetween feed.bytes version ⟨Source.ofFeed feed, version, false⟩ :=
  ⟨⟨rfl, fun _ => rfl, fun _ => rfl⟩, rfl, hending, Nat.zero_le _, by simp [Source.ofFeed]⟩

namespace IsBetween

/-- An instruction takes a span of the bytes and leaves the decoder between instructions. -/
theorem next (h : decoder.IsBetween bytes version) {instruction : Instruction}
    (hnext : decoder.next = (.instruction instruction, after)) :
    after.IsBetween bytes version ∧ ∃ span, IsSpan version instruction span ∧
      bytes.drop decoder.position = span ++ bytes.drop after.position ∧
        after.position = decoder.position + span.length := by
  obtain ⟨htracking, hfailed, hending, hinside, -⟩ := h
  obtain ⟨source, number, failed⟩ := decoder
  obtain rfl : failed = false := hfailed
  obtain rfl : number = version := htracking.version
  have hpushback : source.pushback = [] := htracking.pushback rfl
  obtain ⟨hrun, hafter⟩ := instruction_of_next hnext
  obtain ⟨span, hspan, hdrop, hposition⟩ := htracking.instruction hnext
  have hrest := htracking.next
  rw [hnext] at hrest
  have hpushback' : after.source.pushback = [] := (Takes.instruction _ hpushback hrun).1
  refine ⟨⟨hrest, by rw [hafter], ending_of_instruction hending hrun, ?_, ?_⟩,
    span, ⟨?_, hspan⟩, hdrop, hposition⟩
  · have hlength := congrArg List.length hdrop
    rw [List.length_drop, List.length_append, List.length_drop, hposition] at hlength
    omega
  · obtain ⟨_, _, inside, _, _, _, hsettled⟩ := Read.instruction_eq_ok hrun
    rw [hsettled] at hpushback' ⊢
    exact head?_settled (by rwa [pushback_settled] at hpushback')
  · -- An empty span would leave as many bytes as there were.
    rintro rfl
    have hlt : after.source.size < source.size := Read.size_of_instruction hrun
    rw [size_eq_length_pending hpushback, size_eq_length_pending hpushback',
      htracking.pending rfl, hrest.pending (by rw [hafter]), hdrop, List.nil_append] at hlt
    exact lt_irrefl _ hlt

/-- The instructions of a run take one span after the other. -/
theorem spans (h : start.IsBetween bytes version) {program : List Instruction}
    (hyields : start.Yields program after) :
    after.IsBetween bytes version ∧ start.after program.length = after ∧
      ∃ spans, List.Forall₂ (IsSpan version) program spans ∧
        bytes.drop start.position = spans.flatten ++ bytes.drop after.position ∧
        ∀ steps ≤ program.length,
          (start.after steps).position = start.position + (spans.take steps).flatten.length := by
  induction hyields with
  | nil decoder =>
    refine ⟨h, rfl, [], .nil, rfl, fun steps hsteps => ?_⟩
    obtain rfl : steps = 0 := Nat.le_zero.1 hsteps
    rfl
  | @cons decoder middle after instruction program hnext _ ih =>
    obtain ⟨hmiddle, span, hspan, hdrop, hposition⟩ := h.next hnext
    obtain ⟨hafter, hlast, spans, hspans, hrest, hpositions⟩ := ih hmiddle
    have hshift : ∀ steps, decoder.after (steps + 1) = middle.after steps := by
      intro steps
      induction steps with
      | zero => exact congrArg Prod.snd hnext
      | succ steps ih => exact congrArg (fun decoder => decoder.next.2) ih
    refine ⟨hafter, (hshift _).trans hlast, span :: spans, .cons hspan hspans, ?_, ?_⟩
    · rw [hdrop, hrest, List.flatten_cons, List.append_assoc]
    · intro steps hsteps
      cases steps with
      | zero => rfl
      | succ steps =>
        rw [hshift, hpositions steps (Nat.le_of_succ_le_succ hsteps), hposition,
          List.take_succ_cons, List.flatten_cons, List.length_append, Nat.add_assoc]

/-- A used-up window is that of the feed, and the bytes have come to their end. -/
theorem frames_of_window (h : decoder.IsBetween bytes version)
    (hwindow : decoder.source.window = []) :
    decoder.source.frames = [] ∧ decoder.position = bytes.length := by
  obtain ⟨hframes, hpending⟩ :=
    pending_eq_nil (h.tracking.pushback h.failed) h.settled hwindow
  rw [h.tracking.pending h.failed] at hpending
  exact ⟨hframes, le_antisymm h.inside (List.drop_eq_nil_iff.1 hpending)⟩

/-- The instructions end in a used-up window outside frames, and stay ended. -/
theorem of_finished (h : decoder.IsBetween bytes version)
    (hnext : decoder.next = (.finished, after)) :
    decoder.source.window = [] ∧ after.position = decoder.position ∧ after.source.depth = 0 ∧
      after.next.1 = .finished := by
  obtain ⟨source, number, failed⟩ := decoder
  obtain rfl : failed = false := h.failed
  have hwindow := window_of_finished hnext
  obtain ⟨hframes, -⟩ := h.frames_of_window hwindow
  have hends : source.Ends := .inr h.ending
  obtain ⟨rest, hbyte, hrest⟩ := nextByte_of_window_nil hwindow hends
  have hrun : Read.instruction number source = .ok none rest := by
    have hposition : Read.position source = .ok source.position source := rfl
    rw [Read.instruction, Read.bind_of_eq_ok hposition, Read.bind_of_eq_ok hbyte]
    rfl
  rw [Decoder.next, if_neg (by simp), hrun] at hnext
  cases hnext
  have hrestWindow : rest.window = [] := by
    rw [← hwindow, hrest.window, List.nil_append]
  obtain ⟨last, hlast, -⟩ := @finished_of_window rest number hrestWindow (hrest.ends hends)
  refine ⟨hwindow, hrest.position, ?_, congrArg Prod.fst hlast⟩
  exact List.length_eq_zero_iff.2 (hrest.frames_eq_nil.2 hframes)

/-- The bytes end just where there is no next byte. -/
theorem finish_eq_ok_iff (h : decoder.IsBetween bytes version) :
    decoder.finish.1 = .ok () ↔ decoder.source.window = [] := by
  constructor
  · intro hfinish
    by_contra hne
    obtain ⟨head, tail, hwindow⟩ := List.exists_cons_of_ne_nil hne
    obtain ⟨rest, hbyte, -⟩ := nextByte_of_window hwindow
    have hend : Read.atEnd decoder.source =
        .error (.malformed .trailingBytes rest.position) rest := by
      rw [Read.atEnd, Read.bind_of_eq_ok hbyte]
      rfl
    rw [finish, hend] at hfinish
    cases hfinish
  · intro hwindow
    obtain ⟨source, version, failed⟩ := decoder
    obtain rfl : failed = false := h.failed
    obtain ⟨_, _, hfinish⟩ := @finished_of_window source version hwindow (.inr h.ending)
    exact hfinish

end IsBetween

/-- A decoder accounts for every byte.

Whatever instructions a decoder of a version gives, they are no more than the bytes, and the spans
between its offsets before and after each of them are not empty, begin at zero and follow one
another without gaps; that of a frame has nine bytes, and what the frame holds is in later spans.
Between instructions the innermost frame is never exhausted.

The instructions end without an error only at the end of the bytes and outside all frames, and where
they end, be it with an error, none comes later.  Between instructions, a decoder finds that no byte
follows just when its offset is the number of bytes. -/
theorem accounts_for_bytes (feed : Feed) (version : UInt8) (hending : feed.ending = .finished)
    (hversion : version.toNat ≤ Opcode.highestVersion) :
    ∃ start, ofFeed feed (some version) = .ok start ∧ start.position = 0 ∧
      ∀ program after, start.Yields program after →
        program.length ≤ feed.bytes.length ∧
        (start.after program.length = after ∧ ∃ spans : List Bytes,
          List.Forall₂ (fun instruction span =>
            span ≠ [] ∧ (instruction.opcode = .frame → span.length = 9)) program spans ∧
          feed.bytes = spans.flatten ++ feed.bytes.drop after.position ∧
          ∀ steps ≤ program.length,
            (start.after steps).position = (spans.take steps).flatten.length) ∧
        after.source.frames.head? ≠ some [] ∧
        (∀ last, after.next = (.finished, last) →
          last.position = feed.bytes.length ∧ last.source.depth = 0 ∧ last.next.1 = .finished) ∧
        (∀ error last, after.next = (.error error, last) → last.next.1 = .finished) ∧
        (after.finish.1 = .ok () ↔ after.position = feed.bytes.length) := by
  refine ⟨_, ofFeed_eq_ok hversion, rfl, fun program after hyields => ?_⟩
  obtain ⟨hafter, hlast, spans, hspans, hbytes, hpositions⟩ :=
    (isBetween_ofFeed hending).spans hyields
  have hstart : position ⟨Source.ofFeed feed, version.toNat, false⟩ = 0 := rfl
  simp only [hstart, List.drop_zero, Nat.zero_add] at hbytes hpositions
  have hlength := hspans.length_eq
  have hposition : after.position = spans.flatten.length := by
    have hall := hpositions program.length le_rfl
    rwa [hlast, hlength, List.take_length] at hall
  -- An empty window is the end of the feed, since exhausted frames have been left.
  have hend : after.source.window = [] → after.position = feed.bytes.length :=
    fun hwindow => (hafter.frames_of_window hwindow).2
  have hwindow : after.position = feed.bytes.length → after.source.window = [] := by
    intro hall
    have hpending := hafter.tracking.pending hafter.failed
    rw [hall, List.drop_length] at hpending
    exact window_of_pending (hafter.tracking.pushback hafter.failed) hpending
  refine ⟨?_, ⟨hlast, spans, ?_, hbytes, hpositions⟩, hafter.settled, ?_, ?_, ?_⟩
  · exact (IsSpan.length_le hspans).trans (hposition ▸ hafter.inside)
  · exact hspans.imp fun instruction span hspan => ⟨hspan.nonempty, hspan.length_of_frame⟩
  · intro last hnext
    obtain ⟨hused, hsame, hdepth, hfinished⟩ := hafter.of_finished hnext
    exact ⟨hsame.trans (hend hused), hdepth, hfinished⟩
  · intro error last hnext
    exact next_of_error hnext
  · rw [hafter.finish_eq_ok_iff]
    exact ⟨hend, hwindow⟩

/-- A frame that holds another one, an empty frame, and a stop. -/
theorem accounts_for_bytes_nested :
    let program : List Instruction :=
      [⟨.frame, (10 : UInt64)⟩, ⟨.frame, (1 : UInt64)⟩, ⟨.pushNone, ()⟩, ⟨.frame, (0 : UInt64)⟩,
        ⟨.stop, ()⟩]
    let feed := Feed.ofBytes (Instruction.encodeAll program)
    (feed.ending = .finished ∧ (4 : UInt8).toNat ≤ Opcode.highestVersion) ∧
      ∃ start after last, ofFeed feed (some 4) = .ok start ∧ start.Yields program after ∧
        after.next = (.finished, last) ∧ last.position = 29 ∧ last.source.depth = 0 := by
  intro program feed
  have hending : feed.ending = .finished := rfl
  have hversion : (4 : UInt8).toNat ≤ Opcode.highestVersion := by decide
  obtain ⟨start, hstart, -, hall⟩ := accounts_for_bytes feed 4 hending hversion
  have hcollect : collect ⟨Source.ofFeed feed, 4, false⟩ [] = .ok program := by cbv
  obtain ⟨_, after, last, hyields, hnext, rfl⟩ := collect_eq_ok_iff.1 hcollect
  obtain rfl : ⟨Source.ofFeed feed, 4, false⟩ = start := by
    rw [ofFeed_eq_ok hversion] at hstart
    exact Except.ok.inj hstart
  obtain ⟨-, -, -, hfinished, -⟩ := hall _ after hyields
  obtain ⟨hposition, hdepth, -⟩ := hfinished last hnext
  have hlength : feed.bytes.length = 29 := by decide
  exact ⟨⟨hending, hversion⟩, _, after, last, hstart, hyields, hnext, hposition.trans hlength,
    hdepth⟩

/-- A frame that ends together with one inside it is exhausted as soon as that one is entered, and
stays beneath it until all of it has been read. -/
theorem exists_exhausted_frame :
    let outer : Instruction := ⟨.frame, (10 : UInt64)⟩
    let inner : Instruction := ⟨.frame, (1 : UInt64)⟩
    let feed := Feed.ofBytes (Instruction.encodeAll [outer, inner, ⟨.pushNone, ()⟩])
    ∃ start after, ofFeed feed (some 4) = .ok start ∧ start.Yields [outer, inner] after ∧
      after.source.frames = [[0x4e], []] ∧ [] ∈ after.source.frames := by
  intro outer inner feed
  have hversion : (4 : UInt8).toNat ≤ Opcode.highestVersion := by decide
  refine ⟨⟨Source.ofFeed feed, 4, false⟩, ⟨⟨Feed.ofBytes [], 18, [], [[0x4e], []]⟩, 4, false⟩,
    ofFeed_eq_ok hversion, ?_, rfl, by simp⟩
  have hfirst : next ⟨Source.ofFeed feed, 4, false⟩ = (.instruction outer,
      ⟨⟨Feed.ofBytes [], 9, [], [inner.encode ++ [0x4e]]⟩, 4, false⟩) := by cbv
  have hsecond : next ⟨⟨Feed.ofBytes [], 9, [], [inner.encode ++ [0x4e]]⟩, 4, false⟩ =
      (.instruction inner, ⟨⟨Feed.ofBytes [], 18, [], [[0x4e], []]⟩, 4, false⟩) := by cbv
  exact .cons hfirst (.cons hsecond (.nil _))

end Decoder

end Pickle
