import Pickle.Proofs.Stream.Framing

/-!
# Sources that cannot be told apart

Two sources are `Alike` when they have the same window, the same offset and the same beyond their
windows, be it that one has bytes put back which the other has not taken yet.  No reader can tell
them apart, and leaving exhausted frames cannot either (`answers_of_alike`).

A frame is another matter: entering one while bytes are put back would change their order.  Where
nothing is put back when it comes, instructions are decoded alike too (`Alike.instruction`).
-/

namespace Pickle

namespace Source

/-! ## Sources that are alike -/

/-- Whether two sources hand out the same bytes, at the same offsets. -/
structure Alike (source other : Source) : Prop where
  position : source.position = other.position
  window : source.window = other.window
  beyond : source.beyond = other.beyond
  ending : source.feed.ending = other.feed.ending

namespace Alike

variable {source other source' other' : Source}

theorem refl (source : Source) : source.Alike source := ⟨rfl, rfl, rfl, rfl⟩

theorem symm (h : source.Alike other) : other.Alike source :=
  ⟨h.position.symm, h.window.symm, h.beyond.symm, h.ending.symm⟩

theorem handsOut {taken : Bytes} (h : source.Alike other) (hsource : source.HandsOut taken source')
    (hother : other.HandsOut taken other') : source'.Alike other' where
  position := by rw [hsource.position, hother.position, h.position]
  window := by
    have hwindow := h.window
    rw [hsource.window, hother.window] at hwindow
    exact List.append_cancel_left hwindow
  beyond := by rw [hsource.beyond, hother.beyond, h.beyond]
  ending := by rw [hsource.ending, hother.ending, h.ending]

theorem frames_eq_nil (h : source.Alike other) : source.frames = [] ↔ other.frames = [] := by
  rw [← beyond_eq_nil, h.beyond, beyond_eq_nil]

theorem ends (h : source.Alike other) (hends : source.Ends) : other.Ends := by
  rw [Ends, ne_eq, ← h.frames_eq_nil, ← h.ending]
  exact hends

theorem beside (h : source.Alike other) (hends : source.Ends) : Beside 0 0 source other :=
  ⟨hends, h.ends hends, h.window ▸ List.prefix_rfl, congrArg (· + 0) h.position⟩

/-- Where nothing is put back, not only the bytes are the same but also the frames. -/
theorem frames (h : source.Alike other) (hsource : source.pushback = [])
    (hother : other.pushback = []) :
    source.frames = other.frames ∧ source.feed.bytes = other.feed.bytes := by
  have hwindow := h.window
  have hbeyond := h.beyond
  obtain ⟨feed, position, pushback, frames⟩ := source
  obtain ⟨feed', position', pushback', frames'⟩ := other
  obtain rfl : pushback = [] := hsource
  obtain rfl : pushback' = [] := hother
  simp only [Source.window, Source.beyond, List.nil_append] at hwindow hbeyond
  cases frames with
  | nil =>
    cases frames' with
    | nil => exact ⟨rfl, hwindow⟩
    | cons frame' outer' => simp at hbeyond
  | cons frame outer =>
    cases frames' with
    | nil => simp at hbeyond
    | cons frame' outer' =>
      obtain ⟨rfl, hfeed⟩ := List.append_inj' hbeyond rfl
      obtain rfl : frame = frame' := hwindow
      exact ⟨rfl, (List.cons.inj hfeed).1⟩

theorem settled_of_pushback (h : source.Alike other) (hne : other.pushback ≠ []) :
    source.settled = source := by
  refine settled_of_window ?_
  rw [h.window, Source.window]
  simp [hne]

/-- Leaving frames cannot tell the sources apart: a frame that is left holds no byte, nor has one
been put back in front of it. -/
theorem settled (h : source.Alike other) : source.settled.Alike other.settled := by
  by_cases hother : other.pushback = []
  · by_cases hsource : source.pushback = []
    · obtain ⟨hframes, hfeed⟩ := h.frames hsource hother
      obtain ⟨hposition, -, -, hending⟩ := h
      obtain ⟨feed, position, pushback, frames⟩ := source
      obtain ⟨feed', position', pushback', frames'⟩ := other
      obtain rfl : pushback = [] := hsource
      obtain rfl : pushback' = [] := hother
      obtain rfl : frames = frames' := hframes
      refine ⟨hposition, ?_, ?_, hending⟩
      · show (frames.dropWhile List.isEmpty).headD feed.bytes =
          (frames.dropWhile List.isEmpty).headD feed'.bytes
        rw [show feed.bytes = feed'.bytes from hfeed]
      · simp only [Source.settled, Source.beyond, List.isEmpty_nil, if_true,
          show feed.bytes = feed'.bytes from hfeed]
    · rw [h.symm.settled_of_pushback hsource]
      rw [Source.settled, if_neg (by simpa using hsource)]
      exact h
  · rw [h.settled_of_pushback hother]
    rw [Source.settled.eq_def other, if_neg (by simpa using hother)]
    exact h

end Alike

/-- Whether two results are the same, with sources left behind that are alike. -/
inductive Match {α : Type} :
    EStateM.Result StreamError Source α → EStateM.Result StreamError Source α → Prop
  | ok (value : α) {source other : Source} (h : source.Alike other) :
      Match (.ok value source) (.ok value other)
  | error (error : StreamError) {source other : Source} (h : source.Alike other) :
      Match (.error error source) (.error error other)

namespace Match

variable {α β : Type}

theorem bind {first second : Read α} {next next' : α → Read β} {source other : Source}
    (h : Match (first source) (second other))
    (hnext : ∀ value source' other', first source = .ok value source' →
      second other = .ok value other' → source'.Alike other' →
        Match (next value source') (next' value other')) :
    Match ((first >>= next) source) ((second >>= next') other) := by
  generalize hresult : first source = result at h
  generalize hresult' : second other = result' at h
  cases h with
  | ok value halike =>
    rw [Read.bind_of_eq_ok hresult, Read.bind_of_eq_ok hresult']
    exact hnext value _ _ hresult hresult' halike
  | error error halike =>
    rw [Read.bind_of_eq_error hresult, Read.bind_of_eq_error hresult']
    exact .error error halike

theorem position_bind {next next' : ℕ → Read α} {source other : Source}
    (halike : source.Alike other)
    (h : Match (next source.position source) (next' source.position other)) :
    Match ((Read.position >>= next) source) ((Read.position >>= next') other) := by
  show Match (next source.position source) (next' other.position other)
  rw [← halike.position]
  exact h

theorem mapError {first second : Read α} {source other : Source}
    (h : Match (first source) (second other)) (change : StreamError → StreamError) :
    Match (Read.mapError change first source) (Read.mapError change second other) := by
  unfold Read.mapError
  generalize first source = result, second other = result' at h
  cases h with
  | ok value halike => exact .ok value halike
  | error error halike => exact .error (change error) halike

/-- Readers that keep abreast match from sources that are alike. -/
theorem of_coupled {ended : ℕ → StreamError} {first second : Read α} {source other : Source}
    (h : Coupled 0 0 ended first second) (halike : source.Alike other) (hends : source.Ends) :
    Match (first source) (second other) := by
  have habreast := h (halike.beside hends)
  generalize first source = result, second other = result' at habreast
  cases habreast with
  | ok value hshort hlong => exact .ok value (halike.handsOut hshort hlong)
  | @error taken source' other' error error' hshort hlong herror =>
    obtain rfl : error = error' := by
      cases error with
      | unreadable =>
        cases error' with
        | unreadable => rfl
        | malformed fault offset => cases herror
      | malformed fault offset =>
        cases error' with
        | unreadable => cases herror
        | malformed fault' offset' =>
          obtain ⟨rfl, hoffset⟩ := herror
          obtain rfl : offset = offset' := hoffset
          rfl
    exact .error error (halike.handsOut hshort hlong)
  | ended hne hshort => exact absurd halike.window hne

end Match

/-! ## Requests -/

section Failure

variable {source : Source}

theorem of_not_ends (h : ¬ source.Ends) : source.frames = [] ∧ source.feed.ending = .failure := by
  rw [Ends, not_or, not_not] at h
  refine ⟨h.1, ?_⟩
  cases hending : source.feed.ending with
  | finished => exact absurd hending h.2
  | failure => rfl

theorem nextByte_of_failure (h : source.window = []) (hends : ¬ source.Ends) :
    Read.nextByte source = .error .unreadable source := by
  obtain ⟨hframes, hending⟩ := of_not_ends hends
  obtain ⟨feed, position, pushback, frames⟩ := source
  obtain rfl : frames = [] := hframes
  obtain ⟨rfl, hbytes⟩ := List.append_eq_nil_iff.1 h
  simp only [Read.nextByte, Feed.pull_of_failure hbytes hending]

/-- A medium that fails leaves nothing of the window. -/
theorem bytes_of_failure {count : ℕ} (h : source.window.length < count) (hends : ¬ source.Ends) :
    Read.bytes count source = .error .unreadable
      ⟨⟨[], source.feed.ending⟩, source.position, [], []⟩ := by
  obtain ⟨hframes, hending⟩ := of_not_ends hends
  obtain ⟨feed, position, pushback, frames⟩ := source
  obtain rfl : frames = [] := hframes
  have hlength : (pushback ++ feed.bytes).length < count := h
  rw [List.length_append] at hlength
  have hfeed : feed.bytes.length < count - pushback.length := by omega
  have hputBack : Read.putBack count ⟨feed, position, pushback, []⟩ =
      .ok pushback ⟨feed, position, [], []⟩ := by
    simp only [Read.putBack, List.splitAt_eq]
    rw [List.take_of_length_le (by omega), List.drop_of_length_le (by omega)]
  have havailable : Read.available (count - pushback.length) ⟨feed, position, [], []⟩ =
      .error .unreadable ⟨⟨[], feed.ending⟩, position, [], []⟩ := by
    simp only [Read.available, Feed.take_of_failure hfeed hending]
  have hupTo : Read.upTo count ⟨feed, position, pushback, []⟩ =
      .error .unreadable ⟨⟨[], feed.ending⟩, position, [], []⟩ := by
    rw [Read.upTo, Read.bind_of_eq_ok hputBack, if_pos (by omega),
      Read.bind_of_eq_error havailable]
  exact Read.bind_of_eq_error hupTo

/-- Whether the next byte is there can be told, unless the medium fails. -/
theorem nextByte_cases (source : Source) :
    (∃ byte? rest, Read.nextByte source = .ok byte? rest ∧ source.HandsOut byte?.toList rest) ∨
      Read.nextByte source = .error .unreadable source := by
  cases hwindow : source.window with
  | cons byte tail => exact .inl ⟨some byte, nextByte_of_window hwindow⟩
  | nil =>
    by_cases hends : source.Ends
    · exact .inl ⟨none, nextByte_of_window_nil hwindow hends⟩
    · exact .inr (nextByte_of_failure hwindow hends)

theorem handsOut_of_nextByte {rest : Source} {byte? : Option UInt8}
    (h : Read.nextByte source = .ok byte? rest) : source.HandsOut byte?.toList rest := by
  obtain ⟨byte?, rest, hrun, hrest⟩ | hrun := nextByte_cases source
  · rw [hrun] at h
    cases h
    exact hrest
  · rw [hrun] at h
    cases h

theorem eq_of_nextByte_error {rest : Source} {error : StreamError}
    (h : Read.nextByte source = .error error rest) : rest = source := by
  obtain ⟨byte?, rest, hrun, hrest⟩ | hrun := nextByte_cases source
  · rw [hrun] at h
    cases h
  · rw [hrun] at h
    cases h
    rfl

end Failure

namespace Alike

variable {source other : Source}

theorem not_ends (h : source.Alike other) (hends : ¬ source.Ends) : ¬ other.Ends :=
  fun hother => hends (h.symm.ends hother)

theorem nextByte (h : source.Alike other) :
    Match (Read.nextByte source) (Read.nextByte other) := by
  cases hwindow : source.window with
  | cons byte tail =>
    obtain ⟨rest, hrun, hrest⟩ := nextByte_of_window hwindow
    obtain ⟨rest', hrun', hrest'⟩ := nextByte_of_window (h.window ▸ hwindow)
    rw [hrun, hrun']
    exact .ok _ (h.handsOut hrest hrest')
  | nil =>
    have hwindow' : other.window = [] := h.window ▸ hwindow
    by_cases hends : source.Ends
    · obtain ⟨rest, hrun, hrest⟩ := nextByte_of_window_nil hwindow hends
      obtain ⟨rest', hrun', hrest'⟩ := nextByte_of_window_nil hwindow' (h.ends hends)
      rw [hrun, hrun']
      exact .ok _ (h.handsOut hrest hrest')
    · rw [nextByte_of_failure hwindow hends, nextByte_of_failure hwindow' (h.not_ends hends)]
      exact .error _ h

theorem bytes (h : source.Alike other) (count : ℕ) :
    Match (Read.bytes count source) (Read.bytes count other) := by
  by_cases hends : source.Ends
  · exact .of_coupled (Coupled.bytes count) h hends
  · by_cases hcount : count ≤ source.window.length
    · obtain ⟨rest, hrun, hrest⟩ := bytes_of_le hcount
      obtain ⟨rest', hrun', hrest'⟩ := bytes_of_le (h.window ▸ hcount)
      rw [← h.window] at hrun' hrest'
      rw [hrun, hrun']
      exact .ok _ (h.handsOut hrest hrest')
    · rw [not_le] at hcount
      rw [bytes_of_failure hcount hends, bytes_of_failure (h.window ▸ hcount) (h.not_ends hends)]
      exact .error _ ⟨h.position, rfl, rfl, h.ending⟩

theorem leave {α : Type} (h : source.Alike other) (value : α) :
    Match ((Read.leaveExhaustedFrames >>= fun _ => Pure.pure value) source)
      ((Read.leaveExhaustedFrames >>= fun _ => Pure.pure value) other) := by
  obtain ⟨count, hleave⟩ := leaveExhaustedFrames_eq source
  obtain ⟨count', hleave'⟩ := leaveExhaustedFrames_eq other
  rw [Read.bind_of_eq_ok hleave, Read.bind_of_eq_ok hleave']
  exact .ok value h.settled

end Alike

/-- What can be asked of a source. -/
inductive Request where
  /-- The next byte, if there is one. -/
  | next
  /-- Exactly so many bytes. -/
  | exactly (count : ℕ)
  /-- Nothing, but to leave frames that are exhausted. -/
  | leave

/-- The bytes that a request gives. -/
def Request.read : Request → Read Bytes
  | .next => return (← Read.nextByte).toList
  | .exactly count => Read.bytes count
  | .leave => do
    let _ ← Read.leaveExhaustedFrames
    return []

/-- The answers to requests one after the other, each of them made whatever came of those
before. -/
def answers : List Request → Source → List (Except StreamError Bytes)
  | [], _ => []
  | request :: rest, source =>
    match request.read source with
    | .ok taken source => .ok taken :: answers rest source
    | .error error source => .error error :: answers rest source

theorem answers_of_alike {source other : Source} (h : source.Alike other)
    (requests : List Request) : answers requests source = answers requests other := by
  induction requests generalizing source other with
  | nil => rfl
  | cons request rest ih =>
    have hmatch : Match (request.read source) (request.read other) := by
      cases request with
      | next => exact h.nextByte.bind fun _ _ _ _ _ halike => .ok _ halike
      | exactly count => exact h.bytes count
      | leave => exact h.leave []
    unfold answers
    generalize request.read source = result, request.read other = result' at hmatch
    cases hmatch with
    | ok value halike => exact congrArg _ (ih halike)
    | error error halike => exact congrArg _ (ih halike)

/-! ## Instructions -/

namespace Alike

variable {source other : Source}

/-- A frame is entered alike where nothing is put back. -/
theorem read_frame (h : source.Alike other) (hends : source.Ends) (hsource : source.pushback = [])
    (hother : other.pushback = []) :
    Match (Layout.frame.read source) (Layout.frame.read other) := by
  have hlength : Match (Read.littleEndian 8 source) (Read.littleEndian 8 other) :=
    .of_coupled (Coupled.littleEndian 8) h hends
  refine hlength.bind fun count middle middle' hrun hrun' halike => ?_
  have hmiddle := (Takes.littleEndian 8 hsource hrun).1
  have hmiddle' := (Takes.littleEndian 8 hother hrun').1
  have henter : Match (Read.enterFrame count middle) (Read.enterFrame count middle') := by
    refine (halike.bytes count).bind fun body inside inside' hbody hbody' hinside => ?_
    obtain ⟨hframes, hfeed⟩ := hinside.frames (Takes.bytes count hmiddle hbody).1
      (Takes.bytes count hmiddle' hbody').1
    refine .ok () ⟨?_, ?_, ?_, hinside.ending⟩
    · exact congrArg (· - body.length) hinside.position
    · simp only [Source.window, List.headD_cons, (Takes.bytes count hmiddle hbody).1,
        (Takes.bytes count hmiddle' hbody').1]
    · simp only [Source.beyond, hframes, hfeed]
  exact henter.bind fun _ _ _ _ _ hinside => .ok _ hinside

/-- An instruction is decoded alike, provided that nothing is put back if it is a frame. -/
theorem instruction (h : source.Alike other) (hends : source.Ends) {version : ℕ}
    (hframe : ∀ byte rest, source.HandsOut [byte] rest →
      Opcode.decode? byte version = some .frame → source.pushback = [])
    (hother : other.pushback = []) :
    Match (Read.instruction version source) (Read.instruction version other) := by
  refine .position_bind h (h.nextByte.bind fun byte? middle middle' hbyte hbyte' halike => ?_)
  cases byte? with
  | none => exact .ok none halike
  | some byte =>
    have hmiddle := handsOut_of_nextByte hbyte
    have hmiddle' := handsOut_of_nextByte hbyte'
    cases hdecode : Opcode.decode? byte version with
    | none =>
      simp only [hdecode]
      exact .error _ halike
    | some opcode =>
      simp only [hdecode]
      have hread : Match (opcode.layout.read middle) (opcode.layout.read middle') := by
        by_cases hopcode : opcode = .frame
        · subst hopcode
          exact halike.read_frame (hmiddle.ends hends)
            (hmiddle.pushback_eq_nil (hframe byte middle hmiddle hdecode))
            (hmiddle'.pushback_eq_nil hother)
        · exact .of_coupled (Coupled.layout (Opcode.layout_ne_frame hopcode)) halike
            (hmiddle.ends hends)
      have hargument : Match (Read.argument opcode middle) (Read.argument opcode middle') :=
        (hread.mapError (.inArgument opcode)).bind fun argument _ _ _ _ hinside =>
          hinside.leave (⟨opcode, argument⟩ : Instruction)
      exact hargument.bind fun instruction _ _ _ _ hafter => .ok (some instruction) hafter

end Alike

section Ending

variable {α : Type} {source rest : Source}

/-- What a reader that keeps abreast with itself takes when it succeeds. -/
theorem handsOut_of_coupled {ended : ℕ → StreamError} {action : Read α} {value : α}
    (h : Coupled 0 0 ended action action) (hends : source.Ends)
    (hrun : action source = .ok value rest) : ∃ taken, source.HandsOut taken rest := by
  have habreast := h ((Alike.refl source).beside hends)
  rw [hrun] at habreast
  cases habreast with
  | ok value hshort hlong => exact ⟨_, hshort⟩

theorem ending_of_layout {layout : Layout} {argument : layout.Argument}
    (hending : source.feed.ending = .finished) (hrun : layout.read source = .ok argument rest) :
    rest.feed.ending = .finished := by
  by_cases hframe : layout = .frame
  · subst hframe
    obtain ⟨count, middle, hcount, hnext⟩ := Read.bind_eq_ok hrun
    obtain ⟨_, inside, henter, hdone⟩ := Read.bind_eq_ok hnext
    cases hdone
    obtain ⟨body, after, hbody, hinside⟩ := Read.bind_eq_ok henter
    cases hinside
    obtain ⟨_, hmiddle⟩ := handsOut_of_coupled (Coupled.littleEndian 8) (.inr hending) hcount
    have hmiddleEnding := hmiddle.ending.trans hending
    obtain ⟨_, hafter⟩ := handsOut_of_coupled (Coupled.bytes count) (.inr hmiddleEnding) hbody
    exact hafter.ending.trans hmiddleEnding
  · obtain ⟨_, hrest⟩ := handsOut_of_coupled (Coupled.layout hframe) (.inr hending) hrun
    exact hrest.ending.trans hending

theorem ending_of_instruction {version : ℕ} {instruction? : Option Instruction}
    (hending : source.feed.ending = .finished)
    (hrun : Read.instruction version source = .ok instruction? rest) :
    rest.feed.ending = .finished := by
  cases instruction? with
  | none => exact (handsOut_of_nextByte (Read.nextByte_of_instruction hrun)).ending.trans hending
  | some instruction =>
    obtain ⟨byte, middle, after, hbyte, -, hread, rfl⟩ := Read.instruction_eq_ok hrun
    have hafter := ending_of_layout ((handsOut_of_nextByte hbyte).ending.trans hending) hread
    rw [settled]
    split
    · exact hafter
    · exact hafter

end Ending

end Source

end Pickle
