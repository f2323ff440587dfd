import Pickle.Proofs.Stream.Inference

/-!
# Reading the front of a stream

A source is a *front* of another one when the two are the same but for a tail that only the feed of
the other one delivers.  All that a reader finds in the front it finds in the whole, and it comes to
the same result, at the same offset, for as long as it asks for nothing beyond the front.  Once it
does, the reader of the whole has taken a byte of the tail, and the reader of the front has failed:
at the end of the bytes, or because the medium did.  So whether a byte of the tail was asked for can
be told from the bytes that the feed of the whole has left.

`Forward` says this of an action.  It is closed under sequence, so one law for each reader gives it
for all arguments (`Forward.layout`).  With no tail at all, and a front that comes to its end, it
says that the deliveries that bytes come in make no difference.
-/

namespace Pickle

namespace Source

variable {source after : Source} {taken frame tail : Bytes} {outer : List Bytes} {ending : Ending}

/-! ## What is taken from the feed -/

/-- What an action leaves, whatever comes of it. -/
def left {α : Type} : EStateM.Result StreamError Source α → Source
  | .ok _ source => source
  | .error _ source => source

theorem window_of_frames_nil (h : source.frames = []) :
    source.window = source.pushback ++ source.feed.bytes := by
  rw [window, h, List.headD_nil]

theorem window_of_frames_cons (h : source.frames = frame :: outer) :
    source.window = source.pushback ++ frame := by
  rw [window, h, List.headD_cons]

/-- Inside a frame, neither the enclosing frames nor the feed is touched. -/
theorem HandsOut.frames_cons (h : source.HandsOut taken after)
    (hframes : source.frames = frame :: outer) :
    ∃ left, after.frames = left :: outer ∧ after.feed.bytes = source.feed.bytes := by
  have hbeyond := h.beyond
  unfold Source.beyond at hbeyond
  rw [hframes] at hbeyond
  cases hafter : after.frames with
  | nil =>
    rw [hafter] at hbeyond
    simp at hbeyond
  | cons left outer' =>
    rw [hafter] at hbeyond
    obtain ⟨rfl, hfeed⟩ := List.append_inj' hbeyond rfl
    exact ⟨left, rfl, (List.cons.inj hfeed).1⟩

/-- Handing out bytes gives none back to the feed. -/
theorem HandsOut.feed_size_le (h : source.HandsOut taken after) :
    after.feed.size ≤ source.feed.size := by
  cases hframes : source.frames with
  | nil =>
    have hwindow := congrArg List.length h.window
    rw [window_of_frames_nil hframes, window_of_frames_nil (h.frames_eq_nil.2 hframes),
      h.pushback, List.length_append, List.length_append, List.length_append,
      List.length_drop] at hwindow
    show after.feed.bytes.length ≤ source.feed.bytes.length
    omega
  | cons frame outer =>
    obtain ⟨left, -, hfeed⟩ := h.frames_cons hframes
    exact (congrArg List.length hfeed).le

theorem feed_size_nextByte (source : Source) :
    (left (Read.nextByte source)).feed.size ≤ source.feed.size := by
  obtain ⟨byte?, rest, hrun, hrest⟩ | hrun := nextByte_cases source
  · rw [hrun]
    exact hrest.feed_size_le
  · rw [hrun]
    exact le_rfl

theorem feed_size_bytes (source : Source) (count : ℕ) :
    (left (Read.bytes count source)).feed.size ≤ source.feed.size := by
  by_cases hcount : count ≤ source.window.length
  · obtain ⟨rest, hrun, hrest⟩ := bytes_of_le hcount
    rw [hrun]
    exact hrest.feed_size_le
  · rw [not_le] at hcount
    by_cases hends : source.Ends
    · obtain ⟨rest, hrun, hrest⟩ := bytes_of_lt hcount hends
      rw [hrun]
      exact hrest.feed_size_le
    · rw [bytes_of_failure hcount hends]
      exact Nat.zero_le _

/-! ## Fronts -/

/-- Whether a source, whose feed has some ending, is the same as another one but for a tail that the
feed of the other one delivers before it comes to its end. -/
structure IsFront (tail : Bytes) (ending : Ending) (short long : Source) : Prop where
  position : short.position = long.position
  pushback : short.pushback = long.pushback
  frames : short.frames = long.frames
  bytes : long.feed.bytes = short.feed.bytes ++ tail
  shortEnding : short.feed.ending = ending
  longEnding : long.feed.ending = .finished

/-- Whether the end of a front can be told from the whole.  It cannot where there is no tail and the
medium fails. -/
def Parts (tail : Bytes) (ending : Ending) : Prop := tail ≠ [] ∨ ending = .finished

/-- Whether an action has stopped at the end of a front: with the failure of the medium, or where the
bytes end, with some error or a value that tells of the end. -/
def Stopped (ending : Ending) {α : Type} (early : α → Prop) :
    EStateM.Result StreamError Source α → Prop
  | .ok value _ => ending = .finished ∧ early value
  | .error error _ => ending = .failure → error = .unreadable

/-- No value tells of the end of the bytes. -/
abbrev Never {α : Type} (_ : α) : Prop := False

/-- How an action ends from a front and from the whole.  Either both come to the same; or a byte of
the tail was asked for, and the action has stopped on the front. -/
inductive Outruns (tail : Bytes) (ending : Ending) {α : Type} (early : α → Prop) :
    EStateM.Result StreamError Source α → EStateM.Result StreamError Source α → Prop
  | ok (value : α) {short long : Source} (h : IsFront tail ending short long) :
      Outruns tail ending early (.ok value short) (.ok value long)
  | error (error : StreamError) {short long : Source} (h : IsFront tail ending short long) :
      Outruns tail ending early (.error error short) (.error error long)
  | beyond {result result' : EStateM.Result StreamError Source α}
      (hstopped : Stopped ending early result) (hasked : (left result').feed.size < tail.length) :
      Outruns tail ending early result result'

namespace IsFront

variable {short long short' long' : Source}

theorem handsOut (h : IsFront tail ending short long) (hshort : short.HandsOut taken short')
    (hlong : long.HandsOut taken long') : IsFront tail ending short' long' := by
  have hpushback : short'.pushback = long'.pushback := by
    rw [hshort.pushback, hlong.pushback, h.pushback]
  have hframes : short'.frames = long'.frames ∧
      long'.feed.bytes = short'.feed.bytes ++ tail := by
    have hwindow := hshort.window
    have hwindow' := hlong.window
    cases hcases : short.frames with
    | nil =>
      have hcases' := h.frames.symm.trans hcases
      have hnil := hshort.frames_eq_nil.2 hcases
      have hnil' := hlong.frames_eq_nil.2 hcases'
      refine ⟨hnil.trans hnil'.symm, ?_⟩
      rw [window_of_frames_nil hcases, window_of_frames_nil hnil, hpushback] at hwindow
      rw [window_of_frames_nil hcases', window_of_frames_nil hnil', h.bytes, ← List.append_assoc,
        ← h.pushback, hwindow, List.append_assoc, List.append_assoc] at hwindow'
      exact (List.append_cancel_left (List.append_cancel_left hwindow')).symm
    | cons frame outer =>
      have hcases' := h.frames.symm.trans hcases
      obtain ⟨rest, hrest, hfeed⟩ := hshort.frames_cons hcases
      obtain ⟨rest', hrest', hfeed'⟩ := hlong.frames_cons hcases'
      rw [window_of_frames_cons hcases, window_of_frames_cons hrest, hpushback] at hwindow
      rw [window_of_frames_cons hcases', window_of_frames_cons hrest', ← h.pushback,
        hwindow] at hwindow'
      obtain rfl := List.append_cancel_left (List.append_cancel_left hwindow')
      exact ⟨hrest.trans hrest'.symm, by rw [hfeed, hfeed', h.bytes]⟩
  exact ⟨by rw [hshort.position, hlong.position, h.position], hpushback, hframes.1, hframes.2,
    hshort.ending.trans h.shortEnding, hlong.ending.trans h.longEnding⟩

/-- Inside a frame, and outside of frames if there is no tail, the windows are the same.  Otherwise
that of the whole goes on with the tail. -/
theorem window (h : IsFront tail ending short long) :
    (short.frames ≠ [] ∧ long.window = short.window) ∨
      (short.frames = [] ∧ long.frames = [] ∧ long.window = short.window ++ tail) := by
  cases hcases : short.frames with
  | nil =>
    have hcases' := h.frames.symm.trans hcases
    refine .inr ⟨rfl, hcases', ?_⟩
    rw [window_of_frames_nil hcases, window_of_frames_nil hcases', h.bytes, h.pushback,
      List.append_assoc]
  | cons frame outer =>
    refine .inl ⟨by simp, ?_⟩
    rw [window_of_frames_cons hcases, window_of_frames_cons (h.frames.symm.trans hcases),
      h.pushback]

theorem ends_of_failure (h : IsFront tail .failure short long) (hframes : short.frames = []) :
    ¬ short.Ends := by
  rintro (hne | hending)
  · exact hne hframes
  · rw [h.shortEnding] at hending
    cases hending

/-- More bytes than there are before the tail can only be had from the tail. -/
theorem asked (h : IsFront tail ending short long) (hnil : short.frames = [])
    (hlong : long.HandsOut taken long') (htaken : short.window.length < taken.length) :
    long'.feed.size < tail.length := by
  rcases h.window with ⟨hne, -⟩ | ⟨-, hnil', hwindow⟩
  · exact absurd hnil hne
  · have hlength := congrArg List.length hlong.window
    rw [hwindow, window_of_frames_nil (hlong.frames_eq_nil.2 hnil'), List.length_append,
      List.length_append, List.length_append] at hlength
    show long'.feed.bytes.length < tail.length
    omega

end IsFront

/-! ## Readers that only go forward -/

/-- Whether an action gives no bytes back to the feed, and differs between a front and the whole only
by asking for a byte of the tail. -/
structure Forward {α : Type} (early : α → Prop) (action : Read α) : Prop where
  size_le : ∀ source, (left (action source)).feed.size ≤ source.feed.size
  front : ∀ ⦃tail ending short long⦄, Parts tail ending → IsFront tail ending short long →
    Outruns tail ending early (action short) (action long)

namespace Forward

variable {α β : Type} {early : α → Prop} {early' : β → Prop}

theorem pure (value : α) : Forward early (Pure.pure value) :=
  ⟨fun _ => le_rfl, fun _ _ _ _ _ h => .ok value h⟩

theorem failAt (fault : Fault) (offset : ℕ) :
    Forward early (Read.failAt fault offset : Read α) :=
  ⟨fun _ => le_rfl, fun _ _ _ _ _ h => .error _ h⟩

/-- What follows a value that tells of the end has to stop too. -/
theorem bindEarly {action : Read α} {next : α → Read β} (h : Forward early action)
    (hnext : ∀ value, Forward early' (next value))
    (hearly : ∀ value source, early value → Stopped .finished early' (next value source)) :
    Forward early' (action >>= next) where
  size_le source := by
    have hsource := h.size_le source
    cases hrun : action source with
    | ok value middle =>
      rw [hrun] at hsource
      rw [Read.bind_of_eq_ok hrun]
      exact ((hnext value).size_le middle).trans hsource
    | error error middle =>
      rw [hrun] at hsource
      rw [Read.bind_of_eq_error hrun]
      exact hsource
  front tail ending short long hparts hfront := by
    have hfirst := h.front hparts hfront
    generalize hrun : action short = result at hfirst
    generalize hrun' : action long = result' at hfirst
    cases hfirst with
    | ok value hmiddle =>
      rw [Read.bind_of_eq_ok hrun, Read.bind_of_eq_ok hrun']
      exact (hnext value).front hparts hmiddle
    | error error hmiddle =>
      rw [Read.bind_of_eq_error hrun, Read.bind_of_eq_error hrun']
      exact .error error hmiddle
    | beyond hstopped hasked =>
      -- One side has stopped early and the other has read on into the tail.
      refine .beyond ?_ ?_
      · cases result with
        | ok value middle =>
          obtain ⟨rfl, hvalue⟩ := hstopped
          rw [Read.bind_of_eq_ok hrun]
          exact hearly value middle hvalue
        | error error middle =>
          rw [Read.bind_of_eq_error hrun]
          exact hstopped
      · cases result' with
        | ok value middle =>
          rw [Read.bind_of_eq_ok hrun']
          exact lt_of_le_of_lt ((hnext value).size_le middle) hasked
        | error error' middle =>
          rw [Read.bind_of_eq_error hrun']
          exact hasked

theorem bind {action : Read α} {next : α → Read β} (h : Forward Never action)
    (hnext : ∀ value, Forward early' (next value)) : Forward early' (action >>= next) :=
  h.bindEarly hnext fun _ _ => False.elim

theorem position_bind {next : ℕ → Read α} (h : ∀ start, Forward early (next start)) :
    Forward early (Read.position >>= next) where
  size_le source := (h source.position).size_le source
  front tail ending short long hparts hfront := by
    show Outruns tail ending early (next short.position short) (next long.position long)
    rw [← hfront.position]
    exact (h short.position).front hparts hfront

/-- A change of errors that leaves the failure of a medium as it is. -/
theorem mapError {action : Read α} (h : Forward early action) {change : StreamError → StreamError}
    (hchange : change .unreadable = .unreadable) :
    Forward early (Read.mapError change action) where
  size_le source := by
    have hsource := h.size_le source
    unfold Read.mapError
    cases hrun : action source <;> rw [hrun] at hsource <;> exact hsource
  front tail ending short long hparts hfront := by
    have hfirst := h.front hparts hfront
    unfold Read.mapError
    generalize action short = result, action long = result' at hfirst
    cases hfirst with
    | ok value hmiddle => exact .ok value hmiddle
    | error error hmiddle => exact .error _ hmiddle
    | beyond hstopped hasked =>
      refine .beyond ?_ ?_
      · cases result with
        | ok value middle => exact hstopped
        | error error middle => exact fun hending => by rw [hstopped hending, hchange]
      · cases result' <;> exact hasked

/-! ## Readers of bytes and lines -/

/-- That there is no byte is what tells of the end. -/
theorem nextByte : Forward (· = none) Read.nextByte where
  size_le := feed_size_nextByte
  front tail ending short long hparts hfront := by
    have hlongEnds : long.Ends := .inr hfront.longEnding
    cases hwindow : short.window with
    -- The first byte is in the window, and the tail only adds bytes behind it.
    | cons byte others =>
      obtain ⟨more, hmore⟩ : ∃ more, long.window = byte :: more := by
        rcases hfront.window with ⟨-, hlong⟩ | ⟨-, -, hlong⟩
        · exact ⟨others, hlong.trans hwindow⟩
        · exact ⟨others ++ tail, by rw [hlong, hwindow, List.cons_append]⟩
      obtain ⟨short', hrun, hshort⟩ := nextByte_of_window hwindow
      obtain ⟨long', hrun', hlong⟩ := nextByte_of_window hmore
      rw [hrun, hrun']
      exact .ok _ (hfront.handsOut hshort hlong)
    | nil =>
      -- Both find the end that the window has in a frame, or that the feeds have without a tail.
      have hsame (hends : short.Ends) (hnil : long.window = []) :
          Outruns tail ending (· = none) (Read.nextByte short) (Read.nextByte long) := by
        obtain ⟨short', hrun, hshort⟩ := nextByte_of_window_nil hwindow hends
        obtain ⟨long', hrun', hlong⟩ := nextByte_of_window_nil hnil hlongEnds
        rw [hrun, hrun']
        exact .ok _ (hfront.handsOut hshort hlong)
      rcases hfront.window with ⟨hne, hlong⟩ | ⟨hnil, -, hlong⟩
      · exact hsame (.inl hne) (hlong.trans hwindow)
      · rw [hwindow, List.nil_append] at hlong
        cases htail : tail with
        | nil =>
          have hending : ending = .finished := hparts.resolve_left fun hne => hne htail
          exact htail ▸ hsame (.inr (hfront.shortEnding.trans hending)) (hlong.trans htail)
        | cons byte others =>
          rw [htail] at hlong hfront
          obtain ⟨long', hrun', hlong'⟩ := nextByte_of_window hlong
          rw [hrun']
          -- The longer source takes a byte of the tail, which no feed has without it.
          refine .beyond ?_ (hfront.asked hnil hlong' (by simp [hwindow]))
          cases ending with
          | failure =>
            rw [nextByte_of_failure hwindow (hfront.ends_of_failure hnil)]
            exact fun _ => rfl
          | finished =>
            obtain ⟨short', hrun, -⟩ := nextByte_of_window_nil hwindow (.inr hfront.shortEnding)
            rw [hrun]
            exact ⟨rfl, rfl⟩

/-- Looking for a byte, and what to do with it or without it. -/
theorem nextByte_bind {next : Option UInt8 → Read α} (h : ∀ byte?, Forward early (next byte?))
    (hearly : ∀ source, Stopped .finished early (next none source)) :
    Forward early (Read.nextByte >>= next) :=
  nextByte.bindEarly h fun _ source hnone => hnone ▸ hearly source

theorem byte : Forward Never Read.byte := by
  refine nextByte_bind (fun byte? => ?_) fun source hending => by cases hending
  cases byte? with
  | some byte => exact pure byte
  | none => exact position_bind fun start => failAt _ start

theorem bytes (count : ℕ) : Forward Never (Read.bytes count) where
  size_le source := feed_size_bytes source count
  front tail ending short long hparts hfront := by
    have hlongEnds : long.Ends := .inr hfront.longEnding
    by_cases hcount : count ≤ short.window.length
    · have htake : long.window.take count = short.window.take count := by
        rcases hfront.window with ⟨-, hlong⟩ | ⟨-, -, hlong⟩
        · rw [hlong]
        · rw [hlong, List.take_append_of_le_length hcount]
      have hcount' : count ≤ long.window.length := by
        rcases hfront.window with ⟨-, hlong⟩ | ⟨-, -, hlong⟩
        · rwa [hlong]
        · rw [hlong, List.length_append]
          exact hcount.trans (Nat.le_add_right ..)
      obtain ⟨short', hrun, hshort⟩ := bytes_of_le hcount
      obtain ⟨long', hrun', hlong⟩ := bytes_of_le hcount'
      rw [htake] at hrun' hlong
      rw [hrun, hrun']
      exact .ok _ (hfront.handsOut hshort hlong)
    · rw [not_le] at hcount
      -- Both use up the window where it is the same.
      have hsame (hends : short.Ends) (hwindow : long.window = short.window) :
          Outruns tail ending Never (Read.bytes count short) (Read.bytes count long) := by
        obtain ⟨short', hrun, hshort⟩ := bytes_of_lt hcount hends
        obtain ⟨long', hrun', hlong⟩ := bytes_of_lt (hwindow ▸ hcount) hlongEnds
        rw [hwindow] at hlong
        have hrest := hfront.handsOut hshort hlong
        rw [hrun, hrun', hrest.position]
        exact .error _ hrest
      rcases hfront.window with ⟨hne, hlong⟩ | ⟨hnil, -, hlong⟩
      · exact hsame (.inl hne) hlong
      · cases htail : tail with
        | nil =>
          have hending : ending = .finished := hparts.resolve_left fun hne => hne htail
          rw [htail, List.append_nil] at hlong
          exact htail ▸ hsame (.inr (hfront.shortEnding.trans hending)) hlong
        | cons first others =>
          rw [htail] at hfront hlong
          have hlength : short.window.length < long.window.length := by
            rw [hlong, List.length_append, List.length_cons]
            omega
          have hasked : (left (Read.bytes count long)).feed.size < (first :: others).length := by
            by_cases hcount' : count ≤ long.window.length
            · obtain ⟨long', hrun', hlong'⟩ := bytes_of_le hcount'
              rw [hrun']
              exact hfront.asked hnil hlong' (by rwa [List.length_take_of_le hcount'])
            · obtain ⟨long', hrun', hlong'⟩ := bytes_of_lt (not_le.1 hcount') hlongEnds
              rw [hrun']
              exact hfront.asked hnil hlong' hlength
          refine .beyond ?_ hasked
          cases ending with
          | failure =>
            rw [bytes_of_failure hcount (hfront.ends_of_failure hnil)]
            exact fun _ => rfl
          | finished =>
            obtain ⟨short', hrun, -⟩ := bytes_of_lt hcount (.inr hfront.shortEnding)
            rw [hrun]
            exact fun hending => by cases hending

/-- The first byte of a line is the first thing that is taken for it. -/
theorem feed_size_lineAfter (taken : Bytes) (source : Source) :
    (left (Read.lineAfter taken source)).feed.size ≤ (left (Read.byte source)).feed.size := by
  fun_induction Read.lineAfter taken source with
  | case1 taken source error rest hrun =>
    rw [hrun]
    exact le_rfl
  | case2 | case3 =>
    rw [‹Read.byte _ = .ok _ _›]
    exact le_rfl
  | case4 taken source next rest hrun hnewline ih =>
    rw [hrun]
    exact ih.trans (byte.size_le rest)

theorem lineAfter (taken : Bytes) : Forward Never (Read.lineAfter taken) where
  size_le source := (feed_size_lineAfter taken source).trans (byte.size_le source)
  front tail ending short long hparts hfront := by
    have hbyte := byte.front hparts hfront
    generalize hrun' : Read.byte long = result at hbyte
    fun_induction Read.lineAfter taken short generalizing long result with
    | case1 taken short error short' hrun =>
      rw [hrun] at hbyte
      cases hbyte with
      | error error hrest =>
        rw [Read.lineAfter_of_byte_error hrun']
        exact .error error hrest
      | beyond hstopped hasked =>
        rw [← hrun'] at hasked
        exact .beyond hstopped (lt_of_le_of_lt (feed_size_lineAfter taken long) hasked)
    -- The line ends at this byte, with the return before it taken off.
    | case2 short short' before hrun =>
      rw [hrun] at hbyte
      cases hbyte with
      | beyond hstopped _ => exact hstopped.2.elim
      | ok _ hrest =>
        rw [Read.lineAfter_of_byte hrun', if_pos rfl]
        exact .ok _ hrest
    | case3 taken short short' hne hrun =>
      rw [hrun] at hbyte
      cases hbyte with
      | beyond hstopped _ => exact hstopped.2.elim
      | ok _ hrest =>
        rw [Read.lineAfter_of_byte hrun', if_pos rfl]
        split
        · exact absurd rfl (hne _)
        · exact .ok _ hrest
    | case4 taken short next short' hrun hnewline ih =>
      rw [hrun] at hbyte
      cases hbyte with
      | beyond hstopped _ => exact hstopped.2.elim
      | ok _ hrest =>
        rw [Read.lineAfter_of_byte hrun', if_neg hnewline]
        exact ih _ hrest _ rfl (byte.front hparts hrest)

theorem lineAs (meaning : Bytes → Except LineFault α) : Forward Never (Read.lineAs meaning) := by
  refine position_bind fun start => (lineAfter []).bind fun line => ?_
  split
  · exact pure _
  · exact failAt _ _

/-! ## Readers of arguments -/

theorem text (count : ℕ) : Forward Never (Read.text count) := by
  refine position_bind fun start => (bytes count).bind fun taken => ?_
  split
  · exact pure _
  · exact failAt _ _

theorem littleEndian (width : ℕ) : Forward Never (Read.littleEndian width) :=
  (bytes width).bind fun _ => pure _

theorem int32 : Forward Never Read.int32 := (littleEndian 4).bind fun _ => pure _

theorem length (field : LengthField) : Forward Never (Read.length field) := by
  cases field with
  | u8 => exact byte.bind fun _ => pure _
  | u32 => exact littleEndian 4
  | u64 => exact littleEndian 8
  | i32 =>
    refine position_bind fun start => int32.bind fun value => ?_
    split
    · exact failAt _ _
    · exact pure _

theorem counted (field : LengthField) {payload : ℕ → Read α} (h : ∀ count, Forward Never (payload count)) :
    Forward Never (Read.counted field payload) :=
  (length field).bind fun count => (h count).bind fun _ => pure _

/-- The frame that is entered is the same one. -/
theorem enterFrame (count : ℕ) : Forward Never (Read.enterFrame count) := by
  refine (bytes count).bind fun frame => ⟨fun source => le_rfl, fun _ _ _ _ _ h => ?_⟩
  exact .ok () ⟨congrArg (· - frame.length) h.position, h.pushback, congrArg (frame :: ·) h.frames,
    h.bytes, h.shortEnding, h.longEnding⟩

theorem leaveExhaustedFrames : Forward Never Read.leaveExhaustedFrames where
  size_le source := by
    unfold Read.leaveExhaustedFrames
    split
    · exact le_rfl
    · exact le_rfl
  front tail ending short long _ h := by
    unfold Read.leaveExhaustedFrames
    rw [← h.pushback, ← h.frames]
    split
    · exact .ok _ ⟨h.position, rfl, rfl, h.bytes, h.shortEnding, h.longEnding⟩
    · exact .ok _ h

theorem layout (layout : Layout) : Forward Never layout.read := by
  cases layout with
  | absent => exact pure _
  | u8 => exact byte
  | u16 => exact (littleEndian 2).bind fun _ => pure _
  | u32 => exact (littleEndian 4).bind fun _ => pure _
  | i32 => exact int32
  | frame => exact (littleEndian 8).bind fun count => (enterFrame count).bind fun _ => pure _
  | double => exact (bytes 8).bind fun _ => pure _
  | indexLine => exact lineAs _
  | intLine => exact lineAs _
  | longLine => exact lineAs _
  | floatLine => exact lineAs _
  | quotedLine => exact lineAs _
  | escapedLine => exact lineAs _
  | textLine => exact lineAs _
  | nameLines => exact (lineAs _).bind fun _ => (lineAs _).bind fun _ => pure _
  | bytes field => exact counted field bytes
  | text field => exact counted field text
  | integer field => exact counted field fun count => (bytes count).bind fun _ => pure _

theorem argument (opcode : Opcode) : Forward Never (Read.argument opcode) :=
  ((layout opcode.layout).mapError rfl).bind fun _ => leaveExhaustedFrames.bind fun _ => pure _

/-- Reads the next instruction; that there is none tells of the end. -/
theorem instruction (version : ℕ) : Forward (· = none) (Read.instruction version) := by
  refine position_bind fun start => nextByte_bind (fun byte? => ?_) fun source => ⟨rfl, rfl⟩
  split
  · exact pure none
  · split
    · exact (argument _).bind fun _ => pure _
    · exact failAt _ _

/-- Making sure that no byte follows tells of the end whenever it succeeds. -/
theorem atEnd : Forward (fun _ => True) Read.atEnd := by
  refine nextByte_bind (fun byte? => ?_) fun source => ⟨rfl, trivial⟩
  split
  · exact pure ()
  · exact position_bind fun start => failAt _ start

end Forward

end Source

end Pickle
