import Pickle.Proofs.Stream.Reading

/-!
# Reading side by side

What a reader makes of a source depends on the *window* of the source alone: the bytes put back and,
behind them, what is left of the innermost frame or, outside frames, of the feed.  Nothing that lies
beyond the window is ever looked at, and bytes that were put back are as good as bytes that were
never taken (`nextByte_of_window`, `bytes_of_le`, `bytes_of_lt`).

So two readers keep abreast when the window of one begins with the window of the other: they take
the same bytes and come to the same value or the same fault, until the shorter window is used up,
and then its reader fails there.  `Coupled` says this of a pair of actions.  It is closed under
sequence, so one law for each reader gives it for all arguments but the length of a frame
(`Coupled.layout`).
-/

namespace Pickle

theorem Feed.take_of_available {feed : Feed} {count : ℕ}
    (h : count ≤ feed.bytes.length ∨ feed.ending = .finished) :
    ∃ rest, feed.take count = some ⟨feed.bytes.take count, rest⟩ ∧
      rest.bytes = feed.bytes.drop count ∧ rest.ending = feed.ending := by
  have hspec := takeFrom_eq_take_drop count [] feed.deliveries
  rw [List.reverse_nil, List.nil_append] at hspec
  obtain ⟨hfront, hleft⟩ := hspec
  refine ⟨⟨(takeFrom count [] feed.deliveries).2, feed.ending⟩, ?_, hleft, rfl⟩
  have henough : ¬ ((feed.bytes.take count).length < count ∧ feed.ending = .failure) := by
    rw [List.length_take]
    rintro ⟨hshort, hfailure⟩
    rcases h with h | h
    · omega
    · rw [hfailure] at h
      cases h
  unfold take
  simp only [hfront]
  exact if_neg henough

theorem Feed.take_of_failure {feed : Feed} {count : ℕ} (h : feed.bytes.length < count)
    (hending : feed.ending = .failure) : feed.take count = none := by
  obtain ⟨hfront, -⟩ := takeFrom_eq_take_drop count [] feed.deliveries
  have hshort : (takeFrom count [] feed.deliveries).1.length < count := by
    rw [hfront, List.reverse_nil, List.nil_append, List.length_take]
    exact lt_of_le_of_lt (Nat.min_le_right ..) h
  unfold take
  exact if_pos ⟨hshort, hending⟩

theorem Feed.pull_of_failure {feed : Feed} (h : feed.bytes = [])
    (hending : feed.ending = .failure) : feed.pull = none := by
  cases hpull : pullFrom feed.deliveries with
  | some pair =>
    obtain ⟨first, others⟩ := pair
    rw [bytes, bytes_of_pullFrom hpull] at h
    cases h
  | none => rw [pull, hpull, hending]

theorem Source.Read.lineAfter_of_byte_error {source rest : Source} {error : StreamError}
    (h : Read.byte source = .error error rest) (taken : Bytes) :
    Read.lineAfter taken source = .error error rest := by
  rw [Read.lineAfter]
  split
  · next heq =>
    rw [h] at heq
    cases heq
    rfl
  · next heq =>
    rw [h] at heq
    cases heq

namespace Source

/-! ## Windows -/

/-- The bytes that can be read without leaving a frame. -/
def window (source : Source) : Bytes :=
  source.pushback ++ source.frames.headD source.feed.bytes

/-- What lies beyond the window: what is left of the enclosing frames, and the feed.  Outside frames
there is nothing. -/
def beyond (source : Source) : List Bytes :=
  match source.frames with
  | [] => []
  | _ :: outer => outer ++ [source.feed.bytes]

/-- Whether the end of the window is an end of bytes, and no failure of the medium. -/
def Ends (source : Source) : Prop := source.frames ≠ [] ∨ source.feed.ending = .finished

theorem beyond_eq_nil {source : Source} : source.beyond = [] ↔ source.frames = [] := by
  unfold beyond
  split
  · next h => simp [h]
  · next h => simp [h]

/-- Whether a source becomes another one by handing out bytes of its window. -/
structure HandsOut (before : Source) (taken : Bytes) (after : Source) : Prop where
  position : after.position = before.position + taken.length
  window : before.window = taken ++ after.window
  beyond : after.beyond = before.beyond
  ending : after.feed.ending = before.feed.ending
  pushback : after.pushback = before.pushback.drop taken.length

namespace HandsOut

variable {before middle after : Source} {taken more : Bytes}

theorem refl (source : Source) : source.HandsOut [] source := ⟨rfl, rfl, rfl, rfl, rfl⟩

theorem trans (first : before.HandsOut taken middle) (second : middle.HandsOut more after) :
    before.HandsOut (taken ++ more) after where
  position := by
    rw [second.position, first.position, List.length_append, Nat.add_assoc]
  window := by rw [first.window, second.window, List.append_assoc]
  beyond := second.beyond.trans first.beyond
  ending := second.ending.trans first.ending
  pushback := by
    rw [second.pushback, first.pushback, List.drop_drop, List.length_append]

theorem frames_eq_nil (h : before.HandsOut taken after) :
    after.frames = [] ↔ before.frames = [] := by
  rw [← beyond_eq_nil, h.beyond, beyond_eq_nil]

theorem ends (h : before.HandsOut taken after) (hends : before.Ends) : after.Ends := by
  rw [Ends, ne_eq, h.frames_eq_nil, h.ending]
  exact hends

/-- Where nothing is put back, nothing is so later. -/
theorem pushback_eq_nil (h : before.HandsOut taken after) (hbefore : before.pushback = []) :
    after.pushback = [] := by rw [h.pushback, hbefore, List.drop_nil]

end HandsOut

section Primitives

variable {source : Source} {count : ℕ}

theorem nextByte_of_window {byte : UInt8} {tail : Bytes} (h : source.window = byte :: tail) :
    ∃ rest, Read.nextByte source = .ok (some byte) rest ∧ source.HandsOut [byte] rest := by
  obtain ⟨feed, position, pushback, frames⟩ := source
  cases pushback with
  | cons head others =>
    obtain ⟨rfl, -⟩ := List.cons.inj h
    exact ⟨⟨feed, position + 1, others, frames⟩, rfl, rfl, rfl, rfl, rfl, rfl⟩
  | nil =>
    cases frames with
    | cons frame outer =>
      cases frame with
      | nil => cases h
      | cons head left =>
        obtain ⟨rfl, -⟩ := List.cons.inj h
        exact ⟨⟨feed, position + 1, [], left :: outer⟩, rfl, rfl, rfl, rfl, rfl, rfl⟩
    | nil =>
      obtain ⟨rest, hpull, hbytes, hending⟩ := Feed.pull_of_bytes h
      refine ⟨⟨rest, position + 1, [], []⟩, ?_, rfl, ?_, rfl, hending, rfl⟩
      · simp only [Read.nextByte, hpull]
      · show feed.bytes = byte :: rest.bytes
        rw [hbytes]
        exact h

theorem nextByte_of_window_nil (h : source.window = []) (hends : source.Ends) :
    ∃ rest, Read.nextByte source = .ok none rest ∧ source.HandsOut [] rest := by
  obtain ⟨feed, position, pushback, frames⟩ := source
  obtain ⟨rfl, hhead⟩ := List.append_eq_nil_iff.1 h
  cases frames with
  | cons frame outer =>
    obtain rfl : frame = [] := hhead
    exact ⟨_, rfl, .refl _⟩
  | nil =>
    have hending : feed.ending = .finished := hends.resolve_left fun hne => hne rfl
    obtain ⟨rest, hpull⟩ := Feed.pull_of_bytes_eq_nil hhead hending
    obtain ⟨hbytes, hsame⟩ := Feed.bytes_of_pull hpull
    refine ⟨⟨rest, position, [], []⟩, ?_, rfl, hbytes, rfl, hsame, rfl⟩
    simp only [Read.nextByte, hpull]

/-- Up to `count` bytes of the window are taken, as long as the medium has them or comes to its
end. -/
theorem upTo_of_window (h : count ≤ source.window.length ∨ source.Ends) :
    ∃ rest, Read.upTo count source = .ok (source.window.take count) rest ∧
      source.HandsOut (source.window.take count)
        { rest with position := rest.position + (source.window.take count).length } := by
  obtain ⟨feed, position, pushback, frames⟩ := source
  have hputBack : Read.putBack count ⟨feed, position, pushback, frames⟩ =
      .ok (pushback.take count) ⟨feed, position, pushback.drop count, frames⟩ := by
    simp [Read.putBack]
  by_cases hcount : count ≤ pushback.length
  · -- All that is asked for has been put back before.
    have hwindow : window ⟨feed, position, pushback, frames⟩ =
        pushback ++ frames.headD feed.bytes := rfl
    have htake : (pushback ++ frames.headD feed.bytes).take count = pushback.take count :=
      List.take_append_of_le_length hcount
    rw [hwindow, htake]
    refine ⟨⟨feed, position, pushback.drop count, frames⟩, ?_, rfl, ?_, rfl, rfl, ?_⟩
    · rw [Read.upTo, Read.bind_of_eq_ok hputBack, if_neg (by simp [hcount])]
      rfl
    · simp [window, ← List.append_assoc]
    · simp [List.length_take, Nat.min_eq_left hcount]
  · -- What was put back is taken first, and the rest from the frame or from the feed.
    have hfront : pushback.take count = pushback := List.take_of_length_le (by omega)
    have hback : pushback.drop count = [] := List.drop_of_length_le (by omega)
    rw [hfront, hback] at hputBack
    have hwindow : (window ⟨feed, position, pushback, frames⟩).take count =
        pushback ++ (frames.headD feed.bytes).take (count - pushback.length) := by
      show (pushback ++ frames.headD feed.bytes).take count = _
      rw [List.take_append, hfront]
    have hdrop : ∀ more : Bytes, pushback.drop (pushback ++ more).length = [] := by
      intro more
      exact List.drop_of_length_le (by simp)
    rw [hwindow, Read.upTo, Read.bind_of_eq_ok hputBack, if_pos (by omega)]
    cases frames with
    | cons frame outer =>
      have havailable : Read.available (count - pushback.length)
          ⟨feed, position, [], frame :: outer⟩ = .ok (frame.take (count - pushback.length))
            ⟨feed, position, [], frame.drop (count - pushback.length) :: outer⟩ := by
        simp [Read.available]
      rw [Read.bind_of_eq_ok havailable]
      exact ⟨_, rfl, rfl, by simp [window], rfl, rfl, (hdrop _).symm⟩
    | nil =>
      have henough : count - pushback.length ≤ feed.bytes.length ∨ feed.ending = .finished := by
        refine h.imp (fun hle => ?_) fun hends => hends.resolve_left fun hne => hne rfl
        have hlength : (window ⟨feed, position, pushback, []⟩).length =
            pushback.length + feed.bytes.length := List.length_append
        omega
      obtain ⟨rest, htake, hrest, hending⟩ := Feed.take_of_available henough
      have havailable : Read.available (count - pushback.length) ⟨feed, position, [], []⟩ =
          .ok (feed.bytes.take (count - pushback.length)) ⟨rest, position, [], []⟩ := by
        simp [Read.available, htake]
      rw [Read.bind_of_eq_ok havailable]
      exact ⟨_, rfl, rfl, by simp [window, hrest], rfl, hending, (hdrop _).symm⟩

theorem bytes_of_le (h : count ≤ source.window.length) :
    ∃ rest, Read.bytes count source = .ok (source.window.take count) rest ∧
      source.HandsOut (source.window.take count) rest := by
  obtain ⟨rest, hupTo, hrest⟩ := upTo_of_window (.inl h)
  have hlength : (source.window.take count).length = count := List.length_take_of_le h
  refine ⟨_, ?_, hrest⟩
  have hmove : (modify fun source' : Source =>
      { source' with position := source'.position + (source.window.take count).length } :
        Read Unit) rest = .ok ()
          { rest with position := rest.position + (source.window.take count).length } := rfl
  rw [Read.bytes, Read.bind_of_eq_ok hupTo, Read.bind_of_eq_ok hmove, if_neg (by omega)]
  rfl

/-- A window that is too short is used up before the reader fails at its end. -/
theorem bytes_of_lt (h : source.window.length < count) (hends : source.Ends) :
    ∃ rest, Read.bytes count source = .error (.malformed .unexpectedEnd rest.position) rest ∧
      source.HandsOut source.window rest := by
  have hreadable : count ≤ source.window.length ∨ source.Ends := .inr hends
  obtain ⟨rest, hupTo, hrest⟩ := upTo_of_window hreadable
  rw [List.take_of_length_le h.le] at hupTo hrest
  refine ⟨_, ?_, hrest⟩
  have hmove : (modify fun source' : Source =>
      { source' with position := source'.position + source.window.length } : Read Unit) rest =
        .ok () { rest with position := rest.position + source.window.length } := rfl
  rw [Read.bytes, Read.bind_of_eq_ok hupTo, Read.bind_of_eq_ok hmove, if_pos h]
  rfl

theorem byte_of_window {byte : UInt8} {tail : Bytes} (h : source.window = byte :: tail) :
    ∃ rest, Read.byte source = .ok byte rest ∧ source.HandsOut [byte] rest := by
  obtain ⟨rest, hnext, hrest⟩ := nextByte_of_window h
  refine ⟨rest, ?_, hrest⟩
  rw [Read.byte, Read.bind_of_eq_ok hnext]
  rfl

theorem byte_of_window_nil (h : source.window = []) (hends : source.Ends) :
    ∃ rest, Read.byte source = .error (.malformed .unexpectedEnd rest.position) rest ∧
      source.HandsOut [] rest := by
  obtain ⟨rest, hnext, hrest⟩ := nextByte_of_window_nil h hends
  refine ⟨rest, ?_, hrest⟩
  rw [Read.byte, Read.bind_of_eq_ok hnext]
  rfl

end Primitives

end Source

/-! ## Two readers -/

/-- Whether two errors are the same, at offsets that correspond when `left` corresponds to
`right`. -/
def StreamError.IsShifted (left right : ℕ) : StreamError → StreamError → Prop
  | .malformed fault offset, .malformed other offset' =>
    fault = other ∧ offset + right = offset' + left
  | .unreadable, .unreadable => True
  | _, _ => False

namespace Source

/-- Whether the window of a source begins with the window of another one, at an offset that
corresponds. -/
structure Beside (left right : ℕ) (short long : Source) : Prop where
  shortEnds : short.Ends
  longEnds : long.Ends
  window : short.window <+: long.window
  position : short.position + right = long.position + left

theorem Beside.handsOut {left right : ℕ} {short long short' long' : Source} {taken : Bytes}
    (h : Beside left right short long) (hshort : short.HandsOut taken short')
    (hlong : long.HandsOut taken long') : Beside left right short' long' where
  shortEnds := hshort.ends h.shortEnds
  longEnds := hlong.ends h.longEnds
  window := by
    have hwindow := h.window
    rw [hshort.window, hlong.window] at hwindow
    exact (List.prefix_append_right_inj taken).1 hwindow
  position := by
    have hposition := h.position
    rw [hshort.position, hlong.position]
    omega

/-- How reading ends from two sources that are beside each other.  Either both hand out the same
bytes, for the same value or the same error; or the first source, which has fewer, is used up.  The
error is then the one that `ended` names for the end of its window. -/
inductive Abreast {α : Type} (left right : ℕ) (ended : ℕ → StreamError) (short long : Source) :
    EStateM.Result StreamError Source α → EStateM.Result StreamError Source α → Prop
  | ok {taken : Bytes} {short' long' : Source} (value : α)
      (hshort : short.HandsOut taken short') (hlong : long.HandsOut taken long') :
      Abreast left right ended short long (.ok value short') (.ok value long')
  | error {taken : Bytes} {short' long' : Source} {error error' : StreamError}
      (hshort : short.HandsOut taken short') (hlong : long.HandsOut taken long')
      (herror : error.IsShifted left right error') :
      Abreast left right ended short long (.error error short') (.error error' long')
  | ended {short' : Source} {result : EStateM.Result StreamError Source α}
      (hne : short.window ≠ long.window) (hshort : short.HandsOut short.window short') :
      Abreast left right ended short long (.error (ended short'.position) short') result

/-- What the first source is good for, the second one is good for too. -/
theorem Abreast.of_ok {α : Type} {left right : ℕ} {ended : ℕ → StreamError}
    {short long short' : Source} {value : α} {result : EStateM.Result StreamError Source α}
    (h : Abreast left right ended short long (.ok value short') result) :
    ∃ taken long', result = .ok value long' ∧ short.HandsOut taken short' ∧
      long.HandsOut taken long' := by
  cases h with
  | ok value hshort hlong => exact ⟨_, _, rfl, hshort, hlong⟩

theorem Abreast.after {α : Type} {left right : ℕ} {ended : ℕ → StreamError}
    {short long short' long' : Source} {taken : Bytes}
    {result result' : EStateM.Result StreamError Source α} (hshort : short.HandsOut taken short')
    (hlong : long.HandsOut taken long') (h : Abreast left right ended short' long' result result') :
    Abreast left right ended short long result result' := by
  cases h with
  | ok value hshort' hlong' => exact .ok value (hshort.trans hshort') (hlong.trans hlong')
  | error hshort' hlong' herror => exact .error (hshort.trans hshort') (hlong.trans hlong') herror
  | ended hne hshort' =>
    refine .ended (fun heq => hne ?_) ?_
    · rw [hshort.window, hlong.window] at heq
      exact List.append_cancel_left heq
    · rw [hshort.window]
      exact hshort.trans hshort'

/-- Whether two actions keep abreast from all sources that are beside each other. -/
def Coupled {α : Type} (left right : ℕ) (ended : ℕ → StreamError) (first second : Read α) : Prop :=
  ∀ ⦃short long⦄, Beside left right short long →
    Abreast left right ended short long (first short) (second long)

namespace Coupled

variable {α β : Type} {left right : ℕ} {ended : ℕ → StreamError}

theorem pure (value : α) : Coupled left right ended (Pure.pure value) (Pure.pure value) :=
  fun short long _ => .ok value (.refl short) (.refl long)

theorem failAt (fault : Fault) {offset offset' : ℕ} (h : offset + right = offset' + left) :
    Coupled left right ended (Read.failAt fault offset : Read α) (Read.failAt fault offset') :=
  fun short long _ => .error (.refl short) (.refl long) ⟨rfl, h⟩

theorem bind {first second : Read α} {next next' : α → Read β}
    (h : Coupled left right ended first second)
    (hnext : ∀ value, Coupled left right ended (next value) (next' value)) :
    Coupled left right ended (first >>= next) (second >>= next') := by
  intro short long hbeside
  have hfirst := h hbeside
  cases hresult : first short with
  | ok value short' =>
    rw [hresult] at hfirst
    obtain ⟨taken, long', hresult', hshort, hlong⟩ := hfirst.of_ok
    rw [Read.bind_of_eq_ok hresult, Read.bind_of_eq_ok hresult']
    exact (hnext value (hbeside.handsOut hshort hlong)).after hshort hlong
  | error error short' =>
    rw [Read.bind_of_eq_error hresult]
    rw [hresult] at hfirst
    cases hresult' : second long with
    | ok value long' =>
      rw [hresult'] at hfirst
      cases hfirst with
      | ended hne hshort => exact .ended hne hshort
    | error error' long' =>
      rw [Read.bind_of_eq_error hresult']
      rw [hresult'] at hfirst
      cases hfirst with
      | error hshort hlong herror => exact .error hshort hlong herror
      | ended hne hshort => exact .ended hne hshort

theorem position_bind {next next' : ℕ → Read α}
    (h : ∀ start start', start + right = start' + left →
      Coupled left right ended (next start) (next' start')) :
    Coupled left right ended (Read.position >>= next) (Read.position >>= next') :=
  fun _ _ hbeside => h _ _ hbeside.position hbeside

/-! ## Readers of bytes and lines -/

/-- Reading reports the end of a window where it is. -/
abbrev atEnd (offset : ℕ) : StreamError := .malformed .unexpectedEnd offset

theorem byte : Coupled left right atEnd Read.byte Read.byte := by
  intro short long hbeside
  cases hwindow : short.window with
  | cons head tail =>
    obtain ⟨more, hlong⟩ := hbeside.window
    rw [hwindow, List.cons_append] at hlong
    obtain ⟨short', hrun, hshort⟩ := byte_of_window hwindow
    obtain ⟨long', hrun', hlong⟩ := byte_of_window hlong.symm
    rw [hrun, hrun']
    exact .ok head hshort hlong
  | nil =>
    obtain ⟨short', hrun, hshort⟩ := byte_of_window_nil hwindow hbeside.shortEnds
    rw [hrun]
    cases hwindow' : long.window with
    | nil =>
      obtain ⟨long', hrun', hlong⟩ := byte_of_window_nil hwindow' hbeside.longEnds
      rw [hrun']
      exact .error hshort hlong ⟨rfl, (hbeside.handsOut hshort hlong).position⟩
    | cons head tail =>
      rw [← hwindow] at hshort
      exact .ended (by simp [hwindow, hwindow']) hshort

theorem bytes (count : ℕ) : Coupled left right atEnd (Read.bytes count) (Read.bytes count) := by
  intro short long hbeside
  obtain ⟨more, hmore⟩ := hbeside.window
  by_cases hcount : count ≤ short.window.length
  · obtain ⟨short', hrun, hshort⟩ := bytes_of_le hcount
    have htake : long.window.take count = short.window.take count := by
      rw [← hmore, List.take_append_of_le_length hcount]
    have hcount' : count ≤ long.window.length := hcount.trans hbeside.window.length_le
    obtain ⟨long', hrun', hlong⟩ := bytes_of_le hcount'
    rw [htake] at hrun' hlong
    rw [hrun, hrun']
    exact .ok _ hshort hlong
  · rw [not_le] at hcount
    obtain ⟨short', hrun, hshort⟩ := bytes_of_lt hcount hbeside.shortEnds
    rw [hrun]
    by_cases hsame : short.window = long.window
    · obtain ⟨long', hrun', hlong⟩ := bytes_of_lt (hsame ▸ hcount) hbeside.longEnds
      rw [hrun']
      rw [← hsame] at hlong
      exact .error hshort hlong ⟨rfl, (hbeside.handsOut hshort hlong).position⟩
    · exact .ended hsame hshort

theorem lineAfter (taken : Bytes) :
    Coupled left right atEnd (Read.lineAfter taken) (Read.lineAfter taken) := by
  intro short long hbeside
  have hbyte := byte hbeside
  fun_induction Read.lineAfter taken short generalizing long with
  | case1 taken short error short' hrun =>
    rw [hrun] at hbyte
    cases hrun' : Read.byte long with
    | ok value long' =>
      rw [hrun'] at hbyte
      cases hbyte with
      | ended hne hshort => exact .ended hne hshort
    | error error' long' =>
      rw [hrun'] at hbyte
      rw [Read.lineAfter_of_byte_error hrun']
      cases hbyte with
      | error hshort hlong herror => exact .error hshort hlong herror
      | ended hne hshort => exact .ended hne hshort
  | case2 short short' before hrun =>
    rw [hrun] at hbyte
    obtain ⟨_, long', hresult, hshort, hlong⟩ := hbyte.of_ok
    rw [Read.lineAfter_of_byte hresult, if_pos rfl]
    exact .ok _ hshort hlong
  | case3 short taken short' hne hrun =>
    rw [hrun] at hbyte
    obtain ⟨_, long', hresult, hshort, hlong⟩ := hbyte.of_ok
    rw [Read.lineAfter_of_byte hresult, if_pos rfl]
    split
    · exact absurd rfl (hne _)
    · exact .ok _ hshort hlong
  | case4 short taken next short' hrun hnewline ih =>
    rw [hrun] at hbyte
    obtain ⟨_, long', hresult, hshort, hlong⟩ := hbyte.of_ok
    rw [Read.lineAfter_of_byte hresult, if_neg hnewline]
    have hbeside' := hbeside.handsOut hshort hlong
    exact (ih hbeside' (byte hbeside')).after hshort hlong

theorem lineAs (meaning : Bytes → Except LineFault α) :
    Coupled left right atEnd (Read.lineAs meaning) (Read.lineAs meaning) := by
  refine position_bind fun start start' hstart => (lineAfter []).bind fun line => ?_
  split
  · exact pure _
  · exact failAt _ (by omega)

/-! ## Readers of arguments -/

theorem text (count : ℕ) : Coupled left right atEnd (Read.text count) (Read.text count) := by
  refine position_bind fun start start' hstart => (bytes count).bind fun taken => ?_
  split
  · exact pure _
  · exact failAt _ hstart

theorem littleEndian (width : ℕ) :
    Coupled left right atEnd (Read.littleEndian width) (Read.littleEndian width) :=
  (bytes width).bind fun _ => pure _

theorem int32 : Coupled left right atEnd Read.int32 Read.int32 :=
  (littleEndian 4).bind fun _ => pure _

theorem double : Coupled left right atEnd Read.double Read.double :=
  (bytes 8).bind fun _ => pure _

theorem length (field : LengthField) :
    Coupled left right atEnd (Read.length field) (Read.length field) := by
  cases field with
  | u8 => exact byte.bind fun _ => pure _
  | u32 => exact littleEndian 4
  | u64 => exact littleEndian 8
  | i32 =>
    refine position_bind fun start start' hstart => int32.bind fun value => ?_
    split
    · exact failAt _ hstart
    · exact pure _

theorem counted (field : LengthField) {payload : ℕ → Read α}
    (h : ∀ count, Coupled left right atEnd (payload count) (payload count)) :
    Coupled left right atEnd (Read.counted field payload) (Read.counted field payload) :=
  (length field).bind fun count => (h count).bind fun _ => pure _

/-- Reading an argument depends on the window alone, unless it opens a new one. -/
theorem layout {layout : Layout} (hframe : layout ≠ .frame) :
    Coupled left right atEnd layout.read layout.read := by
  cases layout with
  | absent => exact pure _
  | u8 => exact byte
  | u16 => exact (littleEndian 2).bind fun _ => pure _
  | u32 => exact (littleEndian 4).bind fun _ => pure _
  | i32 => exact int32
  | frame => exact absurd rfl hframe
  | double => exact double
  | indexLine => exact lineAs _
  | intLine => exact lineAs _
  | longLine => exact lineAs _
  | floatLine => exact lineAs _
  | quotedLine => exact lineAs _
  | escapedLine => exact lineAs _
  | textLine => exact lineAs _
  | nameLines => exact (lineAs _).bind fun _ => (lineAs _).bind fun _ => pure _
  | bytes field => exact counted field bytes
  | text field => exact counted field text
  | integer field => exact counted field fun count => (bytes count).bind fun _ => pure _

end Coupled

end Source

end Pickle
