import Pickle.Fault
import Pickle.Stream.Feed

/-!
# Sources: a feed with detours

A `Source` hands out the bytes of a pickle in order and knows the offset of the next one.  Two
detours lie in front of its feed: bytes that were *put back* after a look ahead, and *frames*, runs
of announced length that are read ahead as a whole.  While a frame is entered, bytes come from it
alone, and its end is an end of the bytes; when it is exhausted it is left, and the enclosing frame
or the feed continues.

Reading is an action `Source.Read` that keeps its effect on the source also when it fails: bytes
that a failed request took are gone, and the offset tells how many there were.
-/

namespace Pickle

/-- A feed, with bytes put back and frames in front of it. -/
structure Source where
  /-- The feed that the bytes come from in the end. -/
  feed : Feed
  /-- The offset of the next byte from the start of the pickle. -/
  position : Nat
  /-- The bytes put back, the next one first. -/
  pushback : Bytes
  /-- What is left of each entered frame, the innermost first. -/
  frames : List Bytes
  deriving DecidableEq, Inhabited, Repr

namespace Source

/-- An action that reads from a source. -/
abbrev Read := EStateM StreamError Source

/-- A source at the start of a feed. -/
def ofFeed (feed : Feed) : Source := ⟨feed, 0, [], []⟩

/-- The number of entered frames. -/
def depth (source : Source) : Nat := source.frames.length

/-- The number of bytes that a source can still hand out. -/
def size (source : Source) : Nat :=
  source.feed.size + source.pushback.length + source.frames.flatten.length

namespace Read

/-- The offset of the next byte. -/
def position : Read Nat := return (← get).position

/-- Fails with a fault at a given offset. -/
def failAt {α : Type} (fault : Fault) (offset : Nat) : Read α :=
  throw (.malformed fault offset)

/-- Fails with a fault at the offset of the next byte. -/
def fail {α : Type} (fault : Fault) : Read α := do failAt fault (← position)

/-- Runs an action with its error changed. -/
def mapError {α : Type} (change : StreamError → StreamError) (action : Read α) : Read α :=
  fun source =>
    match action source with
    | .ok value source => .ok value source
    | .error error source => .error (change error) source

/-- Takes the next byte, or none at the end of the innermost frame or, outside frames, of the
feed. -/
def nextByte : Read (Option UInt8) := fun source =>
  match source.pushback with
  | byte :: rest =>
    .ok (some byte) { source with pushback := rest, position := source.position + 1 }
  | [] =>
    match source.frames with
    | [] :: _ => .ok none source
    | (byte :: left) :: outer =>
      .ok (some byte) { source with frames := left :: outer, position := source.position + 1 }
    | [] =>
      match source.feed.pull with
      | none => .error .unreadable source
      | some ⟨none, feed⟩ => .ok none { source with feed }
      | some ⟨some byte, feed⟩ =>
        .ok (some byte) { source with feed, position := source.position + 1 }

/-- Takes the next byte, of which there must be one. -/
def byte : Read UInt8 := do
  match ← nextByte with
  | some byte => return byte
  | none => fail .unexpectedEnd

/-- Taking a byte leaves one byte less. -/
theorem size_of_nextByte {source rest : Source} {byte : UInt8}
    (h : nextByte source = .ok (some byte) rest) : source.size = rest.size + 1 := by
  unfold nextByte at h
  split at h
  · next head tail hp =>
    cases h
    simp [size, hp]
    omega
  · split at h
    · cases h
    · next left outer hf =>
      cases h
      simp [size, hf]
      omega
    · split at h
      · cases h
      · cases h
      · next taken feed hfeed =>
        cases h
        simp [size, Feed.size_pull hfeed]
        omega

/-- Taking a byte that must be there leaves one byte less. -/
theorem size_of_byte {source rest : Source} {taken : UInt8}
    (h : byte source = .ok taken rest) : source.size = rest.size + 1 := by
  simp only [byte, bind, EStateM.bind] at h
  split at h
  · next answer after hn =>
    cases answer with
    | none => cases h
    | some byte => cases h; exact size_of_nextByte hn
  · cases h

/-- Takes up to `count` bytes from the innermost frame or, outside frames, the feed.  A medium
that fails on the way leaves the offset as it is, and what it had handed over is lost. -/
def available (count : Nat) : Read Bytes := fun source =>
  match source.frames with
  | frame :: outer =>
    let (taken, left) := frame.splitAt count
    .ok taken { source with frames := left :: outer }
  | [] =>
    match source.feed.take count with
    | some ⟨taken, feed⟩ => .ok taken { source with feed }
    | none => .error .unreadable { source with feed := ⟨[], source.feed.ending⟩ }

/-- Takes up to `count` of the bytes that were put back. -/
def putBack (count : Nat) : Read Bytes := fun source =>
  let (taken, left) := source.pushback.splitAt count
  .ok taken { source with pushback := left }

/-- Takes up to `count` bytes: those put back first, the others from one frame or the feed. -/
def upTo (count : Nat) : Read Bytes := do
  let front ← putBack count
  if front.length < count then return front ++ (← available (count - front.length))
  else return front

/-- Takes exactly `count` bytes.  When there are fewer, all of them are taken before the action
fails. -/
def bytes (count : Nat) : Read Bytes := do
  let taken ← upTo count
  modify fun source => { source with position := source.position + taken.length }
  if taken.length < count then fail .unexpectedEnd else return taken

/-- Puts bytes back, so that they are taken next and in the same order. -/
def unread (bytes : Bytes) : Read Unit :=
  modify fun source =>
    { source with
      pushback := bytes ++ source.pushback
      position := source.position - bytes.length }

/-- Reads the next `count` bytes ahead as a frame and continues with the bytes in it. -/
def enterFrame (count : Nat) : Read Unit := do
  let frame ← bytes count
  -- Reading ahead is not handing out, so the offset goes back to the start of the frame.
  modify fun source =>
    { source with
      frames := frame :: source.frames
      position := source.position - frame.length }

/-- Leaves every frame that is exhausted, from the innermost one, and tells how many there were.
As long as bytes are put back, no frame is left. -/
def leaveExhaustedFrames : Read Nat := fun source =>
  if source.pushback.isEmpty then
    let kept := source.frames.dropWhile List.isEmpty
    .ok (source.frames.length - kept.length) { source with frames := kept }
  else .ok 0 source

end Read

end Source

end Pickle
