import Pickle.Text.Utf8

/-!
# Feeds: bytes as a medium delivers them

A `Feed` is a schedule of what a medium will do when it is asked for bytes: hand over a chunk, be
interrupted, and at last either come to its end or fail for good.  Memory is a feed of one chunk;
an iterator is a feed of chunks of one byte; a slow medium delivers short chunks with
interruptions before them.

Reading asks again after an interruption and goes on to the next chunk when one is used up, so
what is read depends on `Feed.bytes` and the ending alone.
-/

namespace Pickle

/-- One answer of a medium to a request for bytes. -/
inductive Delivery where
  /-- Some bytes, at least one. -/
  | chunk (head : UInt8) (tail : Bytes)
  /-- No bytes, and an invitation to ask again. -/
  | interruption
  deriving DecidableEq, Inhabited, Repr

/-- The bytes of a delivery. -/
def Delivery.bytes : Delivery → Bytes
  | .chunk head tail => head :: tail
  | .interruption => []

/-- The delivery of some bytes, or none of an empty list. -/
def Delivery.ofBytes : Bytes → List Delivery
  | [] => []
  | head :: tail => [.chunk head tail]

/-- What a medium does after its last delivery. -/
inductive Ending where
  /-- It is at its end. -/
  | finished
  /-- It fails whenever it is asked. -/
  | failure
  deriving DecidableEq, Inhabited, Repr

/-- The answers of a medium, in order. -/
structure Feed where
  /-- The deliveries to come. -/
  deliveries : List Delivery
  /-- What comes after them. -/
  ending : Ending
  deriving DecidableEq, Inhabited, Repr

/-- The answer to a request for some bytes, and the feed after it. -/
structure Feed.Answer (α : Type) where
  /-- What was handed over. -/
  value : α
  /-- What is to come. -/
  rest : Feed

namespace Feed

/-- All bytes that a feed still delivers. -/
def bytes (feed : Feed) : Bytes := feed.deliveries.flatMap Delivery.bytes

/-- The number of bytes that a feed still delivers. -/
def size (feed : Feed) : Nat := feed.bytes.length

/-- A medium that hands over all bytes at once. -/
def ofBytes (bytes : Bytes) : Feed := ⟨Delivery.ofBytes bytes, .finished⟩

/-- A medium that hands over one byte at a time. -/
def ofEach (bytes : Bytes) (ending : Ending) : Feed :=
  ⟨bytes.map fun byte => .chunk byte [], ending⟩

@[simp] theorem bytes_ofBytes (bytes : Bytes) : (ofBytes bytes).bytes = bytes := by
  cases bytes <;> simp [ofBytes, Feed.bytes, Delivery.ofBytes, Delivery.bytes]

/-- The next byte of some deliveries; none when they are used up. -/
def pullFrom : List Delivery → Option (UInt8 × List Delivery)
  | [] => none
  | .interruption :: rest => pullFrom rest
  | .chunk head tail :: rest => some (head, Delivery.ofBytes tail ++ rest)

/-- The next byte: none at the end of the feed, and nothing at all from a failing medium. -/
def pull (feed : Feed) : Option (Answer (Option UInt8)) :=
  match pullFrom feed.deliveries with
  | some (byte, rest) => some ⟨some byte, ⟨rest, feed.ending⟩⟩
  | none =>
    match feed.ending with
    | .finished => some ⟨none, ⟨[], .finished⟩⟩
    | .failure => none

/-- The next byte is the first of all bytes to come. -/
theorem bytes_of_pullFrom {deliveries rest : List Delivery} {byte : UInt8}
    (h : pullFrom deliveries = some (byte, rest)) :
    deliveries.flatMap Delivery.bytes = byte :: rest.flatMap Delivery.bytes := by
  induction deliveries with
  | nil => simp [pullFrom] at h
  | cons delivery others ih =>
    cases delivery with
    | interruption => simpa [pullFrom, Delivery.bytes] using ih h
    | chunk head tail =>
      simp only [pullFrom, Option.some.injEq, Prod.mk.injEq] at h
      obtain ⟨rfl, rfl⟩ := h
      cases tail <;> simp [Delivery.bytes, Delivery.ofBytes]

/-- A byte that is handed over is one byte less to come. -/
theorem size_pull {feed rest : Feed} {byte : UInt8}
    (h : feed.pull = some ⟨some byte, rest⟩) : feed.size = rest.size + 1 := by
  unfold pull at h
  split at h
  · next taken left hp =>
    simp only [Option.some.injEq, Answer.mk.injEq] at h
    obtain ⟨rfl, rfl⟩ := h
    simp [size, bytes, bytes_of_pullFrom hp]
  · split at h <;> simp at h

/-- Up to `count` bytes of some deliveries, after those in `taken`, the latest of which is first;
with them what is left.  Fewer are taken only when the deliveries are used up. -/
def takeFrom (count : Nat) (taken : Bytes) : List Delivery → Bytes × List Delivery
  | [] => (taken.reverse, [])
  | .interruption :: rest => takeFrom count taken rest
  | .chunk head tail :: rest =>
    let (front, left) := (head :: tail).splitAt count
    match left with
    | [] => takeFrom (count - front.length) (front.reverse ++ taken) rest
    | next :: others => ((front.reverse ++ taken).reverse, .chunk next others :: rest)

/-- Taking splits the bytes to come at `count`. -/
theorem takeFrom_eq_take_drop (count : Nat) (taken : Bytes) (deliveries : List Delivery) :
    (takeFrom count taken deliveries).1 =
        taken.reverse ++ (deliveries.flatMap Delivery.bytes).take count ∧
      (takeFrom count taken deliveries).2.flatMap Delivery.bytes =
        (deliveries.flatMap Delivery.bytes).drop count := by
  induction deliveries generalizing count taken with
  | nil => simp [takeFrom]
  | cons delivery others ih =>
    cases delivery with
    | interruption => simpa [takeFrom, Delivery.bytes] using ih count taken
    | chunk head tail =>
      have hbytes : (Delivery.chunk head tail :: others).flatMap Delivery.bytes =
          (head :: tail) ++ others.flatMap Delivery.bytes := rfl
      rw [hbytes]
      simp only [takeFrom, List.splitAt_eq]
      split
      · next hleft =>
        have hlen : (head :: tail).length ≤ count := List.drop_eq_nil_iff.1 hleft
        obtain ⟨hfirst, hsecond⟩ :=
          ih (count - ((head :: tail).take count).length)
            (((head :: tail).take count).reverse ++ taken)
        rw [hfirst, hsecond, List.take_of_length_le hlen, List.take_append,
          List.drop_append, hleft, List.take_of_length_le hlen]
        simp
      · next next left hleft =>
        have hlen : count ≤ (head :: tail).length := by
          rcases Nat.lt_or_ge count (head :: tail).length with h | h
          · exact Nat.le_of_lt h
          · simp [List.drop_of_length_le h] at hleft
        rw [List.take_append_of_le_length hlen, List.drop_append_of_le_length hlen, hleft]
        exact ⟨by simp, rfl⟩

/-- Up to `count` bytes, fewer only at the end of the feed; nothing at all from a medium that fails
before it has handed over as many. -/
def take (feed : Feed) (count : Nat) : Option (Answer Bytes) :=
  let (taken, left) := takeFrom count [] feed.deliveries
  if taken.length < count ∧ feed.ending = .failure then none
  else some ⟨taken, ⟨left, feed.ending⟩⟩

/-- Bytes that are handed over are as many fewer to come. -/
theorem size_take {feed rest : Feed} {count : Nat} {taken : Bytes}
    (h : feed.take count = some ⟨taken, rest⟩) : feed.size = rest.size + taken.length := by
  unfold take at h
  have hspec := takeFrom_eq_take_drop count [] feed.deliveries
  split at h
  next taken' left heq =>
  rw [heq] at hspec
  split at h
  · simp at h
  · simp only [Option.some.injEq, Answer.mk.injEq] at h
    obtain ⟨rfl, rfl⟩ := h
    simp only [List.reverse_nil, List.nil_append] at hspec
    simp only [size, bytes]
    rw [hspec.2, hspec.1, List.length_take, List.length_drop]
    omega

end Feed

end Pickle
