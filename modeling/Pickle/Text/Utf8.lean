/-!
# Texts in UTF-8

Bytes are lists of octets throughout.  `Utf8.decode` reads a text and refuses bytes that are not
well formed; `Utf8.decodeLossy` never refuses, and puts the replacement character for each
*maximal ill-formed part*: the longest run of octets that begins a well-formed character and
cannot be continued, or else a single octet.

Which octets may follow a lead octet is one table, `Utf8.secondOctets`; all later octets of a
character are plain continuations.
-/

namespace Pickle

/-- A sequence of octets. -/
abbrev Bytes := List UInt8

namespace Utf8

/-- The text that well-formed bytes spell. -/
def decode (bytes : Bytes) : Option String := String.fromUTF8? ⟨bytes.toArray⟩

/-- The bytes of a text. -/
def encode (text : String) : Bytes := text.toUTF8.data.toList

/-- The number of continuations after a lead octet beyond ASCII and the range of the first of
them; no other octet leads. -/
def secondOctets (lead : Nat) : Option (Nat × Nat × Nat) :=
  if lead < 0xc2 then none
  else if lead < 0xe0 then some (1, 0x80, 0xbf)
  else if lead = 0xe0 then some (2, 0xa0, 0xbf)
  else if lead = 0xed then some (2, 0x80, 0x9f)
  else if lead < 0xf0 then some (2, 0x80, 0xbf)
  else if lead = 0xf0 then some (3, 0x90, 0xbf)
  else if lead < 0xf4 then some (3, 0x80, 0xbf)
  else if lead = 0xf4 then some (3, 0x80, 0x8f)
  else none

/-- Takes `count` continuations onto `code`, the first of them between `low` and `high`.  Gives
the finished code, or none where an octet does not fit, and the bytes not taken. -/
def continuations : (count low high code : Nat) → Bytes → Option Nat × Bytes
  | 0, _, _, code, rest => (some code, rest)
  | _ + 1, _, _, _, [] => (none, [])
  | count + 1, low, high, code, octet :: rest =>
    if low ≤ octet.toNat ∧ octet.toNat ≤ high then
      continuations count 0x80 0xbf (code * 64 + octet.toNat % 64) rest
    else (none, octet :: rest)

/-- Taking continuations never lengthens the bytes. -/
theorem length_continuations_le (count low high code : Nat) (bytes : Bytes) :
    (continuations count low high code bytes).2.length ≤ bytes.length := by
  induction count generalizing low high code bytes with
  | zero => simp [continuations]
  | succ count ih =>
    cases bytes with
    | nil => simp [continuations]
    | cons octet rest =>
      simp only [continuations]
      split
      · exact Nat.le_succ_of_le (ih ..)
      · simp

/-- The first character of bytes that begin with `lead`, or none for a maximal ill-formed part,
and the bytes after it. -/
def first (lead : UInt8) (rest : Bytes) : Option Char × Bytes :=
  if lead < 0x80 then (some (Char.ofNat lead.toNat), rest)
  else
    match secondOctets lead.toNat with
    | none => (none, rest)
    | some (count, low, high) =>
      let taken := continuations count low high (lead.toNat % (0x40 >>> count)) rest
      (taken.1.map Char.ofNat, taken.2)

/-- What follows the first character is no longer than what follows its lead octet. -/
theorem length_first_le (lead : UInt8) (rest : Bytes) :
    (first lead rest).2.length ≤ rest.length := by
  unfold first
  split
  · simp
  · split
    · simp
    · exact length_continuations_le ..

/-- The character that stands for what cannot be read. -/
def replacement : Char := Char.ofNat 0xfffd

/-- The characters of any bytes, with the replacement for each maximal ill-formed part. -/
def decodeLossyChars : Bytes → List Char
  | [] => []
  | lead :: rest => (first lead rest).1.getD replacement :: decodeLossyChars (first lead rest).2
termination_by bytes => bytes.length
decreasing_by exact Nat.lt_succ_of_le (length_first_le lead rest)

/-- The text of any bytes, with the replacement for each maximal ill-formed part. -/
def decodeLossy (bytes : Bytes) : String := String.ofList (decodeLossyChars bytes)

end Utf8

end Pickle
