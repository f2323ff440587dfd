import Pickle.Stream.Consumption

/-!
# Which version a stream is written in

From version two on, a pickle starts by announcing its version.  The two older versions announce
nothing and share many opcodes, so a look ahead goes from opcode to opcode, over the lines that
some of them have, until one turns up that tells.  A stream of shared opcodes alone counts as
version zero as soon as it stops.

Whatever the look ahead finds, it puts back every byte it took (`Source.Read.inferVersion`).
-/

namespace Pickle

/-- What the next byte of a look ahead is. -/
inductive LookAhead where
  /-- An opcode. -/
  | opcode
  /-- Part of a line, `later` whole lines being left to skip after it. -/
  | line (later : Nat)
  /-- The version that was announced. -/
  | version
  deriving DecidableEq, Inhabited, Repr

/-- What a byte of a look ahead tells. -/
inductive LookAhead.Finding where
  /-- The version. -/
  | version (version : UInt8)
  /-- Nothing yet. -/
  | next (stage : LookAhead)
  /-- That no version can be told. -/
  | unknown (fault : Fault)
  deriving DecidableEq, Inhabited, Repr

/-- Opcodes that tell nothing, with the number of lines of their arguments. -/
def Opcode.sharedLines? : Opcode → Option Nat
  | .mark | .popMark | .pushNone | .reduce | .append | .build | .setItem | .tuple => some 0
  | .int | .long => some 1
  | .global => some 2
  | _ => none

/-- The version that an opcode tells by itself.  Most of them belong to one of the two older versions
only; the end of a stream counts for version zero. -/
def Opcode.toldVersion? : Opcode → Option UInt8
  | .stop => some 0
  | .pop | .dup | .float | .string | .unicode | .dict | .get | .list | .put | .inst | .persId =>
    some 0
  | .emptyTuple | .binFloat | .binInt | .binInt1 | .binInt2 | .binString | .shortBinString
  | .binUnicode | .emptyList | .appends | .binGet | .longBinGet | .binPut | .longBinPut | .setItems
  | .emptyDict | .obj | .binPersId => some 1
  | _ => none

namespace LookAhead

/-- The stage at the first of some lines, or at an opcode if there are none. -/
def skip : Nat → LookAhead
  | 0 => .opcode
  | later + 1 => .line later

/-- What an opcode tells. -/
def ofOpcode (byte : UInt8) : Finding :=
  match Opcode.ofByte? byte with
  | none => .unknown (.uninferableOpcode byte)
  -- The version is the byte behind it.
  | some .proto => .next .version
  | some op =>
    match op.sharedLines? with
    | some lines => .next (skip lines)
    | none =>
      match op.toldVersion? with
      | some found => .version found
      | none => .unknown (.uninferableOpcode byte)

/-- What a byte tells. -/
def step : LookAhead → UInt8 → Finding
  | .opcode, byte => ofOpcode byte
  | .line later, byte => .next (if byte = 0x0a then skip later else .line later)
  | .version, byte => .version byte

/-- How a look ahead ended. -/
structure Outcome where
  /-- The version, or why there is none. -/
  verdict : Except StreamError UInt8
  /-- The bytes that were taken, the latest first. -/
  taken : Bytes
  /-- The source without them. -/
  source : Source

open Source.Read in
/-- Looks ahead from a stage until a version, a fault or the end of the bytes is found. -/
def run (stage : LookAhead) (taken : Bytes) (source : Source) : Outcome :=
  match _h : nextByte source with
  | .error error rest => ⟨.error error, taken, rest⟩
  | .ok none rest => ⟨.error (.malformed .unexpectedEnd rest.position), taken, rest⟩
  | .ok (some byte) rest =>
    match stage.step byte with
    | .version found => ⟨.ok found, byte :: taken, rest⟩
    | .unknown fault => ⟨.error (.malformed fault source.position), byte :: taken, rest⟩
    | .next stage => run stage (byte :: taken) rest
termination_by source.size
decreasing_by exact Nat.lt_of_lt_of_eq (Nat.lt_succ_self _) (size_of_nextByte _h).symm

end LookAhead

namespace Source.Read

/-- The version of the pickle at the source, which is left as it was found. -/
def inferVersion : Read UInt8 := fun source =>
  let outcome := LookAhead.run .opcode [] source
  match unread outcome.taken.reverse outcome.source, outcome.verdict with
  | .ok () source, .ok version => .ok version source
  | .ok () source, .error error => .error error source
  | .error error source, _ => .error error source

end Source.Read

end Pickle
