import Pickle.Instruction.Basic
import Pickle.Instruction.Word
import Pickle.Line.Escape
import Pickle.Stream.Source

/-!
# Reading arguments

Every layout has one reader, `Layout.read`.  A fault of a line stands at the offending byte of the
line, a negative length at the length, and a text that is not UTF-8 at the start of its bytes.
Bytes that end too early are reported where they end.
-/

namespace Pickle

namespace Source.Read

/-- A number of `width` bytes, little-endian. -/
def littleEndian (width : Nat) : Read Nat := return Word.ofLittleEndian (← bytes width)

/-- A four-byte integer with sign. -/
def int32 : Read Int32 := return (UInt32.ofNat (← littleEndian 4)).toInt32

/-- An eight-byte double, big-endian. -/
def double : Read Double := return ⟨UInt64.ofNat (Word.ofBigEndian (← bytes 8))⟩

/-- A length in one of its encodings. -/
def length : LengthField → Read Nat
  | .u8 => return (← byte).toNat
  | .u32 => littleEndian 4
  | .u64 => littleEndian 8
  | .i32 => do
    let start ← position
    let value ← int32
    if value.toInt < 0 then failAt .negativeLength start else return value.toInt.toNat

/-- The bytes up to the next newline, after those in `taken`, the latest of which is first.  Each
byte is one less to come. -/
def lineAfter (taken : Bytes) (source : Source) : EStateM.Result StreamError Source Bytes :=
  match _h : byte source with
  | .error error rest => .error error rest
  | .ok next rest =>
    if next = 0x0a then
      match taken with
      | 0x0d :: before => .ok before.reverse rest
      | _ => .ok taken.reverse rest
    else lineAfter (next :: taken) rest
termination_by source.size
decreasing_by exact Nat.lt_of_lt_of_eq (Nat.lt_succ_self _) (size_of_byte _h).symm

/-- A line, without its newline and a carriage return right before that. -/
def line : Read Bytes := lineAfter []

/-- A line with a meaning. -/
def lineAs {α : Type} (meaning : Bytes → Except LineFault α) : Read α := do
  let start ← position
  match meaning (← line) with
  | .ok value => return value
  | .error fault => failAt fault.fault (start + fault.offset)

/-- A text of `count` bytes. -/
def text (count : Nat) : Read String := do
  let start ← position
  match Utf8.decode (← bytes count) with
  | some text => return text
  | none => failAt .notUtf8 start

/-- A payload with its length in front. -/
def counted {α : Type} (field : LengthField) (payload : Nat → Read α) : Read (Counted α) := do
  let count ← length field
  return ⟨count, ← payload count⟩

end Source.Read

open Source in
/-- Reads an argument of a layout.  Reading the length of a frame enters it. -/
def Layout.read : (layout : Layout) → Source.Read layout.Argument
  | .absent => return ()
  | .u8 => Read.byte
  | .u16 => return UInt16.ofNat (← Read.littleEndian 2)
  | .u32 => return UInt32.ofNat (← Read.littleEndian 4)
  | .i32 => Read.int32
  | .frame => do
    let count ← Read.littleEndian 8
    Read.enterFrame count
    return UInt64.ofNat count
  | .double => Read.double
  | .indexLine => Read.lineAs Line.readIndex
  | .intLine => Read.lineAs Line.readInt
  | .longLine => Read.lineAs Line.readLong
  | .floatLine => Read.lineAs Line.readFloat
  | .quotedLine => Read.lineAs Line.readQuoted
  | .escapedLine => Read.lineAs Line.readEscaped
  | .textLine => Read.lineAs Line.readText
  | .nameLines => do
    let namespace_ ← Read.lineAs Line.readText
    let name ← Read.lineAs Line.readText
    return ⟨namespace_, name⟩
  | .bytes field => Read.counted field Read.bytes
  | .text field => Read.counted field Read.text
  | .integer field => Read.counted field fun count =>
      return Word.ofTwosComplement (← Read.bytes count)

end Pickle
