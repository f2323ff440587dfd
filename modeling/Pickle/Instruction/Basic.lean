import Pickle.Double
import Pickle.Line.Decimal
import Pickle.Opcode

/-!
# Instructions

Each opcode has an argument of one of eighteen layouts: nothing, a number of fixed width, a line,
a payload of announced length.  `Opcode.layout` says which, `Layout.Argument` what an argument of
that layout is, so that an `Instruction` is an opcode with an argument that fits it.  It has no
behaviour of its own: `Pickle.Machine` gives it a meaning, and its text is for people to read.

A payload keeps the length that announced it.  It is what the bytes said; a reader takes the
payload accordingly, and an instruction that was put together by hand may claim anything.
-/

namespace Pickle

/-- The encodings of an announced length. -/
inductive LengthField where
  /-- One byte. -/
  | u8
  /-- Four bytes with a sign that must not be negative. -/
  | i32
  /-- Four bytes. -/
  | u32
  /-- Eight bytes. -/
  | u64
  deriving DecidableEq, Inhabited, Repr

/-- The number of bytes that encode a length. -/
def LengthField.width : LengthField → Nat
  | .u8 => 1
  | .i32 => 4
  | .u32 => 4
  | .u64 => 8

/-- The lengths that an encoding can announce lie below this bound. -/
def LengthField.bound : LengthField → Nat
  | .u8 => 0x100
  | .i32 => 0x80000000
  | .u32 => 0x100000000
  | .u64 => 0x10000000000000000

/-- A payload and the length that announced it. -/
structure Counted (α : Type) where
  /-- The announced number of bytes. -/
  length : Nat
  /-- What the bytes stand for. -/
  payload : α
  deriving DecidableEq, Inhabited, Repr

/-- The name of a constant: the module it lives in and its own name there. -/
structure QualifiedName where
  /-- The module, or empty. -/
  namespace_ : String
  /-- The name in the module. -/
  name : String
  deriving DecidableEq, Inhabited, Repr

/-- The ways in which an argument is written. -/
inductive Layout where
  /-- No argument. -/
  | absent
  /-- One byte. -/
  | u8
  /-- Two bytes, little-endian. -/
  | u16
  /-- Four bytes, little-endian. -/
  | u32
  /-- Four bytes with sign, little-endian. -/
  | i32
  /-- Eight bytes, little-endian: the length of the frame that follows. -/
  | frame
  /-- Eight bytes of a double, big-endian. -/
  | double
  /-- A line with a memo index. -/
  | indexLine
  /-- A line with an integer or boolean. -/
  | intLine
  /-- A line with a long integer. -/
  | longLine
  /-- A line with a float. -/
  | floatLine
  /-- A line with a quoted byte string. -/
  | quotedLine
  /-- A line with an escaped text. -/
  | escapedLine
  /-- A line with a text. -/
  | textLine
  /-- Two lines, with a module and a name in it. -/
  | nameLines
  /-- Bytes of announced length. -/
  | bytes (length : LengthField)
  /-- A text of announced length in UTF-8. -/
  | text (length : LengthField)
  /-- A two's complement integer of announced length. -/
  | integer (length : LengthField)
  deriving DecidableEq, Inhabited, Repr

/-- What an argument of a layout is. -/
abbrev Layout.Argument : Layout → Type
  | .absent => Unit
  | .u8 => UInt8
  | .u16 => UInt16
  | .u32 => UInt32
  | .i32 => Int32
  | .frame => UInt64
  | .double => Double
  | .indexLine => UInt32
  | .intLine => Line.IntLiteral
  | .longLine => Int
  | .floatLine => Double
  | .quotedLine => Bytes
  | .escapedLine => String
  | .textLine => String
  | .nameLines => QualifiedName
  | .bytes _ => Counted Bytes
  | .text _ => Counted String
  | .integer _ => Counted Int

/-- The text of an argument after the name of the opcode; empty where there is none. -/
def Layout.argumentText : (layout : Layout) → layout.Argument → String
  | .absent, _ => ""
  | .u8, n => " " ++ toString n.toNat
  | .u16, n => " " ++ toString n.toNat
  | .u32, n => " " ++ toString n.toNat
  | .i32, n => " " ++ toString n.toInt
  | .frame, n => " " ++ toString n.toNat
  | .double, x => " " ++ x.text
  | .indexLine, n => " " ++ toString n.toNat
  | .intLine, .bool value => if value then " True" else " False"
  | .intLine, .int value => " " ++ toString value
  | .longLine, value => " " ++ toString value
  | .floatLine, x => " " ++ x.text
  | .quotedLine, value => " " ++ Text.quoted (Utf8.decodeLossy value)
  | .escapedLine, value => " " ++ Text.quoted value
  | .textLine, value => " " ++ Text.quoted value
  | .nameLines, value => " " ++ value.namespace_ ++ " " ++ value.name
  | .bytes _, counted => " b" ++ Text.byteList counted.payload
  | .text _, counted => " " ++ Text.quoted counted.payload
  | .integer _, counted => " " ++ toString counted.payload

/-- The layout of the argument of an opcode. -/
def Opcode.layout : Opcode → Layout
  | .proto | .binGet | .binPut | .binInt1 | .ext1 => .u8
  | .binInt2 | .ext2 => .u16
  | .longBinGet | .longBinPut | .ext4 => .u32
  | .binInt => .i32
  | .frame => .frame
  | .binFloat => .double
  | .get | .put => .indexLine
  | .int => .intLine
  | .long => .longLine
  | .float => .floatLine
  | .string => .quotedLine
  | .unicode => .escapedLine
  | .persId => .textLine
  | .global | .inst => .nameLines
  | .shortBinString | .shortBinBytes => .bytes .u8
  | .binString => .bytes .i32
  | .binBytes => .bytes .u32
  | .binBytes8 | .byteArray8 => .bytes .u64
  | .shortBinUnicode => .text .u8
  | .binUnicode => .text .u32
  | .binUnicode8 => .text .u64
  | .long1 => .integer .u8
  | .long4 => .integer .i32
  | .mark | .stop | .pop | .popMark | .dup | .pushNone | .newTrue | .newFalse | .memoize
  | .emptyTuple | .tuple | .tuple1 | .tuple2 | .tuple3 | .emptyList | .list | .append
  | .appends | .emptyDict | .dict | .setItem | .setItems | .emptySet | .addItems | .frozenSet
  | .stackGlobal | .reduce | .build | .obj | .newObj | .newObjEx | .binPersId | .nextBuffer
  | .readonlyBuffer => .absent

/-! ## Instructions -/

/-- An opcode and its argument. -/
structure Instruction where
  /-- What to do. -/
  opcode : Opcode
  /-- What to do it with. -/
  argument : opcode.layout.Argument

namespace Instruction

/-- The customary name of the opcode. -/
def name (instruction : Instruction) : String := instruction.opcode.name

/-- The name and, if there is one, the argument. -/
def text (instruction : Instruction) : String :=
  instruction.name ++ instruction.opcode.layout.argumentText instruction.argument

end Instruction

end Pickle
