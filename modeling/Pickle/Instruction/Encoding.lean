import Pickle.Instruction.Basic
import Pickle.Instruction.Word
import Pickle.Line.Canonical

/-!
# Writing instructions

Every layout has a writer, `Layout.write`, so that an instruction has an encoding: the byte of its
opcode and its argument, lines in their canonical spelling.  A program is written as the encodings
of its instructions, one after the other.

Not every instruction survives being written.  An announced length must be that of the payload and
fit its field, a bare line must not contain its own end, and a NaN has one spelling on a line.
`Instruction.WellFormed` says what is demanded.
-/

namespace Pickle

/-- A length in one of its encodings. -/
def LengthField.write (field : LengthField) (length : Nat) : Bytes :=
  Word.toLittleEndian field.width length

namespace Layout

/-- A line and its end. -/
def writeLine (line : Bytes) : Bytes := line ++ [0x0a]

/-- An argument as bytes.  The bytes of a frame follow it and are no part of it. -/
def write : (layout : Layout) → layout.Argument → Bytes
  | .absent, _ => []
  | .u8, n => [n]
  | .u16, n => Word.toLittleEndian 2 n.toNat
  | .u32, n => Word.toLittleEndian 4 n.toNat
  | .i32, n => Word.toTwosComplement 4 n.toInt
  | .frame, n => Word.toLittleEndian 8 n.toNat
  | .double, x => Word.toBigEndian 8 x.bits.toNat
  | .indexLine, n => writeLine (Line.decimalDigits n.toNat)
  | .intLine, value => writeLine (Line.ofLiteral value)
  | .longLine, value => writeLine (Line.ofLong value)
  | .floatLine, x => writeLine (Line.ofFloat x)
  | .quotedLine, value => writeLine (Line.ofBytes value)
  | .escapedLine, value => writeLine (Line.ofText value)
  | .textLine, value => writeLine (Utf8.encode value)
  | .nameLines, name =>
    writeLine (Utf8.encode name.namespace_) ++ writeLine (Utf8.encode name.name)
  | .bytes field, counted => field.write counted.length ++ counted.payload
  | .text field, counted => field.write counted.length ++ Utf8.encode counted.payload
  | .integer field, counted =>
    field.write counted.length ++ Word.toTwosComplement counted.length counted.payload

/-- What an argument must satisfy to be read back as it is. -/
def WellFormed : (layout : Layout) → layout.Argument → Prop
  | .floatLine, x => x.isNaN → x = Double.nan
  | .textLine, value => Line.IsBare value
  | .nameLines, name => Line.IsBare name.namespace_ ∧ Line.IsBare name.name
  | .bytes field, counted =>
    counted.length = counted.payload.length ∧ counted.length < field.bound
  | .text field, counted =>
    counted.length = counted.payload.utf8ByteSize ∧ counted.length < field.bound
  | .integer field, counted =>
    Word.Fits counted.length counted.payload ∧ counted.length < field.bound
  | .absent, _ | .u8, _ | .u16, _ | .u32, _ | .i32, _ | .frame, _ | .double, _ | .indexLine, _
  | .intLine, _ | .longLine, _ | .quotedLine, _ | .escapedLine, _ => True

end Layout

namespace Instruction

/-- The opcode and the argument as bytes. -/
def encode (instruction : Instruction) : Bytes :=
  instruction.opcode.byte :: instruction.opcode.layout.write instruction.argument

/-- Whether an instruction can be read back from its encoding. -/
def WellFormed (instruction : Instruction) : Prop :=
  instruction.opcode.layout.WellFormed instruction.argument

/-- The encodings of some instructions, one after the other. -/
def encodeAll (program : List Instruction) : Bytes := program.flatMap encode

@[simp] theorem encodeAll_nil : encodeAll [] = [] := rfl

@[simp] theorem encodeAll_cons (instruction : Instruction) (rest : List Instruction) :
    encodeAll (instruction :: rest) = instruction.encode ++ encodeAll rest := rfl

end Instruction

end Pickle
