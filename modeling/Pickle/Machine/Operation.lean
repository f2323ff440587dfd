import Pickle.Instruction.Basic
import Pickle.Value.Basic

/-!
# What instructions do

Many opcodes differ only in how their argument is written.  An `Operation` is what remains when
that is left aside: pushing an atom, building a tuple of so many cells, calling, and so on.
`Instruction.operation` is the meaning of an instruction.
-/

namespace Pickle

/-- A container that can start empty. -/
inductive Empty where
  /-- A list. -/
  | list
  /-- A dict. -/
  | dict
  /-- A set. -/
  | set
  deriving DecidableEq, Inhabited, Repr

/-- A container that is made of a bracket. -/
inductive Bracketed where
  /-- A tuple. -/
  | tuple
  /-- A list. -/
  | list
  /-- A frozen set. -/
  | frozenSet
  /-- A dict of alternating keys and values. -/
  | dict
  deriving DecidableEq, Inhabited, Repr

/-- What an instruction does. -/
inductive Operation where
  /-- Ends the program. -/
  | stop
  /-- Does nothing. -/
  | skip
  /-- Begins a bracket. -/
  | mark
  /-- Drops a bracket. -/
  | popMark
  /-- Drops the stack top, or the bracket if it is empty. -/
  | pop
  /-- Pushes the stack top again. -/
  | dup
  /-- Pushes a memo entry. -/
  | fetch (index : Nat)
  /-- Makes the stack top a memo entry, at the next index if none is given. -/
  | memoize (index : Option Nat)
  /-- Pushes an atom. -/
  | push (value : Atom)
  /-- Pushes a byte string that may stand for a text. -/
  | pushString (value : Bytes)
  /-- Builds a tuple of as many cells. -/
  | tupleOf (count : Nat)
  /-- Pushes an empty container. -/
  | pushEmpty (container : Empty)
  /-- Builds a container of a bracket. -/
  | collect (container : Bracketed)
  /-- Appends the stack top to a list. -/
  | append
  /-- Appends a bracket to a list. -/
  | appends
  /-- Adds a bracket to a set. -/
  | addItems
  /-- Adds a pair to a dict. -/
  | setItem
  /-- Adds a bracket of pairs to a dict. -/
  | setItems
  /-- Pushes a constant. -/
  | constant (name : QualifiedName)
  /-- Pushes a constant named on the stack. -/
  | stackConstant
  /-- Calls a callable with a tuple of arguments. -/
  | apply
  /-- Calls a callable with a tuple of arguments and a dict of keyword arguments. -/
  | applyKeywords
  /-- Calls a constant with a bracket of arguments. -/
  | applyConstant (name : QualifiedName)
  /-- Calls the first item of a bracket with the others. -/
  | applyBracket
  /-- Gives a state to an object, or attributes. -/
  | build
  /-- Pushes the object of a persistent id. -/
  | persistent (id : String)
  /-- Replaces a persistent id by its object. -/
  | stackPersistent
  /-- Pushes a registered extension. -/
  | extension (code : Nat)
  /-- Pushes the next out-of-band buffer. -/
  | nextBuffer
  /-- Makes the buffer on top read-only. -/
  | makeReadonly
  deriving DecidableEq, Inhabited, Repr

namespace Operation

/-- Pushes an integer, in the shorter form if it fits. -/
def pushInt (value : Int) : Operation := .push (.scalar (.ofInt value))

/-- What the argument of `INT` pushes. -/
def pushLiteral : Line.IntLiteral → Operation
  | .bool value => .push (.scalar (.bool value))
  | .int value => pushInt value

/-- Pushes a text. -/
def pushText (value : String) : Operation := .push (.scalar (.str value))

/-- Pushes a byte string. -/
def pushBytes (value : Bytes) : Operation := .push (.scalar (.bytes value))

/-- Pushes a float. -/
def pushFloat (value : Double) : Operation := .push (.scalar (.float value))

/-- What an opcode does with its argument. -/
def of : (opcode : Opcode) → opcode.layout.Argument → Operation
  | .stop, _ => .stop
  | .proto, _ => .skip
  | .frame, _ => .skip
  | .mark, _ => .mark
  | .popMark, _ => .popMark
  | .pop, _ => .pop
  | .dup, _ => .dup
  | .get, index => .fetch (UInt32.toNat index)
  | .binGet, index => .fetch (UInt8.toNat index)
  | .longBinGet, index => .fetch (UInt32.toNat index)
  | .put, index => .memoize (some (UInt32.toNat index))
  | .binPut, index => .memoize (some (UInt8.toNat index))
  | .longBinPut, index => .memoize (some (UInt32.toNat index))
  | .memoize, _ => .memoize none
  | .pushNone, _ => .push (.scalar .none)
  | .newTrue, _ => .push (.scalar (.bool true))
  | .newFalse, _ => .push (.scalar (.bool false))
  | .int, value => pushLiteral value
  | .long, value => pushInt value
  | .long1, value => pushInt value.payload
  | .long4, value => pushInt value.payload
  | .binInt, value => pushInt (Int32.toInt value)
  | .binInt1, value => pushInt (UInt8.toNat value)
  | .binInt2, value => pushInt (UInt16.toNat value)
  | .float, value => pushFloat value
  | .binFloat, value => pushFloat value
  | .string, value => .pushString value
  | .binString, value => .pushString value.payload
  | .shortBinString, value => .pushString value.payload
  | .unicode, value => pushText value
  | .binUnicode, value => pushText value.payload
  | .shortBinUnicode, value => pushText value.payload
  | .binUnicode8, value => pushText value.payload
  | .binBytes, value => pushBytes value.payload
  | .shortBinBytes, value => pushBytes value.payload
  | .binBytes8, value => pushBytes value.payload
  | .byteArray8, value => .push (.byteArray { bytes := value.payload })
  | .emptyTuple, _ => .tupleOf 0
  | .tuple1, _ => .tupleOf 1
  | .tuple2, _ => .tupleOf 2
  | .tuple3, _ => .tupleOf 3
  | .tuple, _ => .collect .tuple
  | .emptyList, _ => .pushEmpty .list
  | .list, _ => .collect .list
  | .append, _ => .append
  | .appends, _ => .appends
  | .emptyDict, _ => .pushEmpty .dict
  | .dict, _ => .collect .dict
  | .setItem, _ => .setItem
  | .setItems, _ => .setItems
  | .emptySet, _ => .pushEmpty .set
  | .addItems, _ => .addItems
  | .frozenSet, _ => .collect .frozenSet
  | .global, name => .constant name
  | .stackGlobal, _ => .stackConstant
  | .reduce, _ => .apply
  | .newObj, _ => .apply
  | .newObjEx, _ => .applyKeywords
  | .inst, name => .applyConstant name
  | .obj, _ => .applyBracket
  | .build, _ => .build
  | .persId, id => .persistent id
  | .binPersId, _ => .stackPersistent
  | .ext1, code => .extension (UInt8.toNat code)
  | .ext2, code => .extension (UInt16.toNat code)
  | .ext4, code => .extension (UInt32.toNat code)
  | .nextBuffer, _ => .nextBuffer
  | .readonlyBuffer, _ => .makeReadonly

end Operation

/-- What an instruction does. -/
def Instruction.operation (instruction : Instruction) : Operation :=
  .of instruction.opcode instruction.argument

end Pickle
