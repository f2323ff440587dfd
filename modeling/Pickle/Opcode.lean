/-!
# Opcodes

The sixty-eight operations of the pickle format, with the byte that encodes each, its customary
name, and the protocol version that introduced it.

An opcode is *legal* under a version when that version or an earlier one introduced it, so a
decoder for version two refuses the byte strings that version three brought.  `Opcode.byte` is the
table for writing and `Opcode.ofByte?` the one for reading; `Opcode.ofByte?_byte` and
`Opcode.byte_of_ofByte?` say that they agree, so no two opcodes share a byte.
-/

namespace Pickle

/-- An operation of the pickle format. -/
inductive Opcode where
  /-- MARK: begins a bracket on the stack. -/
  | mark
  /-- STOP: ends the pickle; the stack top is its value. -/
  | stop
  /-- POP: drops the stack top. -/
  | pop
  /-- POP_MARK: drops everything back to the latest mark. -/
  | popMark
  /-- DUP: pushes the stack top again. -/
  | dup
  /-- FLOAT: pushes a float written in decimal. -/
  | float
  /-- INT: pushes an integer or boolean written in decimal. -/
  | int
  /-- LONG: pushes an integer written in decimal, with a final `L`. -/
  | long
  /-- NONE: pushes `None`. -/
  | pushNone
  /-- PERSID: pushes the object of a persistent id written on a line. -/
  | persId
  /-- REDUCE: calls a callable with a tuple of arguments. -/
  | reduce
  /-- STRING: pushes a byte string written in quotes. -/
  | string
  /-- UNICODE: pushes a text written with escapes. -/
  | unicode
  /-- APPEND: appends the stack top to the list below it. -/
  | append
  /-- BUILD: gives a state to the object below it. -/
  | build
  /-- GLOBAL: pushes a named constant; two lines. -/
  | global
  /-- DICT: builds a dict from a bracket. -/
  | dict
  /-- GET: pushes a memo entry; index on a line. -/
  | get
  /-- INST: builds an instance of a named class from a bracket. -/
  | inst
  /-- LIST: builds a list from a bracket. -/
  | list
  /-- PUT: memoizes the stack top; index on a line. -/
  | put
  /-- SETITEM: adds a pair to the dict below it. -/
  | setItem
  /-- TUPLE: builds a tuple from a bracket. -/
  | tuple
  /-- BININT: pushes a four-byte signed integer. -/
  | binInt
  /-- BININT1: pushes a one-byte unsigned integer. -/
  | binInt1
  /-- BININT2: pushes a two-byte unsigned integer. -/
  | binInt2
  /-- BINPERSID: replaces a persistent id by its object. -/
  | binPersId
  /-- BINSTRING: pushes a byte string with a four-byte length. -/
  | binString
  /-- SHORT_BINSTRING: pushes a byte string with a one-byte length. -/
  | shortBinString
  /-- BINUNICODE: pushes a text with a four-byte length. -/
  | binUnicode
  /-- EMPTY_DICT: pushes an empty dict. -/
  | emptyDict
  /-- APPENDS: extends a list by a bracket. -/
  | appends
  /-- BINGET: pushes a memo entry; one-byte index. -/
  | binGet
  /-- LONG_BINGET: pushes a memo entry; four-byte index. -/
  | longBinGet
  /-- EMPTY_LIST: pushes an empty list. -/
  | emptyList
  /-- OBJ: builds an instance from a bracket that starts with the class. -/
  | obj
  /-- BINPUT: memoizes the stack top; one-byte index. -/
  | binPut
  /-- LONG_BINPUT: memoizes the stack top; four-byte index. -/
  | longBinPut
  /-- EMPTY_TUPLE: pushes an empty tuple. -/
  | emptyTuple
  /-- SETITEMS: adds a bracket of pairs to a dict. -/
  | setItems
  /-- BINFLOAT: pushes an eight-byte big-endian float. -/
  | binFloat
  /-- PROTO: announces the protocol version. -/
  | proto
  /-- NEWOBJ: instantiates a class with a tuple of arguments. -/
  | newObj
  /-- EXT1: pushes a registered extension; one-byte code. -/
  | ext1
  /-- EXT2: pushes a registered extension; two-byte code. -/
  | ext2
  /-- EXT4: pushes a registered extension; four-byte code. -/
  | ext4
  /-- TUPLE1: builds a tuple of the stack top. -/
  | tuple1
  /-- TUPLE2: builds a tuple of the two topmost items. -/
  | tuple2
  /-- TUPLE3: builds a tuple of the three topmost items. -/
  | tuple3
  /-- NEWTRUE: pushes `True`. -/
  | newTrue
  /-- NEWFALSE: pushes `False`. -/
  | newFalse
  /-- LONG1: pushes a two's complement integer with a one-byte length. -/
  | long1
  /-- LONG4: pushes a two's complement integer with a four-byte length. -/
  | long4
  /-- BINBYTES: pushes bytes with a four-byte length. -/
  | binBytes
  /-- SHORT_BINBYTES: pushes bytes with a one-byte length. -/
  | shortBinBytes
  /-- SHORT_BINUNICODE: pushes a text with a one-byte length. -/
  | shortBinUnicode
  /-- BINUNICODE8: pushes a text with an eight-byte length. -/
  | binUnicode8
  /-- BINBYTES8: pushes bytes with an eight-byte length. -/
  | binBytes8
  /-- EMPTY_SET: pushes an empty set. -/
  | emptySet
  /-- ADDITEMS: adds a bracket of items to a set. -/
  | addItems
  /-- FROZENSET: builds a frozen set from a bracket. -/
  | frozenSet
  /-- NEWOBJ_EX: instantiates a class with arguments and keyword arguments. -/
  | newObjEx
  /-- STACK_GLOBAL: pushes a constant named by two texts on the stack. -/
  | stackGlobal
  /-- MEMOIZE: memoizes the stack top at the number of entries. -/
  | memoize
  /-- FRAME: announces a frame of so many bytes. -/
  | frame
  /-- BYTEARRAY8: pushes a byte array with an eight-byte length. -/
  | byteArray8
  /-- NEXT_BUFFER: pushes the next out-of-band buffer. -/
  | nextBuffer
  /-- READONLY_BUFFER: makes the buffer on top read-only. -/
  | readonlyBuffer
  deriving DecidableEq, Inhabited, Repr

namespace Opcode

/-- The byte that an opcode is encoded with. -/
def byte : Opcode → UInt8
  | .mark => 0x28
  | .stop => 0x2e
  | .pop => 0x30
  | .popMark => 0x31
  | .dup => 0x32
  | .float => 0x46
  | .int => 0x49
  | .long => 0x4c
  | .pushNone => 0x4e
  | .persId => 0x50
  | .reduce => 0x52
  | .string => 0x53
  | .unicode => 0x56
  | .append => 0x61
  | .build => 0x62
  | .global => 0x63
  | .dict => 0x64
  | .get => 0x67
  | .inst => 0x69
  | .list => 0x6c
  | .put => 0x70
  | .setItem => 0x73
  | .tuple => 0x74
  | .binInt => 0x4a
  | .binInt1 => 0x4b
  | .binInt2 => 0x4d
  | .binPersId => 0x51
  | .binString => 0x54
  | .shortBinString => 0x55
  | .binUnicode => 0x58
  | .emptyDict => 0x7d
  | .appends => 0x65
  | .binGet => 0x68
  | .longBinGet => 0x6a
  | .emptyList => 0x5d
  | .obj => 0x6f
  | .binPut => 0x71
  | .longBinPut => 0x72
  | .emptyTuple => 0x29
  | .setItems => 0x75
  | .binFloat => 0x47
  | .proto => 0x80
  | .newObj => 0x81
  | .ext1 => 0x82
  | .ext2 => 0x83
  | .ext4 => 0x84
  | .tuple1 => 0x85
  | .tuple2 => 0x86
  | .tuple3 => 0x87
  | .newTrue => 0x88
  | .newFalse => 0x89
  | .long1 => 0x8a
  | .long4 => 0x8b
  | .binBytes => 0x42
  | .shortBinBytes => 0x43
  | .shortBinUnicode => 0x8c
  | .binUnicode8 => 0x8d
  | .binBytes8 => 0x8e
  | .emptySet => 0x8f
  | .addItems => 0x90
  | .frozenSet => 0x91
  | .newObjEx => 0x92
  | .stackGlobal => 0x93
  | .memoize => 0x94
  | .frame => 0x95
  | .byteArray8 => 0x96
  | .nextBuffer => 0x97
  | .readonlyBuffer => 0x98

/-- The customary name, in upper case. -/
def name : Opcode → String
  | .mark => "MARK"
  | .stop => "STOP"
  | .pop => "POP"
  | .popMark => "POP_MARK"
  | .dup => "DUP"
  | .float => "FLOAT"
  | .int => "INT"
  | .long => "LONG"
  | .pushNone => "NONE"
  | .persId => "PERSID"
  | .reduce => "REDUCE"
  | .string => "STRING"
  | .unicode => "UNICODE"
  | .append => "APPEND"
  | .build => "BUILD"
  | .global => "GLOBAL"
  | .dict => "DICT"
  | .get => "GET"
  | .inst => "INST"
  | .list => "LIST"
  | .put => "PUT"
  | .setItem => "SETITEM"
  | .tuple => "TUPLE"
  | .binInt => "BININT"
  | .binInt1 => "BININT1"
  | .binInt2 => "BININT2"
  | .binPersId => "BINPERSID"
  | .binString => "BINSTRING"
  | .shortBinString => "SHORT_BINSTRING"
  | .binUnicode => "BINUNICODE"
  | .emptyDict => "EMPTY_DICT"
  | .appends => "APPENDS"
  | .binGet => "BINGET"
  | .longBinGet => "LONG_BINGET"
  | .emptyList => "EMPTY_LIST"
  | .obj => "OBJ"
  | .binPut => "BINPUT"
  | .longBinPut => "LONG_BINPUT"
  | .emptyTuple => "EMPTY_TUPLE"
  | .setItems => "SETITEMS"
  | .binFloat => "BINFLOAT"
  | .proto => "PROTO"
  | .newObj => "NEWOBJ"
  | .ext1 => "EXT1"
  | .ext2 => "EXT2"
  | .ext4 => "EXT4"
  | .tuple1 => "TUPLE1"
  | .tuple2 => "TUPLE2"
  | .tuple3 => "TUPLE3"
  | .newTrue => "NEWTRUE"
  | .newFalse => "NEWFALSE"
  | .long1 => "LONG1"
  | .long4 => "LONG4"
  | .binBytes => "BINBYTES"
  | .shortBinBytes => "SHORT_BINBYTES"
  | .shortBinUnicode => "SHORT_BINUNICODE"
  | .binUnicode8 => "BINUNICODE8"
  | .binBytes8 => "BINBYTES8"
  | .emptySet => "EMPTY_SET"
  | .addItems => "ADDITEMS"
  | .frozenSet => "FROZENSET"
  | .newObjEx => "NEWOBJ_EX"
  | .stackGlobal => "STACK_GLOBAL"
  | .memoize => "MEMOIZE"
  | .frame => "FRAME"
  | .byteArray8 => "BYTEARRAY8"
  | .nextBuffer => "NEXT_BUFFER"
  | .readonlyBuffer => "READONLY_BUFFER"

/-- All opcodes, in the order of the versions that introduced them. -/
def all : List Opcode := [
  .mark, .stop, .pop, .popMark, .dup, .float, .int, .long, .pushNone, .persId, .reduce, .string,
  .unicode, .append, .build, .global, .dict, .get, .inst, .list, .put, .setItem, .tuple, .binInt,
  .binInt1, .binInt2, .binPersId, .binString, .shortBinString, .binUnicode, .emptyDict, .appends,
  .binGet, .longBinGet, .emptyList, .obj, .binPut, .longBinPut, .emptyTuple, .setItems,
  .binFloat, .proto, .newObj, .ext1, .ext2, .ext4, .tuple1, .tuple2, .tuple3, .newTrue,
  .newFalse, .long1, .long4, .binBytes, .shortBinBytes, .shortBinUnicode, .binUnicode8,
  .binBytes8, .emptySet, .addItems, .frozenSet, .newObjEx, .stackGlobal, .memoize, .frame,
  .byteArray8, .nextBuffer, .readonlyBuffer]

/-- The opcode that a byte encodes, if any. -/
def ofByte? : UInt8 → Option Opcode
  | 0x28 => some .mark
  | 0x29 => some .emptyTuple
  | 0x2e => some .stop
  | 0x30 => some .pop
  | 0x31 => some .popMark
  | 0x32 => some .dup
  | 0x42 => some .binBytes
  | 0x43 => some .shortBinBytes
  | 0x46 => some .float
  | 0x47 => some .binFloat
  | 0x49 => some .int
  | 0x4a => some .binInt
  | 0x4b => some .binInt1
  | 0x4c => some .long
  | 0x4d => some .binInt2
  | 0x4e => some .pushNone
  | 0x50 => some .persId
  | 0x51 => some .binPersId
  | 0x52 => some .reduce
  | 0x53 => some .string
  | 0x54 => some .binString
  | 0x55 => some .shortBinString
  | 0x56 => some .unicode
  | 0x58 => some .binUnicode
  | 0x5d => some .emptyList
  | 0x61 => some .append
  | 0x62 => some .build
  | 0x63 => some .global
  | 0x64 => some .dict
  | 0x65 => some .appends
  | 0x67 => some .get
  | 0x68 => some .binGet
  | 0x69 => some .inst
  | 0x6a => some .longBinGet
  | 0x6c => some .list
  | 0x6f => some .obj
  | 0x70 => some .put
  | 0x71 => some .binPut
  | 0x72 => some .longBinPut
  | 0x73 => some .setItem
  | 0x74 => some .tuple
  | 0x75 => some .setItems
  | 0x7d => some .emptyDict
  | 0x80 => some .proto
  | 0x81 => some .newObj
  | 0x82 => some .ext1
  | 0x83 => some .ext2
  | 0x84 => some .ext4
  | 0x85 => some .tuple1
  | 0x86 => some .tuple2
  | 0x87 => some .tuple3
  | 0x88 => some .newTrue
  | 0x89 => some .newFalse
  | 0x8a => some .long1
  | 0x8b => some .long4
  | 0x8c => some .shortBinUnicode
  | 0x8d => some .binUnicode8
  | 0x8e => some .binBytes8
  | 0x8f => some .emptySet
  | 0x90 => some .addItems
  | 0x91 => some .frozenSet
  | 0x92 => some .newObjEx
  | 0x93 => some .stackGlobal
  | 0x94 => some .memoize
  | 0x95 => some .frame
  | 0x96 => some .byteArray8
  | 0x97 => some .nextBuffer
  | 0x98 => some .readonlyBuffer
  | _ => none

/-- The opcode with a customary name, if any. -/
def ofName? (name : String) : Option Opcode := all.find? fun op => op.name == name

/-- Every opcode is read back from its byte. -/
theorem ofByte?_byte (op : Opcode) : ofByte? op.byte = some op := by cases op <;> rfl

/-- A byte that reads as an opcode is the byte of that opcode. -/
theorem byte_of_ofByte? {byte : UInt8} {op : Opcode} (h : ofByte? byte = some op) :
    op.byte = byte := by
  unfold ofByte? at h
  split at h <;> cases h <;> rfl

/-- The protocol version that introduced an opcode. -/
def introducedIn : Opcode → Nat
  | .mark | .stop | .pop | .popMark | .dup | .float | .int | .long | .pushNone | .persId |
    .reduce | .string | .unicode | .append | .build | .global | .dict | .get | .inst | .list |
    .put | .setItem | .tuple => 0
  | .binInt | .binInt1 | .binInt2 | .binPersId | .binString | .shortBinString | .binUnicode |
    .emptyDict | .appends | .binGet | .longBinGet | .emptyList | .obj | .binPut | .longBinPut |
    .emptyTuple | .setItems | .binFloat => 1
  | .proto | .newObj | .ext1 | .ext2 | .ext4 | .tuple1 | .tuple2 | .tuple3 | .newTrue |
    .newFalse | .long1 | .long4 => 2
  | .binBytes | .shortBinBytes => 3
  | .shortBinUnicode | .binUnicode8 | .binBytes8 | .emptySet | .addItems | .frozenSet |
    .newObjEx | .stackGlobal | .memoize | .frame => 4
  | .byteArray8 | .nextBuffer | .readonlyBuffer => 5

/-- The highest protocol version. -/
def highestVersion : Nat := 5

/-- Whether an opcode may stand in a pickle of a version. -/
def isLegal (op : Opcode) (version : Nat) : Bool := op.introducedIn ≤ version

/-- The opcode that a byte encodes under a version, if any. -/
def decode? (byte : UInt8) (version : Nat) : Option Opcode :=
  (ofByte? byte).filter fun op => op.isLegal version

end Opcode

end Pickle
