import Pickle.Fault
import Pickle.Value.Basic

/-!
# Errors

Three things can go wrong between bytes and a typed value: the stream is no pickle or cannot be
read (`StreamError`), an instruction cannot be carried out (`Failure`), or a value is not of the
shape that is asked for (`Mismatch`).  An `Error` is one of the three; a failure also tells which
operation was under way, unless there was none.

The wording of each is one function, `message`.
-/

namespace Pickle

/-- What is wrong with the arguments of a routine. -/
inductive ArgumentFault where
  /-- The routine takes no keyword arguments. -/
  | unexpectedKeyword (routine name : String)
  /-- The argument has no items. -/
  | notIterable (routine : String) (value : Value)
  /-- There are more arguments than one. -/
  | tooMany (routine : String) (count : Nat)
  /-- The character has no Latin-1 byte. -/
  | notLatin1 (character : Char)
  /-- The codec is not known. -/
  | unknownEncoding (name : String)
  /-- The item is no byte. -/
  | notByte (routine : String) (item : Value)
  /-- The arguments, of which this is the first, make no bytes. -/
  | notConvertible (routine : String) (value : Value)
  /-- There are not exactly a class, a base and a state. -/
  | reconstruction
  /-- There is not exactly a text, and perhaps a codec. -/
  | encoding
  /-- What a routine of the host says. -/
  | custom (reason : String)
  deriving Inhabited

/-- The wording of an argument fault. -/
def ArgumentFault.message : ArgumentFault → String
  | .unexpectedKeyword routine name =>
    routine ++ "() got an unexpected keyword argument " ++ Text.quoted name
  | .notIterable routine value => routine ++ "() argument is not iterable: " ++ value.text
  | .tooMany routine count =>
    routine ++ "() takes at most 1 argument (" ++ toString count ++ " given)"
  | .notLatin1 character =>
    "character " ++ Text.quotedChar character ++ " cannot be encoded as latin-1"
  | .unknownEncoding name => "unknown encoding " ++ Text.quoted name
  | .notByte routine item => routine ++ "() item out of range: " ++ item.text
  | .notConvertible routine value => routine ++ "() cannot convert " ++ value.text
  | .reconstruction => "_reconstructor() takes exactly 3 arguments"
  | .encoding => "encode() takes a string and an encoding name"
  | .custom reason => reason

/-- What an instruction demands of the stack top. -/
inductive Demand where
  /-- A text. -/
  | text
  /-- A tuple of arguments. -/
  | arguments
  /-- A dict of keyword arguments. -/
  | keywords
  /-- A text that names a keyword argument. -/
  | keyword
  /-- A buffer. -/
  | buffer
  deriving DecidableEq, Inhabited, Repr

/-- How a message names a demand. -/
def Demand.name : Demand → String
  | .text => "string"
  | .arguments => "tuple"
  | .keywords => "dict"
  | .keyword => "keyword string"
  | .buffer => "buffer"

/-- Why an instruction cannot be carried out. -/
inductive Failure where
  /-- A byte string that should be a text is not UTF-8. -/
  | notUtf8
  /-- The stack holds too little, or there is no mark. -/
  | stackUnderflow
  /-- The stack top is not what the instruction demands. -/
  | invalidStackTop (demand : Demand) (found : Kind)
  /-- The instruction cannot put its operand onto the target; an operand without a kind is a
  bracket of items. -/
  | invalidTarget (opcode : Opcode) (target : Kind) (operand : Option Kind)
  /-- A key or set item is a value that is no key. -/
  | unhashable
  /-- A container contains itself. -/
  | recursive
  /-- Containers are nested beyond the limit. -/
  | nestingTooDeep (limit : Nat)
  /-- The value has more nodes than the limit. -/
  | tooManyValues (limit : Nat)
  /-- The memo has no entry of this index. -/
  | missingMemo (index : Nat)
  /-- No extension is registered under this code. -/
  | unknownExtension (code : Nat)
  /-- There are no out-of-band buffers. -/
  | missingBuffers
  /-- All out-of-band buffers have been used. -/
  | buffersExhausted
  /-- What is called is no class and no callable.  A call without an instruction has no opcode. -/
  | notCallable (opcode : Option Opcode) (found : Kind)
  /-- A routine cannot handle its arguments. -/
  | invalidArguments (fault : ArgumentFault)
  /-- Nothing loads the persistent id. -/
  | persistentLoad (id : Value)
  /-- The instructions end without a stop. -/
  | missingStop
  deriving Inhabited

/-- The wording of a failure. -/
def Failure.message : Failure → String
  | .notUtf8 => "string is not UTF-8 encoded"
  | .stackUnderflow => "pickle stack underflow"
  | .invalidStackTop demand found =>
    "invalid stack top, expected " ++ demand.name ++ ", got " ++ found.name
  | .invalidTarget opcode target operand =>
    "cannot apply " ++ opcode.name ++ " with " ++ (operand.map Kind.name).getD "items"
      ++ " onto " ++ target.name
  | .unhashable => "dict key or set item not hashable"
  | .recursive => "recursive structure found"
  | .nestingTooDeep limit => "containers nested deeper than " ++ toString limit ++ " levels"
  | .tooManyValues limit => "unpickled value exceeds " ++ toString limit ++ " nodes"
  | .missingMemo index => "missing memo with id " ++ toString index
  | .unknownExtension code => "unknown extension code " ++ toString code
  | .missingBuffers => "pickle stream refers to out-of-band data but no buffers were given"
  | .buffersExhausted => "not enough out-of-band buffers"
  | .notCallable opcode found =>
    "cannot execute " ++ (opcode.map Opcode.name).getD "call" ++ " on a non-callable: "
      ++ found.name
  | .invalidArguments fault => "invalid arguments: " ++ fault.message
  | .persistentLoad id => "no persistent loader for persistent id " ++ id.text
  | .missingStop => "stream ended without a STOP opcode"

/-- What a value showed itself as where something else was expected. -/
inductive Seen where
  /-- A boolean. -/
  | bool (value : Bool)
  /-- An integer. -/
  | integer (value : Int)
  /-- A float. -/
  | float (value : Double)
  /-- A text. -/
  | str (value : String)
  /-- Bytes of any kind. -/
  | bytes
  /-- The value `None`. -/
  | unit
  /-- A value with items. -/
  | sequence
  /-- A value with keys. -/
  | map
  /-- A wrapped value. -/
  | wrapper
  deriving DecidableEq, Inhabited, Repr

/-- The wording of what was seen.  A whole float keeps a fraction. -/
def Seen.message : Seen → String
  | .bool value => "boolean `" ++ (if value then "true" else "false") ++ "`"
  | .integer value => "integer `" ++ toString value ++ "`"
  | .float value => "floating point `" ++ value.pointedText ++ "`"
  | .str value => "string " ++ Text.quoted value
  | .bytes => "byte array"
  | .unit => "unit value"
  | .sequence => "sequence"
  | .map => "map"
  | .wrapper => "newtype struct"

/-- Why a value is not of the shape that is asked for. -/
inductive Mismatch where
  /-- The value is no key. -/
  | unhashable
  /-- An integer needs more than 64 bits. -/
  | tooLarge
  /-- A variant has no data, but its shape demands some. -/
  | nothingLeft
  /-- The value does not spell a variant. -/
  | notVariant
  /-- The value is of another kind. -/
  | wrongType (seen : Seen) (expected : String)
  /-- The value is of the right kind, but out of range or malformed. -/
  | wrongValue (seen : Seen) (expected : String)
  /-- There are too few items. -/
  | wrongLength (count : Nat) (expected : String)
  /-- A field has no value. -/
  | missingField (name : String)
  /-- A field has two values. -/
  | duplicateField (name : String)
  /-- There is no variant of this name. -/
  | unknownVariant (name : String) (variants : List String)
  /-- What a routine of the host says. -/
  | custom (reason : String)
  deriving Inhabited, Repr

/-- The wording of what might have been given instead. -/
def alternatives : List String → String
  | [] => "there are no variants"
  | [name] => "expected `" ++ name ++ "`"
  | [first, second] => "expected `" ++ first ++ "` or `" ++ second ++ "`"
  | names =>
    "expected one of " ++ String.intercalate ", " (names.map fun name => "`" ++ name ++ "`")

/-- The wording of a mismatch. -/
def Mismatch.message : Mismatch → String
  | .unhashable => "dict key or set item not hashable"
  | .tooLarge => "integer too large"
  | .nothingLeft => "no value left to deserialize"
  | .notVariant => "enums must be tuples, strings or 1-entry dicts"
  | .wrongType seen expected => "invalid type: " ++ seen.message ++ ", expected " ++ expected
  | .wrongValue seen expected => "invalid value: " ++ seen.message ++ ", expected " ++ expected
  | .wrongLength count expected => "invalid length " ++ toString count ++ ", expected " ++ expected
  | .missingField name => "missing field `" ++ name ++ "`"
  | .duplicateField name => "duplicate field `" ++ name ++ "`"
  | .unknownVariant name variants =>
    "unknown variant `" ++ name ++ "`, " ++ alternatives variants
  | .custom reason => reason

/-- What went wrong between bytes and a typed value. -/
inductive Error where
  /-- The stream is no pickle, or cannot be read. -/
  | stream (error : StreamError)
  /-- An instruction could not be carried out; the name is that of the operation under way. -/
  | execution (failure : Failure) (operation : Option String)
  /-- A value is not of the shape that is asked for. -/
  | shape (mismatch : Mismatch)
  deriving Inhabited

namespace Error

/-- The wording of an error. -/
def message : Error → String
  | .stream error => error.message
  | .execution failure none => "deserialization error: " ++ failure.message
  | .execution failure (some operation) =>
    "deserialization error in " ++ operation ++ ": " ++ failure.message
  | .shape mismatch => "decoding error: " ++ mismatch.message

/-- The error, told as one of an operation unless it names one already. -/
def during (operation : String) : Error → Error
  | .execution failure none => .execution failure (some operation)
  | error => error

/-- A failure outside of any operation. -/
def ofFailure (failure : Failure) : Error := .execution failure none

end Error

end Pickle
