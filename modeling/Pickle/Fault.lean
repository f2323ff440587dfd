import Pickle.Opcode
import Pickle.Text.Quoted
import Pickle.Text.Utf8

/-!
# Faults of a pickle stream

A `Fault` is a reason why bytes are no pickle, and `Fault.message` its wording.  Readers of a line
report a fault together with its place in the line (`LineFault`); readers of a stream turn the
place into an offset of the whole stream (`StreamError`), or report that the medium itself failed.
-/

namespace Pickle

/-- The numbers that are written in decimal on a line. -/
inductive NumericField where
  /-- The argument of `INT`. -/
  | int
  /-- The argument of `LONG`. -/
  | long
  /-- The argument of `FLOAT`. -/
  | float
  /-- The argument of `GET` and `PUT`. -/
  | memoIndex
  deriving DecidableEq, Inhabited, Repr

/-- How a message names the number. -/
def NumericField.name : NumericField → String
  | .int => "INT"
  | .long => "LONG"
  | .float => "FLOAT"
  | .memoIndex => "memo index"

/-- A reason why bytes are no pickle. -/
inductive Fault where
  /-- The byte is no opcode, or none of the version in use. -/
  | unknownOpcode (byte : UInt8) (version : Nat)
  /-- The bytes end where one was demanded. -/
  | unexpectedEnd
  /-- The bytes, or those of the frame, end inside the argument of the opcode. -/
  | truncatedArgument (opcode : Opcode)
  /-- The version is above the highest one. -/
  | unsupportedProtocol (version : UInt8)
  /-- The version cannot be told from this byte. -/
  | uninferableOpcode (byte : UInt8)
  /-- The byte is not part of a number. -/
  | nonNumeric (field : NumericField) (byte : UInt8)
  /-- The bytes follow a backslash and are no escape. -/
  | invalidEscape (escape : Bytes)
  /-- The line is not enclosed in a pair of quotes. -/
  | missingQuote (line : Bytes)
  /-- Every byte of the literal may stand in a number, but the whole is none. -/
  | invalidLiteral (literal : Bytes)
  /-- A length with sign is below zero. -/
  | negativeLength
  /-- The bytes of a text are not well-formed UTF-8. -/
  | notUtf8
  /-- Bytes follow the end of the pickle. -/
  | trailingBytes
  deriving DecidableEq, Inhabited, Repr

/-- The wording of a fault. -/
def Fault.message : Fault → String
  | .unknownOpcode byte version =>
    "invalid opcode " ++ Text.hexByte byte ++ " for protocol " ++ toString version
  | .unexpectedEnd => "EOF while parsing"
  | .truncatedArgument opcode => "EOF while reading the argument of " ++ opcode.name
  | .unsupportedProtocol version => "unsupported protocol " ++ toString version.toNat
  | .uninferableOpcode byte =>
    "cannot infer protocol version from opcode " ++ Text.hexByte byte
  | .nonNumeric field byte =>
    "non-numeric character " ++ Text.quotedChar (Char.ofNat byte.toNat) ++ " while reading "
      ++ field.name
  | .invalidEscape escape => "invalid backslash escape: \\" ++ Utf8.decodeLossy escape
  | .missingQuote line => "string is not quoted: " ++ Utf8.decodeLossy line
  | .invalidLiteral literal => "literal is invalid: " ++ Utf8.decodeLossy literal
  | .negativeLength => "negative length prefix"
  | .notUtf8 => "string is not UTF-8 encoded"
  | .trailingBytes => "trailing bytes found"

/-- A fault of a line, and where in the line it is. -/
structure LineFault where
  /-- What is wrong. -/
  fault : Fault
  /-- The number of bytes before the offending one. -/
  offset : Nat
  deriving DecidableEq, Inhabited, Repr

/-- Why a stream cannot be read on. -/
inductive StreamError where
  /-- The medium failed to deliver a byte that was demanded. -/
  | unreadable
  /-- The bytes are no pickle; the offset counts from the start of the stream. -/
  | malformed (fault : Fault) (offset : Nat)
  deriving DecidableEq, Inhabited, Repr

/-- The wording of a stream error. -/
def StreamError.message : StreamError → String
  | .unreadable => "reader failed"
  | .malformed fault offset =>
    "format error at offset " ++ toString offset ++ ": " ++ fault.message

end Pickle
