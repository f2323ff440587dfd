import Pickle.Line.Decimal
import Pickle.Line.Escape

/-!
# Canonical spellings

A number, a byte string or a text has many spellings on a line; one of them is *canonical*.  It is
pure ASCII without control characters, so it never ends its line too early.

Integers are written without a plus sign and without zeros in front, so the canonical spellings of
zero and one are no booleans.  A finite float is written exactly, as an integer and a power of ten:
every binary fraction is a decimal one, since `m / 2 ^ k = m * 5 ^ k / 10 ^ k`.  In strings and
texts every character that is not printable ASCII is an escape, in the shortest form that holds
it.
-/

namespace Pickle.Line

/-! ## Numbers -/

/-- The decimal digits of a number, without zeros in front. -/
def decimalDigits (n : Nat) : Bytes :=
  if n < 10 then [UInt8.ofNat (0x30 + n)]
  else decimalDigits (n / 10) ++ [UInt8.ofNat (0x30 + n % 10)]

/-- A minus in front of a negative number. -/
def withSign (negative : Bool) (size : Bytes) : Bytes := if negative then 0x2d :: size else size

/-- The canonical spelling of an integer. -/
def ofInt (i : Int) : Bytes := withSign (decide (i < 0)) (decimalDigits i.natAbs)

/-- The canonical argument of `INT`. -/
def ofLiteral : IntLiteral → Bytes
  | .bool false => [0x30, 0x30]
  | .bool true => [0x30, 0x31]
  | .int value => ofInt value

/-- The canonical argument of `LONG`, with its mark. -/
def ofLong (i : Int) : Bytes := ofInt i ++ [0x4c]

/-- The canonical argument of `FLOAT`. -/
def ofFloat (x : Double) : Bytes :=
  if x.isNaN then Utf8.encode "nan"
  else
    withSign x.isNegative <|
      if !x.isFinite then Utf8.encode "inf"
      else
        match x.exponent with
        | .ofNat e => decimalDigits (x.mantissa <<< e)
        | .negSucc e =>
          decimalDigits (x.mantissa * Nat.pow 5 (e + 1)) ++ Utf8.encode "e-" ++ decimalDigits (e + 1)

/-! ## Strings and texts -/

/-- Hexadecimal digits of a number, as many as asked for. -/
def hexDigits : (count : Nat) → Nat → Bytes
  | 0, _ => []
  | count + 1, n => hexDigits count (n / 16) ++ [UInt8.ofNat (Nat.digitChar (n % 16)).toNat]

/-- Whether a code point stands for itself: printable ASCII, the backslash excepted. -/
def isPlain (code : Nat) : Bool := 0x20 ≤ code && code < 0x7f && code != 0x5c

/-- The canonical spelling of a byte between single quotes. -/
def ofByte (byte : UInt8) : Bytes :=
  if isPlain byte.toNat && byte != 0x27 then [byte] else 0x5c :: 0x78 :: hexDigits 2 byte.toNat

/-- The canonical argument of `STRING`. -/
def ofBytes (bytes : Bytes) : Bytes := 0x27 :: bytes.flatMap ofByte ++ [0x27]

/-- The canonical spelling of a character. -/
def ofChar (c : Char) : Bytes :=
  let code := c.toNat
  if isPlain code then [UInt8.ofNat code]
  else if code < 0x100 then 0x5c :: 0x78 :: hexDigits 2 code
  else if code < 0x10000 then 0x5c :: 0x75 :: hexDigits 4 code
  else 0x5c :: 0x55 :: hexDigits 8 code

/-- The canonical argument of `UNICODE`. -/
def ofText (text : String) : Bytes := text.toList.flatMap ofChar

/-- Whether a text can stand on a line as it is: a newline would end the line, and a carriage
return before the newline is taken for part of the line end. -/
def IsBare (text : String) : Prop :=
  0x0a ∉ Utf8.encode text ∧ (Utf8.encode text).getLast? ≠ some 0x0d

instance (text : String) : Decidable (IsBare text) := inferInstanceAs (Decidable (_ ∧ _))

end Pickle.Line
