import Pickle.Fault

/-!
# Escapes of strings written on a line

A line of `STRING` is a byte string between two equal quotes; a line of `UNICODE` is a text
without quotes.  Both are sequences of *items*: plain bytes, and escapes that begin with a
backslash.  An item of `STRING` denotes a byte, an item of `UNICODE` a character.

Each reader takes one item after another (`byteItem?`, `charItem?`) and stops at the first
backslash that begins none; the fault names the bytes after that backslash, as many as the escape
would have had.
-/

namespace Pickle.Line

/-- The value of a hexadecimal digit in either case. -/
def hexDigit? (byte : UInt8) : Option Nat :=
  if 0x30 ≤ byte && byte ≤ 0x39 then some (byte.toNat - 0x30)
  else if 0x61 ≤ byte && byte ≤ 0x66 then some (byte.toNat - 0x61 + 10)
  else if 0x41 ≤ byte && byte ≤ 0x46 then some (byte.toNat - 0x41 + 10)
  else none

/-- The value of hexadecimal digits, all of them. -/
def hexValue? (digits : Bytes) : Option Nat :=
  digits.foldlM (fun value digit => (hexDigit? digit).map (value * 16 + ·)) 0

/-- The value of the first `count` bytes, if there are as many and all are hexadecimal digits. -/
def hexField? (count : Nat) (bytes : Bytes) : Option Nat :=
  if (bytes.take count).length = count then hexValue? (bytes.take count) else none

/-- The byte that a backslash and one letter or mark denote. -/
def letterEscape? : UInt8 → Option UInt8
  | 0x5c => some 0x5c
  | 0x27 => some 0x27
  | 0x22 => some 0x22
  | 0x61 => some 0x07
  | 0x62 => some 0x08
  | 0x74 => some 0x09
  | 0x6e => some 0x0a
  | 0x76 => some 0x0b
  | 0x66 => some 0x0c
  | 0x72 => some 0x0d
  | _ => none

/-- An item at the start of some bytes: what it denotes, and its length less one. -/
structure Item (α : Type) where
  /-- What the item denotes. -/
  value : α
  /-- The number of bytes after the first one. -/
  tail : Nat

/-- What a backslash could not begin: the number of bytes after it that the fault names. -/
abbrev Miss := Nat

/-- The item of `STRING` that a byte and the bytes after it begin. -/
def byteItem? (byte : UInt8) (rest : Bytes) : Except Miss (Item UInt8) :=
  if byte ≠ 0x5c then .ok ⟨byte, 0⟩
  else
    match rest with
    | [] => .error 1
    | 0x78 :: digits =>
      match hexField? 2 digits with
      | some value => .ok ⟨UInt8.ofNat value, 3⟩
      | none => .error 3
    | letter :: _ =>
      match letterEscape? letter with
      | some value => .ok ⟨value, 1⟩
      | none => .error 1

/-- The number of digits of the escape that a letter begins in `UNICODE`. -/
def escapeWidth? : UInt8 → Option Nat
  | 0x78 => some 2
  | 0x75 => some 4
  | 0x55 => some 8
  | _ => none

/-- The character of a code point, if it is one: no surrogate, and not too great. -/
def scalar? (code : Nat) : Option Char :=
  if h : code.isValidChar then some (Char.ofNatAux code h) else none

/-- The item of `UNICODE` that a byte and the bytes after it begin.  A plain byte denotes the
code point of its own value. -/
def charItem? (byte : UInt8) (rest : Bytes) : Except Miss (Item Char) :=
  if byte ≠ 0x5c then .ok ⟨Char.ofNat byte.toNat, 0⟩
  else
    match rest with
    | [] => .error 1
    | letter :: digits =>
      if letter = 0x5c then .ok ⟨'\\', 1⟩
      else
        match escapeWidth? letter with
        | none => .error 1
        | some width =>
          match (hexField? width digits).bind scalar? with
          | some c => .ok ⟨c, width + 1⟩
          | none => .error (width + 1)

/-- Takes items until the bytes are used up.  The fault stands at the backslash that begins no
item, `offset` bytes having been taken before. -/
def takeItems {α : Type} (item? : UInt8 → Bytes → Except Miss (Item α)) (offset : Nat) :
    Bytes → Except LineFault (List α)
  | [] => .ok []
  | byte :: rest =>
    match item? byte rest with
    | .error count => .error ⟨.invalidEscape (rest.take count), offset⟩
    | .ok item =>
      (takeItems item? (offset + 1 + item.tail) (rest.drop item.tail)).map (item.value :: ·)
termination_by bytes => bytes.length
decreasing_by simp only [List.length_drop, List.length_cons]; omega

/-- The bytes that the body of a `STRING` line denotes. -/
def unescapeBytes (offset : Nat) (body : Bytes) : Except LineFault Bytes :=
  takeItems byteItem? offset body

/-- Reads the argument of `STRING`: a body between two equal quotes. -/
def readQuoted (line : Bytes) : Except LineFault Bytes :=
  match line with
  | quote :: rest =>
    -- The closing quote is looked for behind the opening one, so one quote alone is not enough.
    if (quote = 0x27 ∨ quote = 0x22) ∧ rest.getLast? = some quote then
      unescapeBytes 1 rest.dropLast
    else .error ⟨.missingQuote line, 0⟩
  | [] => .error ⟨.missingQuote line, 0⟩

/-- Reads the argument of `UNICODE`. -/
def readEscaped (line : Bytes) : Except LineFault String :=
  (takeItems charItem? 0 line).map String.ofList

/-- Reads a line that is a text in UTF-8. -/
def readText (line : Bytes) : Except LineFault String :=
  match Utf8.decode line with
  | some text => .ok text
  | none => .error ⟨.notUtf8, 0⟩

end Pickle.Line
