import Pickle.Double
import Pickle.Fault
import Pickle.Text.Utf8

/-!
# Numbers written on a line

Protocol zero spells numbers in decimal digits.  An integer is an optional sign and one or more
digits, a memo index digits alone, and a long integer may end in `L`.  A float has the usual
spellings, with or without a point or an exponent, and the names of infinity and NaN in any case.

What digits spell is their value in base ten, `digitsValue`.  Digits may run to hundreds of
thousands, so they are gathered in chunks, and only a full chunk does arithmetic on the whole
number; that the chunks do not show in the result is `digitsValue_eq_foldl`.

The digits of an exponent have a value of their own, `exponentValue`: as soon as an exponent has
reached `exponentCap`, its further digits are passed over.

A line that is no number has one of two faults: the first byte that cannot stand where it does,
or, if every byte can, the whole literal.
-/

namespace Pickle.Line

/-- Whether a byte is a decimal digit. -/
def isDigit (byte : UInt8) : Bool := 0x30 ≤ byte && byte ≤ 0x39

/-- The number that a single digit spells. -/
def digitValue (digit : UInt8) : Nat := digit.toNat - 0x30

theorem digitValue_lt {digit : UInt8} (h : isDigit digit = true) : digitValue digit < 10 := by
  have : digit.toNat ≤ 0x39 := by
    simp only [isDigit, Bool.and_eq_true, decide_eq_true_eq] at h
    exact h.2
  unfold digitValue
  omega

/-- A number with one more digit at its end. -/
def appendDigit (value : Nat) (digit : UInt8) : Nat := value * 10 + digitValue digit

/-! ## Gathering digits -/

/-- The scale at which a chunk of digits is full: that of eighteen digits, which a machine word
holds. -/
def chunkScale : Nat := 1000000000000000000

/-- A number whose digits are being read: the full chunks, the digits after them, and the power of
ten that so many digits stand for. -/
structure Gathered where
  /-- The number that the full chunks spell. -/
  whole : Nat
  /-- The number that the digits after them spell. -/
  chunk : Nat
  /-- The power of ten by which the digits after the full chunks move these. -/
  scale : Nat

namespace Gathered

/-- No digits. -/
def empty : Gathered := ⟨0, 0, 1⟩

/-- The number that all digits spell. -/
def value (g : Gathered) : Nat := g.whole * g.scale + g.chunk

/-- Takes one more digit, and joins the chunk to the others if that fills it. -/
def add (g : Gathered) (digit : UInt8) : Gathered :=
  let chunk := appendDigit g.chunk digit
  let scale := g.scale * 10
  if scale < chunkScale then ⟨g.whole, chunk, scale⟩ else ⟨g.whole * scale + chunk, 0, 1⟩

theorem value_add (g : Gathered) (digit : UInt8) :
    (g.add digit).value = appendDigit g.value digit := by
  have joined : g.whole * (g.scale * 10) + appendDigit g.chunk digit
      = appendDigit g.value digit := by
    simp only [appendDigit, value, Nat.add_mul, Nat.mul_assoc, Nat.add_assoc]
  simp only [add]
  split
  · exact joined
  · simpa [value] using joined

theorem value_foldl (digits : Bytes) (g : Gathered) :
    (digits.foldl add g).value = digits.foldl appendDigit g.value := by
  induction digits generalizing g with
  | nil => rfl
  | cons digit rest ih => rw [List.foldl_cons, List.foldl_cons, ih, value_add]

end Gathered

/-- The number that digits spell. -/
def digitsValue (digits : Bytes) : Nat := (digits.foldl Gathered.add Gathered.empty).value

/-- Digits spell what is obtained by appending one after another to zero. -/
theorem digitsValue_eq_foldl (digits : Bytes) :
    digitsValue digits = digits.foldl appendDigit 0 := Gathered.value_foldl digits Gathered.empty

@[simp] theorem digitsValue_nil : digitsValue [] = 0 := rfl

/-- One more digit at the end multiplies by ten and adds. -/
theorem digitsValue_concat (digits : Bytes) (digit : UInt8) :
    digitsValue (digits ++ [digit]) = digitsValue digits * 10 + digitValue digit := by
  simp only [digitsValue_eq_foldl, List.foldl_append, List.foldl_cons, List.foldl_nil, appendDigit]

/-! ## Exponents -/

/-- The number at which an exponent takes no more digits. -/
def exponentCap : Nat := 0x10000

/-- An exponent with one more digit at its end, unless it has reached the cap. -/
def appendExponentDigit (value : Nat) (digit : UInt8) : Nat :=
  if value < exponentCap then appendDigit value digit else value

/-- The exponent that digits spell.  An exponent of any length remains a small number by this; it
shows only where a float has so many places before or after its point that such an exponent leads
back from there. -/
def exponentValue (digits : Bytes) : Nat := digits.foldl appendExponentDigit 0

theorem le_foldl_appendDigit (digits : Bytes) (value : Nat) :
    value ≤ digits.foldl appendDigit value := by
  induction digits generalizing value with
  | nil => exact Nat.le_refl value
  | cons digit rest ih =>
    have := ih (appendDigit value digit)
    have : value ≤ appendDigit value digit := by unfold appendDigit; omega
    rw [List.foldl_cons]
    omega

theorem foldl_appendExponentDigit (digits : Bytes) (value : Nat)
    (h : digits.foldl appendDigit value < exponentCap) :
    digits.foldl appendExponentDigit value = digits.foldl appendDigit value := by
  induction digits generalizing value with
  | nil => rfl
  | cons digit rest ih =>
    rw [List.foldl_cons] at h
    have := le_foldl_appendDigit rest (appendDigit value digit)
    have below : value < exponentCap := by unfold appendDigit at this h; omega
    rw [List.foldl_cons, List.foldl_cons, appendExponentDigit, if_pos below, ih _ h]

/-- An exponent below the cap is what its digits spell. -/
theorem exponentValue_eq_digitsValue {digits : Bytes} (h : digitsValue digits < exponentCap) :
    exponentValue digits = digitsValue digits := by
  rw [digitsValue_eq_foldl] at h ⊢
  exact foldl_appendExponentDigit digits 0 h

/-! ## Lines -/

/-- Whether a byte is a sign. -/
def isSign (byte : UInt8) : Bool := byte == 0x2b || byte == 0x2d

/-- The digits after an optional sign, and whether the sign is a minus. -/
def splitSign : Bytes → Bool × Bytes
  | [] => (false, [])
  | byte :: rest => if isSign byte then (byte == 0x2d, rest) else (false, byte :: rest)

/-- The integer that an optional sign and digits spell. -/
def signedValue (line : Bytes) : Int :=
  let (negative, digits) := splitSign line
  if negative then -(digitsValue digits : Int) else digitsValue digits

/-- The position of the first byte that does not pass, and the byte. -/
def firstOffending (allowed : UInt8 → Bool) (literal : Bytes) : Option (Nat × UInt8) :=
  (literal.findIdx? fun byte => !allowed byte).bind fun index =>
    literal[index]?.map fun byte => (index, byte)

/-- The first byte that is no digit and no sign in front, with its position. -/
def firstNonDigit (line : Bytes) : Option (Nat × UInt8) :=
  match line with
  | [] => none
  | byte :: rest =>
    if isDigit byte || isSign byte then
      (firstOffending isDigit rest).map fun (index, other) => (index + 1, other)
    else some (0, byte)

/-- The integer of a line that holds an optional sign and at least one digit. -/
def signedInteger (field : NumericField) (line : Bytes) : Except LineFault Int :=
  match firstNonDigit line with
  | some (index, byte) => .error ⟨.nonNumeric field byte, index⟩
  | none =>
    if line.getLast?.any isDigit then .ok (signedValue line)
    else .error ⟨.invalidLiteral line, 0⟩

/-- What the argument of `INT` stands for. -/
inductive IntLiteral where
  /-- The spellings `00` and `01` of the booleans. -/
  | bool (value : Bool)
  /-- Any other number. -/
  | int (value : Int)
  deriving DecidableEq, Inhabited, Repr

/-- Reads the argument of `INT`.  `00` and `01` are booleans, and no other line is. -/
def readInt (line : Bytes) : Except LineFault IntLiteral :=
  if line = [0x30, 0x30] then .ok (.bool false)
  else if line = [0x30, 0x31] then .ok (.bool true)
  else (signedInteger .int line).map .int

/-- The line without one `L` at its end. -/
def dropLongMark (line : Bytes) : Bytes :=
  if line.getLast? = some 0x4c then line.dropLast else line

/-- Reads the argument of `LONG`, with or without a final `L`. -/
def readLong (line : Bytes) : Except LineFault Int := signedInteger .long (dropLongMark line)

/-- Reads the argument of `GET` and `PUT`: digits alone, below `2 ^ 32`. -/
def readIndex (line : Bytes) : Except LineFault UInt32 :=
  match firstOffending isDigit line with
  | some (index, byte) => .error ⟨.nonNumeric .memoIndex byte, index⟩
  | none =>
    if line ≠ [] ∧ digitsValue line < UInt32.size then .ok (UInt32.ofNat (digitsValue line))
    else .error ⟨.invalidLiteral line, 0⟩

/-- Digits, a point and digits: at least one digit in all, the point not needed. Gives all digits,
the number of them after the point, and the rest of the line. -/
def splitDecimal (line : Bytes) : Option (Bytes × Nat × Bytes) :=
  let whole := line.takeWhile isDigit
  let rest := line.dropWhile isDigit
  let (fraction, rest) :=
    match rest with
    | 0x2e :: rest => (rest.takeWhile isDigit, rest.dropWhile isDigit)
    | _ => ([], rest)
  if whole.isEmpty && fraction.isEmpty then none
  else some (whole ++ fraction, fraction.length, rest)

/-- The exponent at the end of a float: nothing, or `e` in either case, an optional sign and
digits. -/
def exponentPart : Bytes → Option Int
  | [] => some 0
  | mark :: rest =>
    let (negative, digits) := splitSign rest
    if (mark == 0x65 || mark == 0x45) && !digits.isEmpty && digits.all isDigit then
      some (if negative then -(exponentValue digits : Int) else exponentValue digits)
    else none

/-- A byte with ASCII capitals made small. -/
def lowered (byte : UInt8) : UInt8 := if 0x41 ≤ byte && byte ≤ 0x5a then byte + 0x20 else byte

/-- The names of infinity. -/
def infinityNames : List Bytes := ["inf", "infinity"].map Utf8.encode

/-- The double that a line spells: the one nearest to its digits and its exponent. -/
def float? (line : Bytes) : Option Double :=
  let (negative, size) := splitSign line
  if infinityNames.contains (size.map lowered) then some (Double.infinity negative)
  else if size.map lowered = Utf8.encode "nan" then some Double.nan
  else do
    let (digits, fraction, rest) ← splitDecimal size
    let exponent ← exponentPart rest
    let significant := digits.dropWhile (· == 0x30)
    return Double.ofDecimal negative (digitsValue significant) significant.length
      (exponent - fraction)

/-- The bytes that occur in floats without a name. -/
def isFloatByte (byte : UInt8) : Bool :=
  isDigit byte || isSign byte || byte == 0x2e || byte == 0x65 || byte == 0x45

/-- Reads the argument of `FLOAT`. -/
def readFloat (line : Bytes) : Except LineFault Double :=
  match float? line with
  | some value => .ok value
  | none =>
    match firstOffending isFloatByte line with
    | some (index, byte) => .error ⟨.nonNumeric .float byte, index⟩
    | none => .error ⟨.invalidLiteral line, 0⟩

end Pickle.Line
