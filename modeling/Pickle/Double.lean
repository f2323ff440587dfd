/-!
# Binary64 numbers

A `Double` is a 64-bit IEEE 754 number, held as its bits, so that two doubles are equal exactly
when no observer can tell them apart: the two zeros differ, and a NaN equals itself.  What a
number stands for is read off the bits in exact integer arithmetic: a finite double is
`± mantissa · 2 ^ exponent`.

The order of the numbers themselves is the order of their `rank`, the magnitude bits with the
sign in front: magnitudes of doubles are ordered like their bits, and both zeros have rank zero.

Doubles are made by rounding quotients (`Double.ofRatio`), decimals and integers to the nearest one,
long integers in a way of their own (`Double.ofLong`), and they are written as the shortest decimals
that read back (`Double.text`).
-/

namespace Pickle

/-- A 64-bit IEEE 754 number, given by its bits. -/
structure Double where
  /-- Sign, eleven bits of exponent, fifty-two bits of fraction, from the top. -/
  bits : UInt64
  deriving DecidableEq, Inhabited, Repr

namespace Double

/-- The sign bit. -/
def signBit : Nat := 0x8000000000000000

/-- The lowest bit of the exponent, right above the fraction.  It is also the leading one that the
fraction of a normal number leaves out. -/
def leadingBit : Nat := 0x10000000000000

/-- The bits of positive infinity; magnitudes above it are those of NaNs. -/
def infinityBits : Nat := 0x7ff0000000000000

/-- All bits but the sign. -/
def magnitude (d : Double) : Nat := d.bits.toNat % signBit

/-- The sign bit, set also in negative zero. -/
def isNegative (d : Double) : Bool := signBit ≤ d.bits.toNat

/-- Whether the bits stand for no number. -/
def isNaN (d : Double) : Bool := infinityBits < d.magnitude

/-- Whether the bits stand for a real number. -/
def isFinite (d : Double) : Bool := d.magnitude < infinityBits

/-- The double with a given sign and given magnitude bits. -/
def ofMagnitude (negative : Bool) (magnitude : Nat) : Double :=
  ⟨UInt64.ofNat (magnitude + if negative then signBit else 0)⟩

/-- Infinity of a given sign. -/
def infinity (negative : Bool) : Double := ofMagnitude negative infinityBits

/-- The NaN without a sign and with the quiet bit alone. -/
def nan : Double := ofMagnitude false (infinityBits + leadingBit / 2)

/-- The eleven exponent bits; zero for zeros and subnormal numbers. -/
def exponentField (d : Double) : Nat := d.magnitude / leadingBit

/-- The fraction, with the leading one that normal numbers leave out. -/
def mantissa (d : Double) : Nat :=
  d.magnitude % leadingBit + if d.exponentField = 0 then 0 else leadingBit

/-- The power of two that the mantissa counts. -/
def exponent (d : Double) : Int := (max d.exponentField 1 : Nat) - 1075

/-- Where a number stands among all others; the two zeros share one rank. -/
def rank (d : Double) : Int := if d.isNegative then -(d.magnitude : Int) else d.magnitude

/-- The order of two numbers, absent when one of them is a NaN. -/
def compare? (a b : Double) : Option Ordering :=
  if a.isNaN || b.isNaN then none else some (compare a.rank b.rank)

/-- Equality of numbers: the zeros are equal, and a NaN equals nothing. -/
def numericEq (a b : Double) : Bool := a.compare? b == some .eq

/-- The whole part of a finite double, rounded toward zero. -/
def truncate (d : Double) : Int :=
  let whole : Nat :=
    match d.exponent with
    | .ofNat e => d.mantissa <<< e
    | .negSucc e => d.mantissa >>> (e + 1)
  if d.isNegative then -(whole : Int) else whole

/-- The nearest integer toward zero that fits 64 bits with sign: numbers beyond the range give
its ends, and a NaN gives zero. -/
def toInt64Saturating (d : Double) : Int :=
  if d.isNaN then 0
  else if d.isFinite then max (-signBit) (min (signBit - 1) d.truncate)
  else if d.isNegative then -signBit else signBit - 1

/-! ## Rounding to doubles

`ofRatio` gives the double nearest to a quotient of natural numbers, a tie going to the even mantissa
and quotients beyond the greatest finite double to infinity.  It scales the quotient to an integer of
fifty-three bits, or fewer where the exponent is at its least, and rounds once.

The bits of the result are `(q + 1074) · 2 ^ 52 + r` for the rounded integer `r` and its power
`q` of two.  For normal numbers the leading one of `r` raises the exponent field by one, for
subnormal ones there is no leading one, and a carry out of `r` moves to the next exponent by
itself, so one formula serves all three. -/

/-- The integer nearest to a quotient; a tie goes to the even one. -/
def roundHalfEven (num den : Nat) : Nat :=
  let whole := num / den
  let rest := num % den
  if 2 * rest < den then whole
  else if 2 * rest = den then whole + whole % 2
  else whole + 1

/-- The quotient `num / (den · 2 ^ q)` as numerator and denominator. -/
def scaleDown (num den : Nat) : Int → Nat × Nat
  | .ofNat q => (num, den <<< q)
  | .negSucc q => (num <<< (q + 1), den)

/-- The power of two that the mantissa of a quotient counts: the one that leaves fifty-three
bits before the point, but at least that of the subnormal numbers. -/
def quotientExponent (num den : Nat) : Int :=
  let guess := (num.log2 : Int) - den.log2 - 53
  let scaled := scaleDown num den guess
  -- The guess is the right power or the one below it.
  max (-1074) (if 2 * leadingBit ≤ scaled.1 / scaled.2 then guess + 1 else guess)

/-- The double nearest to `± num / den`, where `den` is positive. -/
def ofRatio (negative : Bool) (num den : Nat) : Double :=
  if num = 0 then ofMagnitude negative 0
  else
    let q := quotientExponent num den
    let scaled := scaleDown num den q
    let bits := (q + 1074).toNat * leadingBit + roundHalfEven scaled.1 scaled.2
    -- What lies beyond the range would have the bits of a NaN.
    ofMagnitude negative (min bits infinityBits)

/-- The double nearest to an integer. -/
def ofInt (i : Int) : Double := ofRatio (i < 0) i.natAbs 1

/-- The double nearest to `± digits · 10 ^ exponent`, where `places` is the number of decimal
digits of `digits`.  Exponents so far out that only zero or infinity can be nearest are settled
before any power of ten is formed. -/
def ofDecimal (negative : Bool) (digits places : Nat) (exponent : Int) : Double :=
  if digits = 0 then ofMagnitude negative 0
  else if 400 < places + exponent then infinity negative
  else if places + exponent < -400 then ofMagnitude negative 0
  else
    match exponent with
    | .ofNat e => ofRatio negative (digits * Nat.pow 10 e) 1
    | .negSucc e => ofRatio negative digits (Nat.pow 10 (e + 1))

/-! ## Rounding long integers

A long integer is a sign and a magnitude in digits of 64 bits, the leading digit holding at least
one bit.  To round it, `ofLong` takes the leading 64 bits of the magnitude and puts a mark into the
last of them when something is left below.  Rounding to 53 bits then sees on which side of a half the
magnitude lies, because the mark stands well below the half.

The search for the mark reads from each digit below the leading one only as many low bits as the
leading digit holds.  That covers all that is left of a magnitude of up to two digits, so those are
rounded to the nearest double.  In a magnitude of three digits or more it can miss a rest, and then
a magnitude just above a half is rounded as the half itself, to the even mantissa. -/

/-- Whether the search below the leading 64 bits of a magnitude finds a one: in each digit below
the leading one it reads as many low bits as the leading digit holds. -/
def hasRest (magnitude : Nat) : Bool :=
  (List.range (magnitude.log2 / 64)).any fun i =>
    magnitude >>> (64 * i) % 1 <<< (magnitude.log2 % 64 + 1) != 0

/-- A magnitude with all but its leading 64 bits replaced by a mark in the last of them. -/
def abridge (magnitude : Nat) : Nat :=
  if magnitude.log2 < 64 then magnitude
  else
    let dropped := magnitude.log2 - 63
    (magnitude >>> dropped ||| (hasRest magnitude).toNat) <<< dropped

/-- The double that stands for a long integer.  From `2 ^ 1024` on it is infinity, whatever the
digits are. -/
def ofLong (i : Int) : Double :=
  if 1024 ≤ i.natAbs.log2 then infinity (i < 0)
  else ofRatio (i < 0) (abridge i.natAbs) 1

/-- A magnitude of one digit is kept whole. -/
theorem abridge_of_log2_lt {n : Nat} (h : n.log2 < 64) : abridge n = n := if_pos h

/-! ## The shortest decimal

A double is written with the fewest decimal digits that read back as the same double; among the
decimals of that many digits the one nearest to the double is taken, and of two equally near ones
the greater.

The decimals that read back are those in the interval between the midpoints to the neighbouring
doubles, the midpoints belonging to the interval when the mantissa is even, since ties are read
to the even mantissa.  For one, two, … seventeen digits, `shortest` tests the two decimals of
that grid next to the double; the first grid with one of them in the interval is the answer.
Seventeen digits always suffice.

The text never has an exponent: `text` writes zeros up to the point instead. -/

/-- A positive decimal `digits · 10 ^ power`. -/
structure Decimal where
  /-- The digits, as a number. -/
  digits : Nat
  /-- The power of ten that the last digit counts. -/
  power : Int
  deriving DecidableEq, Inhabited, Repr

/-- The same number without zeros at its end. -/
def Decimal.trim (x : Decimal) : Decimal :=
  if 0 < x.digits ∧ x.digits % 10 = 0 then trim ⟨x.digits / 10, x.power + 1⟩ else x
termination_by x.digits

/-- The number of decimal digits of a natural number; zero has one. -/
def decimalLength (n : Nat) : Nat :=
  if n < 10 then 1 else decimalLength (n / 10) + 1

/-- The power of ten at or just below the positive quotient `num / den`. -/
def decimalExponent (num den : Nat) : Int :=
  if den ≤ num then (decimalLength (num / den) : Int) - 1
  else -(decimalLength ((den - 1) / num) : Int)

/-- The interval of the numbers that read back as a double, as multiples of a power of two. -/
structure ReadBack where
  /-- The lower midpoint. -/
  low : Nat
  /-- The double itself. -/
  centre : Nat
  /-- The upper midpoint. -/
  high : Nat
  /-- The power of two that the three count. -/
  exponent : Int
  /-- Whether the midpoints read back as well. -/
  closed : Bool

/-- The midpoints around a finite double.  Below a power of two the doubles are twice as dense. -/
def readBack (d : Double) : ReadBack :=
  let m := d.mantissa
  let low := if m = leadingBit && decide (1 < d.exponentField) then 4 * m - 1 else 4 * m - 2
  ⟨low, 4 * m, 4 * m + 2, d.exponent - 2, m % 2 == 0⟩

/-- The numerator and denominator of `n · 2 ^ e · 10 ^ -p`. -/
def decimalRatio (n : Nat) (e p : Int) : Nat × Nat :=
  (n * Nat.pow 10 (-p).toNat <<< e.toNat, Nat.pow 10 p.toNat <<< (-e).toNat)

/-- Whether `k · 10 ^ p` lies in the interval. -/
def ReadBack.contains (r : ReadBack) (p : Int) (k : Nat) : Bool :=
  let low := decimalRatio r.low r.exponent p
  let high := decimalRatio r.high r.exponent p
  if r.closed then decide (low.1 ≤ k * low.2) && decide (k * high.2 ≤ high.1)
  else decide (low.1 < k * low.2) && decide (k * high.2 < high.1)

/-- The decimal of the grid `10 ^ p` that reads back and is nearest to the double, if any. -/
def ReadBack.onGrid (r : ReadBack) (p : Int) : Option Decimal :=
  let centre := decimalRatio r.centre r.exponent p
  let below := centre.1 / centre.2
  let above := if centre.1 % centre.2 = 0 then below else below + 1
  if r.contains p below then
    if r.contains p above && decide (centre.2 ≤ 2 * (centre.1 % centre.2)) then some ⟨above, p⟩
    else some ⟨below, p⟩
  else if r.contains p above then some ⟨above, p⟩
  else none

/-- The shortest decimal of the magnitude of a finite double that is not zero.  Rounding up may
end in zeros, which are no digits of the shortest form. -/
def shortest (d : Double) : Decimal :=
  let r := d.readBack
  let ratio := decimalRatio r.centre r.exponent 0
  let top := decimalExponent ratio.1 ratio.2
  (((List.range 17).findSome? fun (n : Nat) => r.onGrid (top - n)).getD ⟨0, 0⟩).trim

/-- A decimal without an exponent: zeros fill the places up to the point. -/
def Decimal.positional (x : Decimal) : String :=
  let digits := toString x.digits
  match x.power with
  | .ofNat zeros => digits ++ "".pushn '0' zeros
  | .negSucc p =>
    let places := p + 1
    if digits.length ≤ places then
      "0." ++ "".pushn '0' (places - digits.length) ++ digits
    else
      let whole := digits.length - places
      String.ofList (digits.toList.take whole) ++ "." ++ String.ofList (digits.toList.drop whole)

/-- The text of a double: shortest digits, no exponent, a sign also on negative zero. -/
def text (d : Double) : String :=
  if d.isNaN then "NaN"
  else
    let size :=
      if d.magnitude = 0 then "0"
      else if d.isFinite then d.shortest.positional
      else "inf"
    if d.isNegative then "-" ++ size else size

/-- The text of a double in which whole numbers keep a fraction: `1.0` rather than `1`. -/
def pointedText (d : Double) : String :=
  if d.isFinite && !d.text.toList.contains '.' then d.text ++ ".0" else d.text

end Double

end Pickle
