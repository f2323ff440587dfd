import Pickle.Error

/-!
# Self-describing data

A `Datum` is what a value, or a document of some other format, shows of itself: a boolean, a
number, bytes, a text, a sequence, a mapping.  It is the meeting point of formats: every value has
one (`Value.datum`), and values and keys are made of any (`Value.ofDatum`, `Key.ofDatum`).

Going from a value to its datum and back *normalises* it.  Tuples and sets become lists, byte arrays
become bytes, instances become dicts of their attributes, classes and callables become their dotted
names, and inside keys every sequence becomes a tuple.  Integers beyond 64 bits have no datum; they
are `oversized`, and fail whatever is made of them, but only where it is looked at.
-/

namespace Pickle

/-- What data shows of itself. -/
inductive Datum where
  /-- Nothing. -/
  | unit
  /-- A boolean. -/
  | bool (value : Bool)
  /-- An integer of 64 bits, with or without sign. -/
  | integer (value : Int)
  /-- An integer beyond that. -/
  | oversized
  /-- A float. -/
  | float (value : Double)
  /-- Bytes. -/
  | bytes (value : Bytes)
  /-- A text. -/
  | str (value : String)
  /-- Something that might have been nothing. -/
  | present (value : Datum)
  /-- Something in a wrapper. -/
  | wrapped (value : Datum)
  /-- A sequence. -/
  | sequence (items : List Datum)
  /-- A mapping. -/
  | mapping (pairs : List (Datum × Datum))
  deriving Inhabited

namespace Datum

/-- Whether 64 bits hold an integer, with or without a sign. -/
def FitsInteger (i : Int) : Prop := -0x8000000000000000 ≤ i ∧ i < 0x10000000000000000

instance (i : Int) : Decidable (FitsInteger i) := inferInstanceAs (Decidable (_ ∧ _))

/-- The datum of an integer. -/
def ofInt (i : Int) : Datum := if FitsInteger i then .integer i else .oversized

/-- The datum of a scalar. -/
def ofScalar : Scalar → Datum
  | .none => .unit
  | .bool value => .bool value
  | .short value => .integer value.toInt
  | .long value => ofInt value
  | .float value => .float value
  | .bytes value => .bytes value
  | .str value => .str value

/-- The datum of a value without parts. -/
def ofAtom : Atom → Datum
  | .scalar value => ofScalar value
  | .byteArray array => .bytes array.bytes
  | .class_ name => .str name.dotted
  | .callable callable => .str (callable.name.namespace_ ++ "." ++ callable.name.name)

end Datum

namespace Key

mutual

/-- What a key shows of itself. -/
def datum : Key → Datum
  | .scalar value => .ofScalar value
  | .tuple items => .sequence (data items)
  | .frozenSet items => .sequence (data items)

/-- What keys show of themselves. -/
def data : List Key → List Datum
  | [] => []
  | item :: rest => item.datum :: data rest

end

end Key

namespace Value

mutual

/-- What a value shows of itself. -/
def datum : Value → Datum
  | .atom value => .ofAtom value
  | .list items => .sequence (data items)
  | .tuple items => .sequence (data items)
  | .set items => .sequence (Key.data items)
  | .frozenSet items => .sequence (Key.data items)
  | .dict pairs => .mapping (pairData pairs)
  | .object ⟨_, _, _, attributes, _⟩ => .mapping (pairData attributes)

/-- What values show of themselves. -/
def data : List Value → List Datum
  | [] => []
  | item :: rest => item.datum :: data rest

/-- What pairs show of themselves. -/
def pairData : List (Key × Value) → List (Datum × Datum)
  | [] => []
  | (key, value) :: rest => (key.datum, value.datum) :: pairData rest

end

end Value

namespace Key

mutual

/-- The key of a datum.  A mapping is none, and neither is anything in a wrapper. -/
def ofDatum : Datum → Except Mismatch Key
  | .unit => .ok (.scalar .none)
  | .bool value => .ok (.scalar (.bool value))
  | .integer value => .ok (.scalar (.ofInt value))
  | .oversized => .error .tooLarge
  | .float value => .ok (.scalar (.float value))
  | .bytes value => .ok (.scalar (.bytes value))
  | .str value => .ok (.scalar (.str value))
  | .present value => ofDatum value
  | .wrapped _ => .error (.wrongType .wrapper "any hashable value")
  | .sequence items => return .tuple (← ofData items)
  | .mapping _ => .error (.wrongType .map "any hashable value")

/-- The keys of data. -/
def ofData : List Datum → Except Mismatch (List Key)
  | [] => .ok []
  | item :: rest => do
    let key ← ofDatum item
    return key :: (← ofData rest)

end

end Key

namespace Value

mutual

/-- The value of a datum.  Nothing in a wrapper is one. -/
def ofDatum : Datum → Except Mismatch Value
  | .unit => .ok .none
  | .bool value => .ok (.scalar (.bool value))
  | .integer value => .ok (.scalar (.ofInt value))
  | .oversized => .error .tooLarge
  | .float value => .ok (.scalar (.float value))
  | .bytes value => .ok (.bytes value)
  | .str value => .ok (.str value)
  | .present value => ofDatum value
  | .wrapped _ => .error (.wrongType .wrapper "any valid value")
  | .sequence items => return .list (← ofData items)
  | .mapping pairs => return .dict (Key.mapOf (← ofPairs pairs))

/-- The values of data. -/
def ofData : List Datum → Except Mismatch (List Value)
  | [] => .ok []
  | item :: rest => do
    let value ← ofDatum item
    return value :: (← ofData rest)

/-- The pairs of data, each key before its value. -/
def ofPairs : List (Datum × Datum) → Except Mismatch (List (Key × Value))
  | [] => .ok []
  | (key, value) :: rest => do
    let key ← Key.ofDatum key
    let value ← ofDatum value
    return (key, value) :: (← ofPairs rest)

end

/-- The value made of what a value shows of itself. -/
def normalize (value : Value) : Except Mismatch Value := ofDatum value.datum

/-- The key made of what a value shows of itself. -/
def normalizeKey (value : Value) : Except Mismatch Key := Key.ofDatum value.datum

end Value

namespace Datum

mutual

/-- Looks at every part and keeps none. -/
def discard : Datum → Except Mismatch Unit
  | .oversized => .error .tooLarge
  | .present value => discard value
  | .wrapped value => discard value
  | .sequence items => discardAll items
  | .mapping pairs => discardPairs pairs
  | _ => .ok ()

/-- Looks at every part of data. -/
def discardAll : List Datum → Except Mismatch Unit
  | [] => .ok ()
  | item :: rest => do
    discard item
    discardAll rest

/-- Looks at every part of pairs, each key before its value. -/
def discardPairs : List (Datum × Datum) → Except Mismatch Unit
  | [] => .ok ()
  | (key, value) :: rest => do
    discard key
    discard value
    discardPairs rest

end

end Datum

end Pickle
