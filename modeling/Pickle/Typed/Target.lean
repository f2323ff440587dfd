import Pickle.Typed.Datum

/-!
# Typed extraction

A `Target α` reads an `α` out of a value, or tells how the value does not fit.  There are targets
for booleans, ranged integers, floats, characters, texts, bytes, `None`, optional values, sequences
and maps; `Pickle.Typed.Record` adds those with fields and variants.

Most targets look at what the value shows of itself on its first level (`Value.shown`).  A value of
another kind is a *wrong type*; one of the right kind that is out of range, or is no text, is a
*wrong value*.  Parts are read in order, and the first mismatch is the answer.
-/

namespace Pickle

/-- What a value shows of itself on its first level. -/
inductive Shown where
  /-- The value `None`. -/
  | unit
  /-- A boolean. -/
  | bool (value : Bool)
  /-- An integer of 64 bits, with or without sign. -/
  | integer (value : Int)
  /-- A float. -/
  | float (value : Double)
  /-- Bytes of any kind. -/
  | bytes (value : Bytes)
  /-- A text, or the name of a class or callable. -/
  | str (value : String)
  /-- The items of a list, tuple or set. -/
  | items (items : List Value)
  /-- The pairs of a dict, or the attributes of an instance. -/
  | pairs (pairs : List (Key × Value))

/-- How a mismatch calls it. -/
def Shown.seen : Shown → Seen
  | .unit => .unit
  | .bool value => .bool value
  | .integer value => .integer value
  | .float value => .float value
  | .bytes _ => .bytes
  | .str value => .str value
  | .items _ => .sequence
  | .pairs _ => .map

/-- What an atom shows of itself. -/
def Atom.shown : Atom → Except Mismatch Shown
  | .scalar .none => .ok .unit
  | .scalar (.bool value) => .ok (.bool value)
  | .scalar (.short value) => .ok (.integer value.toInt)
  | .scalar (.long value) =>
    if Datum.FitsInteger value then .ok (.integer value) else .error .tooLarge
  | .scalar (.float value) => .ok (.float value)
  | .scalar (.bytes value) => .ok (.bytes value)
  | .scalar (.str value) => .ok (.str value)
  | .byteArray array => .ok (.bytes array.bytes)
  | .class_ name => .ok (.str name.dotted)
  | .callable value => .ok (.str (value.name.namespace_ ++ "." ++ value.name.name))

/-- What a value shows of itself on its first level. -/
def Value.shown : Value → Except Mismatch Shown
  | .atom value => value.shown
  | .list items => .ok (.items items)
  | .tuple items => .ok (.items items)
  | .set items => .ok (.items (items.map Key.toValue))
  | .frozenSet items => .ok (.items (items.map Key.toValue))
  | .dict pairs => .ok (.pairs pairs)
  | .object value => .ok (.pairs value.attributes)

/-- Reads an `α` out of a value. -/
abbrev Target (α : Type) := Value → Except Mismatch α

namespace Target

variable {α β : Type}

/-- A target that reads what a value shows, or takes it for a wrong type. -/
def reading (expected : String) (read : Shown → Option (Except Mismatch α)) : Target α :=
  fun value => do
    let shown ← value.shown
    (read shown).getD (.error (.wrongType shown.seen expected))

/-- The target that changes what another one reads. -/
def map (f : α → β) (target : Target α) : Target β := fun value => f <$> target value

/-- A boolean. -/
def bool : Target Bool := reading "a boolean" fun
  | .bool value => some (.ok value)
  | _ => none

/-- An integer between two bounds. -/
def integer (name : String) (least greatest : Int) : Target Int := reading name fun
  | .integer value =>
    some (if least ≤ value ∧ value ≤ greatest then .ok value
      else .error (.wrongValue (.integer value) name))
  | _ => none

/-- A float; integers are rounded to the nearest one. -/
def float : Target Double := reading "f64" fun
  | .float value => some (.ok value)
  | .integer value => some (.ok (.ofInt value))
  | _ => none

/-- A text of one character. -/
def char : Target Char := reading "a character" fun
  | .str value =>
    some (match value.toList with
      | [c] => .ok c
      | _ => .error (.wrongValue (.str value) "a character"))
  | _ => none

/-- A text, also from bytes that spell one. -/
def str : Target String := reading "a string" fun
  | .str value => some (.ok value)
  | .bytes value =>
    some (match Utf8.decode value with
      | some text => .ok text
      | none => .error (.wrongValue .bytes "a string"))
  | _ => none

/-- Bytes. -/
def bytes : Target Bytes := reading "bytes" fun
  | .bytes value => some (.ok value)
  | _ => none

/-- The value `None`. -/
def unit (expected : String) : Target Unit := reading expected fun
  | .unit => some (.ok ())
  | _ => none

/-- Nothing for `None`, or else what another target reads. -/
def option (target : Target α) : Target (Option α)
  | .none => .ok none
  | value => some <$> target value

/-- A sequence of what another target reads. -/
def sequence (target : Target α) : Target (List α) := reading "a sequence" fun
  | .items items => some (items.mapM target)
  | _ => none

/-- A map in the order of `cmp`; of equal keys the last value stays. -/
def mapping (cmp : α → α → Ordering) (key : Target α) (value : Target β) :
    Target (List (α × β)) := reading "a map" fun
  | .pairs pairs => some do
    let read ← pairs.mapM fun (k, v) => do
      let k ← key k.toValue
      return (k, ← value v)
    return Ordered.ofPairs cmp read
  | _ => none

/-- Anything at all, of which nothing is kept. -/
def ignored : Target Unit := fun value => value.datum.discard

end Target

end Pickle
