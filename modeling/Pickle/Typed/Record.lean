import Pickle.Typed.Target

/-!
# Records and variants

A *tuple* target has a fixed number of parts and reads them from a sequence.  A *record* has named
parts and reads them from a sequence as well, or from a mapping in which names are texts or bytes;
fields that it does not have are looked at and left out, and fields that the mapping does not have
may have a default.  Items beyond the last part are left alone.

A *variant* is spelled as its name, as a tuple of the name and perhaps its data, or as a dict of one
pair, the name and the data.
-/

namespace Pickle

/-- How messages call something of a number of parts. -/
def withElements (name : String) (count : Nat) : String :=
  name ++ " with " ++ toString count ++ (if count = 1 then " element" else " elements")

/-- A part of a record. -/
structure Field (α : Type) where
  /-- The name of the part. -/
  name : String
  /-- What the part is. -/
  target : Target α
  /-- What the part is when the mapping lacks it, if it may. -/
  absent : Option α := none

/-- What a variant carries. -/
inductive Payload (α : Type) where
  /-- Nothing; data that is there is left alone. -/
  | nothing (value : α)
  /-- Data. -/
  | data (target : Target α)

/-- One of several forms of a value. -/
structure Variant (α : Type) where
  /-- The name of the form. -/
  name : String
  /-- What it carries. -/
  payload : Payload α

/-- What a name in a value leads to. -/
inductive NameLookup where
  /-- The name of this number. -/
  | found (index : Nat)
  /-- No name; the text is how it was spelled. -/
  | unknown (spelled : String)
  /-- No name, but a number too great for one. -/
  | outOfRange (number : Int)

/-- Looks up a name that a value gives as a text, as bytes, or as a number that has no sign. -/
def lookUpName (names : List String) (expected : String) (value : Value) :
    Except Mismatch NameLookup := do
  match ← value.shown with
  | .str name =>
    return (names.findIdx? (· == name)).elim (.unknown name) .found
  | .bytes name =>
    return (names.findIdx? fun other => Utf8.encode other == name).elim
      (.unknown (Utf8.decodeLossy name)) .found
  | .integer number =>
    if 0x8000000000000000 ≤ number then return .outOfRange number
    else .error (.wrongType (.integer number) expected)
  | other => .error (.wrongType other.seen expected)

namespace Target

variable {α : Type}

/-- Reads the parts of a sequence, `index` of which have been read before. -/
def parts (expected : String) : (index : Nat) → List (Target α) → List Value →
    Except Mismatch (List α)
  | _, [], _ => .ok []
  | index, _ :: _, [] => .error (.wrongLength index expected)
  | index, target :: targets, item :: items => do
    let part ← target item
    return part :: (← parts expected (index + 1) targets items)

/-- A sequence of fixed parts. -/
def tuple (expected expectedLength : String) (targets : List (Target α)) : Target (List α) :=
  reading expected fun
    | .items items => some (parts expectedLength 0 targets items)
    | _ => none

/-- Reads the fields of a mapping, those that were read before being given. -/
def fieldsOf (fields : List (Field α)) :
    (read : List (Option α)) → List (Key × Value) → Except Mismatch (List (Option α))
  | read, [] => .ok read
  | read, (key, value) :: rest => do
    match ← lookUpName (fields.map Field.name) "field identifier" key.toValue with
    | .found index =>
      match fields[index]?, read[index]? with
      | some field, some none => do
        let part ← field.target value
        fieldsOf fields (read.set index (some part)) rest
      | some field, _ => .error (.duplicateField field.name)
      | none, _ => fieldsOf fields read rest
    | _ => do
      -- A field of another name is skipped, but its value has to be readable all the same.
      ignored value
      fieldsOf fields read rest

/-- The fields with defaults for those that were not read. -/
def complete : List (Field α) → List (Option α) → Except Mismatch (List α)
  | field :: fields, part :: parts =>
    match part.or field.absent with
    | some part => return part :: (← complete fields parts)
    | none => .error (.missingField field.name)
  | _, _ => .ok []

/-- A mapping or sequence of named parts. -/
def record (expected : String) (fields : List (Field α)) : Target (List α) :=
  reading expected fun
    | .items items =>
      some (parts (withElements expected fields.length) 0 (fields.map Field.target) items)
    | .pairs pairs => some do
      complete fields (← fieldsOf fields (fields.map fun _ => none) pairs)
    | _ => none

/-- The name and the data that spell a variant. -/
def spelling : Value → Except Mismatch (Value × Option Value)
  | .tuple [name] => .ok (name, none)
  | .tuple [name, data] => .ok (name, some data)
  | .str name => .ok (.str name, none)
  | .dict [(name, data)] => .ok (name.toValue, some data)
  | _ => .error .notVariant

/-- One of several variants. -/
def variant (variants : List (Variant α)) : Target α := fun value => do
  let (name, data) ← spelling value
  let names := variants.map Variant.name
  match ← lookUpName names "variant identifier" name with
  | .found index =>
    match variants[index]?, data with
    | some ⟨_, .nothing value⟩, _ => return value
    | some ⟨_, .data target⟩, some data => target data
    | some ⟨_, .data _⟩, none => .error .nothingLeft
    | none, _ => .error .notVariant
  | .unknown spelled => .error (.unknownVariant spelled names)
  | .outOfRange number =>
    .error (.wrongValue (.integer number)
      ("variant index 0 <= i < " ++ toString variants.length))

end Target

end Pickle
