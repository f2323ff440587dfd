import Pickle.Double
import Pickle.Text.Quoted
import Pickle.Text.Utf8

/-!
# Keys

A `Scalar` is a value without parts that can serve as a dict key: `None`, booleans, integers,
floats, byte strings and texts.  Integers are *short* when they are held in 64 bits, and *long*
otherwise; a long integer may well be small if a host says so.  A `Key` is a value that can be looked
up: a scalar, a tuple of keys, or a frozen set of keys.

Scalars are ordered `None` first, then all numbers, then byte strings, then texts.  Numbers compare
by value whatever their kind, so `True`, `1` and `1.0` are one key.  Between a float and an integer
the integer is rounded to a float, a long one by `Double.ofLong`; but a float in front of a long
integer is itself cut to a 64-bit integer.  A NaN, on either side, makes the comparison come out as
less.

Dicts are maps and sets are sets in the order of keys, `Key.compare`: scalars first, then frozen
sets, then tuples, the latter two by their items from the first one on.
-/

/-! ## Ordered lists as sets and maps

A set is a list of items, and a map a list of pairs, in strictly ascending order of a comparison.
Where two keys compare as equal there is room for one of them: a map keeps the key that came first
and the value that came last, and a set that is made of a sequence keeps the item that came last. -/

namespace Pickle.Ordered

variable {κ α : Type}

/-- Gives a key a value.  A key that is there already, by the comparison, stays as it is. -/
def insert (cmp : κ → κ → Ordering) (key : κ) (value : α) : List (κ × α) → List (κ × α)
  | [] => [(key, value)]
  | (other, old) :: rest =>
    match cmp key other with
    | .lt => (key, value) :: (other, old) :: rest
    | .eq => (other, value) :: rest
    | .gt => (other, old) :: insert cmp key value rest

/-- The map that results from giving keys their values one after another. -/
def ofPairs (cmp : κ → κ → Ordering) (pairs : List (κ × α)) : List (κ × α) :=
  pairs.foldl (fun map pair => insert cmp pair.1 pair.2 map) []

/-- The value of the key that compares as equal, if there is one. -/
def find? (cmp : κ → κ → Ordering) (key : κ) (map : List (κ × α)) : Option α :=
  (map.find? fun pair => cmp key pair.1 == .eq).map Prod.snd

/-- Puts an item into a set, in place of one that compares as equal. -/
def adjoin (cmp : κ → κ → Ordering) (item : κ) : List κ → List κ
  | [] => [item]
  | other :: rest =>
    match cmp item other with
    | .lt => item :: other :: rest
    | .eq => item :: rest
    | .gt => other :: adjoin cmp item rest

/-- The set of the items of a sequence. -/
def ofList (cmp : κ → κ → Ordering) (items : List κ) : List κ :=
  items.foldl (fun set item => adjoin cmp item set) []

/-- The order of two sequences: that of the first items that differ, or else of the lengths. -/
def lexicographic (cmp : κ → κ → Ordering) : List κ → List κ → Ordering
  | [], [] => .eq
  | [], _ :: _ => .lt
  | _ :: _, [] => .gt
  | x :: xs, y :: ys => (cmp x y).then (lexicographic cmp xs ys)

end Pickle.Ordered

/-! ## Scalars -/

namespace Pickle

/-- A value without parts that can serve as a key. -/
inductive Scalar where
  /-- The value `None`. -/
  | none
  /-- A boolean. -/
  | bool (value : Bool)
  /-- An integer held in 64 bits. -/
  | short (value : Int64)
  /-- An integer of any size. -/
  | long (value : Int)
  /-- A float. -/
  | float (value : Double)
  /-- A byte string. -/
  | bytes (value : Bytes)
  /-- A text. -/
  | str (value : String)
  deriving DecidableEq, Inhabited, Repr

namespace Scalar

/-- Whether 64 bits hold an integer with its sign. -/
def FitsShort (i : Int) : Prop := -0x8000000000000000 ≤ i ∧ i < 0x8000000000000000

instance (i : Int) : Decidable (FitsShort i) := inferInstanceAs (Decidable (_ ∧ _))

/-- The integer as a scalar: short if it fits. -/
def ofInt (i : Int) : Scalar := if FitsShort i then .short (Int64.ofInt i) else .long i

/-- The integer that a boolean counts as. -/
def boolInt (value : Bool) : Int := if value then 1 else 0

/-- The order of two floats, less if they have none. -/
def compareFloats (x y : Double) : Ordering := (x.compare? y).getD .lt

/-- The order of scalars. -/
def compare : Scalar → Scalar → Ordering
  | .none, .none => .eq
  | .none, _ => .lt
  | _, .none => .gt
  | .bool x, .bool y => Ord.compare (boolInt x) (boolInt y)
  | .bool x, .short y => Ord.compare (boolInt x) y.toInt
  | .bool x, .long y => Ord.compare (boolInt x) y
  | .bool x, .float y => compareFloats (Double.ofInt (boolInt x)) y
  | .short x, .bool y => Ord.compare x.toInt (boolInt y)
  | .short x, .short y => Ord.compare x.toInt y.toInt
  | .short x, .long y => Ord.compare x.toInt y
  | .short x, .float y => compareFloats (Double.ofInt x.toInt) y
  | .long x, .bool y => Ord.compare x (boolInt y)
  | .long x, .short y => Ord.compare x y.toInt
  | .long x, .long y => Ord.compare x y
  | .long x, .float y => compareFloats (Double.ofLong x) y
  | .float x, .bool y => compareFloats x (Double.ofInt (boolInt y))
  | .float x, .short y => compareFloats x (Double.ofInt y.toInt)
  | .float x, .long y => Ord.compare x.toInt64Saturating y
  | .float x, .float y => compareFloats x y
  | .bytes x, .bytes y => Ordered.lexicographic Ord.compare x y
  | .bytes _, .str _ => .lt
  | .bytes _, _ => .gt
  | .str x, .str y => Ord.compare x y
  | .str _, _ => .gt
  | _, .bytes _ => .lt
  | _, .str _ => .lt

/-- Whether two scalars are the same value of the same kind; floats count as numbers. -/
def same : Scalar → Scalar → Bool
  | .float x, .float y => x.numericEq y
  | x, y => x == y

/-- The text of a scalar. -/
def text : Scalar → String
  | .none => "None"
  | .bool value => if value then "True" else "False"
  | .short value => toString value.toInt
  | .long value => toString value
  | .float value => value.text
  | .bytes value => "b" ++ Text.byteList value
  | .str value => Text.quoted value

end Scalar

/-! ## Keys -/

/-- A value that can be a dict key or a member of a set. -/
inductive Key where
  /-- A value without parts. -/
  | scalar (value : Scalar)
  /-- A tuple of keys. -/
  | tuple (items : List Key)
  /-- A frozen set, in the order of keys. -/
  | frozenSet (items : List Key)
  deriving Inhabited, Repr

namespace Key

mutual

/-- The order of keys. -/
def compare : Key → Key → Ordering
  | .scalar x, .scalar y => x.compare y
  | .scalar _, _ => .lt
  | .frozenSet _, .scalar _ => .gt
  | .frozenSet xs, .frozenSet ys => compareItems xs ys
  | .frozenSet _, .tuple _ => .lt
  | .tuple xs, .tuple ys => compareItems xs ys
  | .tuple _, _ => .gt

/-- The order of items: that of the first ones that differ, or else of their numbers. -/
def compareItems : List Key → List Key → Ordering
  | [], [] => .eq
  | [], _ :: _ => .lt
  | _ :: _, [] => .gt
  | x :: xs, y :: ys => (compare x y).then (compareItems xs ys)

end

/-- Whether two keys are one in a dict. -/
def same (a b : Key) : Bool := a.compare b == .eq

mutual

/-- The text of a key. -/
def text : Key → String
  | .scalar value => value.text
  | .tuple [item] => "(" ++ item.text ++ ", )"
  | .tuple items => Text.bracketed "(" ")" (texts items)
  | .frozenSet items => Text.bracketed "frozenset([" "])" (texts items)

/-- The texts of keys. -/
def texts : List Key → List String
  | [] => []
  | item :: rest => item.text :: texts rest

end

/-- The set of the keys of a sequence; of equal ones the last stays. -/
def setOf (items : List Key) : List Key := Ordered.ofList compare items

/-- The map that results from giving keys their values one after another. -/
def mapOf {α : Type} (pairs : List (Key × α)) : List (Key × α) := Ordered.ofPairs compare pairs

end Key

end Pickle
