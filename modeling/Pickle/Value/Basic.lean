import Pickle.Instruction.Basic
import Pickle.Value.Key

/-!
# Values

A `Value` is what a pickle describes, as a plain tree: scalars, containers, byte arrays, and what
stands in for classes, functions and instances that only the pickle's origin knows.

A class that is not known is a mere name, and an instance of it keeps the arguments it was made
with, its attributes, and a state if it was given one that is no mapping of attributes.  A class or
function that the host does know is a `Callable`, which names the host's routine and does not
contain it.

Values are equal when `Value.same` says so, and `Value.text` shows them to people.
-/

namespace Pickle

/-- The kinds of values that messages name. -/
inductive Kind where
  | none | bool | int | float | bytes | str | list | tuple | set | frozenSet | dict | byteArray
  | class_ | callable | object
  deriving DecidableEq, Inhabited, Repr

/-- How a message names a kind. -/
def Kind.name : Kind → String
  | .none => "None"
  | .bool => "bool"
  | .int => "int"
  | .float => "float"
  | .bytes => "bytes"
  | .str => "str"
  | .list => "list"
  | .tuple => "tuple"
  | .set => "set"
  | .frozenSet => "frozenset"
  | .dict => "dict"
  | .byteArray => "bytearray"
  | .class_ => "class"
  | .callable => "callable"
  | .object => "object"

/-- The name of a class that is not known. -/
abbrev ClassName := QualifiedName

/-- The name with its module in front, if there is one. -/
def QualifiedName.dotted (name : QualifiedName) : String :=
  if name.namespace_.isEmpty then name.name else name.namespace_ ++ "." ++ name.name

/-- The encodings a byte array can be tagged with. -/
inductive Encoding where
  /-- Plain bytes. -/
  | binary
  /-- Characters below 256, one byte each. -/
  | latin1
  deriving DecidableEq, Inhabited, Repr

/-- The official name of an encoding. -/
def Encoding.name : Encoding → String
  | .binary => "ascii-8bit"
  | .latin1 => "iso-8859-1"

/-- The encoding that a codec name means, in any case of its letters. -/
def Encoding.ofName? (name : String) : Option Encoding :=
  let name := name.map Char.toLower
  if ["latin-1", "latin1", "iso-8859-1", "iso8859-1"].contains name then some .latin1
  else if ["ascii", "binary"].contains name then some .binary
  else none

/-- A mutable sequence of bytes. -/
structure ByteArray where
  /-- The bytes. -/
  bytes : Bytes
  /-- What the bytes were made with. -/
  encoding : Encoding := .binary
  /-- Whether the bytes are those of a read-only buffer. -/
  isReadonly : Bool := false
  deriving DecidableEq, Inhabited, Repr

/-- The text of a byte array. -/
def ByteArray.text (array : ByteArray) : String := "bytearray(b" ++ Text.byteList array.bytes ++ ")"

/-- The routines that every host has. -/
inductive Builtin where
  /-- Makes a set. -/
  | set
  /-- Makes a frozen set. -/
  | frozenSet
  /-- Makes a byte string. -/
  | bytes
  /-- Makes a byte array. -/
  | byteArray
  /-- Makes an instance of a class out of the class, a base and a state. -/
  | reconstructor
  /-- Makes a byte string of a text and an encoding. -/
  | encode
  deriving DecidableEq, Inhabited, Repr

/-- What a callable runs. -/
inductive Routine where
  /-- A routine that every host has. -/
  | builtin (builtin : Builtin)
  /-- A routine that the host at hand has under a name of its choice. -/
  | host (name : String)
  deriving DecidableEq, Inhabited, Repr

/-- What calling a callable means. -/
inductive CallableKind where
  /-- Making an instance. -/
  | class_
  /-- Computing a result. -/
  | function
  deriving DecidableEq, Inhabited, Repr

/-- A class or function that the host knows. -/
structure Callable where
  /-- Its name in pickles. -/
  name : QualifiedName
  /-- What calling it means. -/
  kind : CallableKind
  /-- What it runs. -/
  routine : Routine
  deriving DecidableEq, Inhabited, Repr

/-- Whether two callables have the same name and kind, whatever they run. -/
def Callable.same (a b : Callable) : Bool := a.name == b.name && a.kind == b.kind

/-- The text of a callable. -/
def Callable.text (callable : Callable) : String :=
  let kind := match callable.kind with
    | .class_ => "class"
    | .function => "function"
  "<" ++ kind ++ " " ++ callable.name.namespace_ ++ "." ++ callable.name.name ++ ">"

/-- A value without parts. -/
inductive Atom where
  /-- One that can be a key. -/
  | scalar (value : Scalar)
  /-- A byte array. -/
  | byteArray (array : ByteArray)
  /-- A class that is not known. -/
  | class_ (name : ClassName)
  /-- A class or function that the host knows. -/
  | callable (callable : Callable)
  deriving DecidableEq, Inhabited, Repr

namespace Atom

/-- The kind of a value without parts. -/
def kind : Atom → Kind
  | .scalar .none => .none
  | .scalar (.bool _) => .bool
  | .scalar (.short _) => .int
  | .scalar (.long _) => .int
  | .scalar (.float _) => .float
  | .scalar (.bytes _) => .bytes
  | .scalar (.str _) => .str
  | .byteArray _ => .byteArray
  | .class_ _ => .class_
  | .callable _ => .callable

/-- Whether two values without parts are equal. -/
def same : Atom → Atom → Bool
  | .scalar x, .scalar y => x.same y
  | .callable x, .callable y => x.same y
  | x, y => x == y

/-- The text of a value without parts. -/
def text : Atom → String
  | .scalar value => value.text
  | .byteArray array => array.text
  | .class_ name => "<class " ++ name.dotted ++ ">"
  | .callable value => value.text

end Atom

/-- An instance of a class that is not known.  Attributes are pairs of `κ` and `α`, everything
else consists of `α`. -/
structure Instance (κ α : Type) where
  /-- The class. -/
  className : ClassName
  /-- The positional arguments it was made with. -/
  args : List α
  /-- The keyword arguments it was made with. -/
  kwargs : List (String × α)
  /-- The attributes it was given. -/
  attributes : List (κ × α)
  /-- A state that is no mapping of attributes. -/
  state : Option α
  deriving Inhabited, Repr

/-- What a pickle describes. -/
inductive Value where
  /-- A value without parts. -/
  | atom (value : Atom)
  /-- A list. -/
  | list (items : List Value)
  /-- A tuple. -/
  | tuple (items : List Value)
  /-- A set, in the order of keys. -/
  | set (items : List Key)
  /-- A frozen set, in the order of keys. -/
  | frozenSet (items : List Key)
  /-- A dict, in the order of keys. -/
  | dict (pairs : List (Key × Value))
  /-- An instance of a class that is not known, its keyword arguments in the order of their names
  and its attributes in the order of keys. -/
  | object (value : Instance Key Value)
  deriving Inhabited, Repr

/-- Keyword arguments in the order of their names; of equal names the last value stays. -/
def keywordsOf {α : Type} (pairs : List (String × α)) : List (String × α) :=
  Ordered.ofPairs compare pairs

namespace Value

/-- A scalar as a value. -/
@[match_pattern] abbrev scalar (value : Scalar) : Value := .atom (.scalar value)

/-- The value `None`. -/
@[match_pattern] abbrev none : Value := .scalar .none

/-- A text as a value. -/
@[match_pattern] abbrev str (text : String) : Value := .scalar (.str text)

/-- A byte string as a value. -/
@[match_pattern] abbrev bytes (bytes : Bytes) : Value := .scalar (.bytes bytes)

/-- The kind of a value. -/
def kind : Value → Kind
  | .atom value => value.kind
  | .list _ => .list
  | .tuple _ => .tuple
  | .set _ => .set
  | .frozenSet _ => .frozenSet
  | .dict _ => .dict
  | .object _ => .object

end Value

namespace Key

mutual

/-- A key as a value. -/
def toValue : Key → Value
  | .scalar value => .scalar value
  | .tuple items => .tuple (toValues items)
  | .frozenSet items => .frozenSet items

/-- Keys as values. -/
def toValues : List Key → List Value
  | [] => []
  | item :: rest => item.toValue :: toValues rest

end

end Key

namespace Value

mutual

/-- A value as a key; values with lists, sets, dicts, byte arrays, classes or objects in them are
none. -/
def toKey? : Value → Option Key
  | .atom (.scalar value) => some (.scalar value)
  | .tuple items => (toKeys? items).map .tuple
  | .frozenSet items => some (.frozenSet items)
  | _ => Option.none

/-- Values as keys, if all of them are. -/
def toKeys? : List Value → Option (List Key)
  | [] => some []
  | item :: rest =>
    match toKey? item, toKeys? rest with
    | some key, some keys => some (key :: keys)
    | _, _ => Option.none

end

end Value

namespace Instance

/-- A new instance, without attributes or state. -/
def fresh {κ α : Type} (className : ClassName) (args : List α) (kwargs : List (String × α)) :
    Instance κ α :=
  ⟨className, args, kwargs, [], none⟩

/-- The attribute of a name.  Old pickles name attributes by byte strings, so these are tried as
well. -/
def attribute? (value : Instance Key Value) (name : String) : Option Value :=
  (Ordered.find? Key.compare (.scalar (.str name)) value.attributes).or
    (Ordered.find? Key.compare (.scalar (.bytes (Utf8.encode name))) value.attributes)

/-- Gives an attribute a value. -/
def setAttribute (value : Instance Key Value) (key : Key) (content : Value) :
    Instance Key Value :=
  { value with attributes := Ordered.insert Key.compare key content value.attributes }

/-- Gives the instance a state. -/
def setState (value : Instance Key Value) (state : Value) : Instance Key Value :=
  { value with state := some state }

end Instance

/-! ## Equality

Two values are the same when they are of one kind and have the same parts in the same order.
Integers held in different ways differ, floats are compared as numbers, keys are the same when
they are one in a dict, and callables when they have one name and kind. -/

/-- Whether two sequences agree item by item. -/
def sameItems {α : Type} (same : α → α → Bool) : List α → List α → Bool
  | [], [] => true
  | x :: xs, y :: ys => same x y && sameItems same xs ys
  | _, _ => false

namespace Value

mutual

/-- Whether two values are equal. -/
def same : Value → Value → Bool
  | .atom x, .atom y => x.same y
  | .list xs, .list ys => sameValues xs ys
  | .tuple xs, .tuple ys => sameValues xs ys
  | .set xs, .set ys => sameItems Key.same xs ys
  | .frozenSet xs, .frozenSet ys => sameItems Key.same xs ys
  | .dict xs, .dict ys => samePairs xs ys
  | .object ⟨name, args, kwargs, attributes, state⟩,
    .object ⟨name', args', kwargs', attributes', state'⟩ =>
    name == name' && sameValues args args' && sameKeywords kwargs kwargs'
      && samePairs attributes attributes' && sameState state state'
  | _, _ => false

/-- Whether two sequences of values are equal. -/
def sameValues : List Value → List Value → Bool
  | [], [] => true
  | x :: xs, y :: ys => same x y && sameValues xs ys
  | _, _ => false

/-- Whether two maps are equal. -/
def samePairs : List (Key × Value) → List (Key × Value) → Bool
  | [], [] => true
  | (key, x) :: xs, (key', y) :: ys => key.same key' && same x y && samePairs xs ys
  | _, _ => false

/-- Whether two sets of keyword arguments are equal. -/
def sameKeywords : List (String × Value) → List (String × Value) → Bool
  | [], [] => true
  | (name, x) :: xs, (name', y) :: ys => name == name' && same x y && sameKeywords xs ys
  | _, _ => false

/-- Whether two states are equal. -/
def sameState : Option Value → Option Value → Bool
  | Option.none, Option.none => true
  | some x, some y => same x y
  | _, _ => false

end

/-! ## Text

Values are shown much as the pickle's origin would show them.  Bytes are lists of numbers after a
`b`, an empty set is a call, a tuple of one item keeps a comma and the blank after it, and an
instance shows its class, its attributes and its state. -/

mutual

/-- The text of a value. -/
def text : Value → String
  | .atom value => value.text
  | .list items => Text.bracketed "[" "]" (texts items)
  | .tuple [item] => "(" ++ item.text ++ ", )"
  | .tuple items => Text.bracketed "(" ")" (texts items)
  | .set [] => "set()"
  | .set items => Text.bracketed "\x7b" "\x7d" (Key.texts items)
  | .frozenSet items => Text.bracketed "frozenset([" "])" (Key.texts items)
  | .dict pairs => Text.bracketed "\x7b" "\x7d" (pairTexts ": " pairs)
  | .object ⟨name, _, _, attributes, state⟩ =>
    "<" ++ name.dotted ++ " object"
      ++ (if attributes.isEmpty then "" else ": ")
      ++ String.intercalate ", " (pairTexts "=" attributes) ++ stateText state ++ ">"

/-- The texts of values. -/
def texts : List Value → List String
  | [] => []
  | item :: rest => item.text :: texts rest

/-- The texts of pairs, each with `link` between key and value. -/
def pairTexts (link : String) : List (Key × Value) → List String
  | [] => []
  | (key, value) :: rest => (key.text ++ link ++ value.text) :: pairTexts link rest

/-- The text of a state, if there is one. -/
def stateText : Option Value → String
  | Option.none => ""
  | some value => " state=" ++ value.text

end

end Value

end Pickle
