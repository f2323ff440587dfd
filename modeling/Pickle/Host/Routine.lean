import Pickle.Error

/-!
# Routines of the host

Pickles call classes and functions by name.  A few of them every host has, those that pickles of
plain data need: sets, frozen sets, byte strings, byte arrays, the maker of old-style instances, and
the encoder that stands in for byte strings in old protocols.  All other routines come from a table
of the host at hand, a `Host`.

`call` calls any value: a class gives a new instance of it, a callable runs its routine, and nothing
else can be called.
-/

namespace Pickle

/-- The routines of a host: what a routine of some name makes of positional and keyword
arguments. -/
abbrev Host := (routine : String) → List Value → List (String × Value) → Except Error Value

/-- The result of faulty arguments. -/
def invalidArguments {α : Type} (fault : ArgumentFault) : Except Error α :=
  .error (.ofFailure (.invalidArguments fault))

namespace Builtin

/-- How the messages of a routine name it. -/
def name : Builtin → String
  | .set => "set"
  | .frozenSet => "frozenset"
  | .bytes => "bytes"
  | .byteArray => "bytearray"
  | .reconstructor => "_reconstructor"
  | .encode => "encode"

/-- The set of some values, all of which must be keys. -/
def keys (items : List Value) : Except Error (List Key) :=
  match Value.toKeys? items with
  | some keys => .ok (Key.setOf keys)
  | none => .error (.ofFailure .unhashable)

/-- The members of a set that is made of nothing or of something with items. -/
def members (routine : String) : List Value → Except Error (List Key)
  | [] => .ok []
  | [.list items] | [.tuple items] => keys items
  | [.set items] | [.frozenSet items] => .ok items
  | [other] => invalidArguments (.notIterable routine other)
  | args => invalidArguments (.tooMany routine args.length)

/-- The Latin-1 bytes of a text, one for each character. -/
def latin1 (text : String) : Except Error Bytes :=
  text.toList.mapM fun c =>
    if c.toNat < 256 then .ok (UInt8.ofNat c.toNat) else invalidArguments (.notLatin1 c)

/-- The bytes of a text in an encoding, and how a byte array of them is tagged. -/
def encodeText (text encoding : String) : Except Error (Bytes × Encoding) :=
  if ["utf-8", "utf8"].contains (encoding.map Char.toLower) then
    .ok (Utf8.encode text, .binary)
  else
    match Encoding.ofName? encoding with
    | some tag => return (← latin1 text, tag)
    | none => invalidArguments (.unknownEncoding encoding)

/-- The byte that an integer is. -/
def byte (routine : String) : Value → Except Error UInt8
  | .scalar (.short i) =>
    if 0 ≤ i.toInt ∧ i.toInt < 256 then .ok (UInt8.ofNat i.toInt.toNat)
    else invalidArguments (.notByte routine (.scalar (.short i)))
  | other => invalidArguments (.notByte routine other)

/-- The bytes that arguments make: none, bytes of either kind, integers below 256, a text in an
encoding, or bytes with a mere tag. -/
def bytesOf (routine : String) : List Value → Except Error (Bytes × Encoding)
  | [] => .ok ([], .binary)
  | [.bytes value] => .ok (value, .binary)
  | [.atom (.byteArray array)] => .ok (array.bytes, .binary)
  | [.list items] | [.tuple items] => return (← items.mapM (byte routine), .binary)
  | [.str text, .str encoding] => encodeText text encoding
  | [.bytes value, .str encoding] => .ok (value, (Encoding.ofName? encoding).getD .binary)
  | first :: _ => invalidArguments (.notConvertible routine first)

/-- What a routine makes of positional arguments alone.  The maker of instances is not among those
that finish here. -/
def make (routine : Builtin) (args : List Value) : Except Error Value :=
  match routine with
  | .set => return .set (← members routine.name args)
  | .frozenSet => return .frozenSet (← members routine.name args)
  | .bytes => return .bytes (← bytesOf routine.name args).1
  | .byteArray => do
    let (content, encoding) ← bytesOf routine.name args
    return .atom (.byteArray { bytes := content, encoding })
  | .encode =>
    match args with
    | [.str text] => .ok (.bytes (Utf8.encode text))
    | [.str text, .str encoding] => return .bytes (← encodeText text encoding).1
    | _ => invalidArguments .encoding
  | .reconstructor => invalidArguments .reconstruction

end Builtin

/-- Calls a value other than the maker of instances. -/
def callPlain (host : Host) (callee : Value) (args : List Value) : Except Error Value :=
  match callee with
  | .atom (.class_ name) => .ok (.object (.fresh name args []))
  | .atom (.callable ⟨_, _, .builtin routine⟩) => routine.make args
  | .atom (.callable ⟨_, _, .host routine⟩) => host routine args []
  | other => .error (.ofFailure (.notCallable none other.kind))

/-- Whether a value is the maker of instances. -/
def Value.isReconstructor : Value → Bool
  | .atom (.callable ⟨_, _, .builtin .reconstructor⟩) => true
  | _ => false

/-- Calls a class with a state as its arguments: those in a tuple or list, none for `None`, and
otherwise the state alone.  The class may be the maker of instances itself, whose arguments are then
a class, a base and a smaller state. -/
def reconstruct (host : Host) (className : Value) : Value → Except Error Value
  | .tuple [inner, base, state] =>
    if className.isReconstructor then reconstruct host inner state
    else callPlain host className [inner, base, state]
  | .list [inner, base, state] =>
    if className.isReconstructor then reconstruct host inner state
    else callPlain host className [inner, base, state]
  | .tuple args => callPlain host className args
  | .list args => callPlain host className args
  | .none => callPlain host className []
  | state => callPlain host className [state]

namespace Callable

/-- Runs the routine of a callable. -/
def run (callable : Callable) (host : Host) (args : List Value) (kwargs : List (String × Value)) :
    Except Error Value :=
  match callable.routine, kwargs with
  | .host routine, kwargs => host routine args kwargs
  | .builtin routine, (name, _) :: _ => invalidArguments (.unexpectedKeyword routine.name name)
  | .builtin .reconstructor, [] =>
    match args with
    | [className, _, state] => reconstruct host className state
    | _ => invalidArguments .reconstruction
  | .builtin routine, [] => routine.make args

end Callable

/-- Calls a value with positional and keyword arguments. -/
def call (host : Host) (callee : Value) (args : List Value) (kwargs : List (String × Value)) :
    Except Error Value :=
  match callee with
  | .atom (.class_ name) => .ok (.object (.fresh name args kwargs))
  | .atom (.callable callable) => callable.run host args kwargs
  | other => .error (.ofFailure (.notCallable none other.kind))

end Pickle
