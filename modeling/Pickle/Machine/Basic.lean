import Std.Data.TreeMap.Basic
import Pickle.Host.Constants

/-!
# The state of the machine

Pickles are programs of a stack machine.  A `Cell` of its stack is either an atom or a reference to
a *slot*; containers and instances live in slots alone, and what they hold are cells again.  So a
container is shared by everything that refers to its slot, a change through one reference shows
through all, and no cell and no content ever has a container inside.

An atom stays in its cell until it is shared; then it moves into a slot of its own.

Beside the stack there are the stacks that marks have set aside, the memo, which names slots by
number, the out-of-band buffers not used yet, and a count of everything that was created, which
bounds the size of the result.
-/

namespace Pickle

/-- What the stack and the containers hold. -/
inductive Cell where
  /-- A reference to a slot. -/
  | ref (slot : Nat)
  /-- A value without parts. -/
  | atom (value : Atom)
  deriving DecidableEq, Inhabited, Repr

/-- What a slot holds. -/
inductive Content where
  /-- A value without parts. -/
  | atom (value : Atom)
  /-- A list. -/
  | list (items : Array Cell)
  /-- A tuple. -/
  | tuple (items : List Cell)
  /-- A set, as the sequence of what was added. -/
  | set (items : Array Cell)
  /-- A frozen set, as the sequence it was made of. -/
  | frozenSet (items : List Cell)
  /-- A dict, as the sequence of the pairs that were set. -/
  | dict (pairs : Array (Cell × Cell))
  /-- An instance of a class that is not known. -/
  | object (value : Instance Cell Cell)
  deriving Repr

namespace Content

/-- The value `None`. -/
def none : Content := .atom (.scalar .none)

instance : Inhabited Content := ⟨none⟩

/-- The kind of a content. -/
def kind : Content → Kind
  | .atom value => value.kind
  | .list _ => .list
  | .tuple _ => .tuple
  | .set _ => .set
  | .frozenSet _ => .frozenSet
  | .dict _ => .dict
  | .object _ => .object

/-- Adds items to a list or set. -/
def extend (cells : List Cell) : Content → Content
  | .list items => .list (items ++ cells)
  | .set items => .set (items ++ cells)
  | content => content

/-- Adds pairs to a dict, or to the attributes of an instance. -/
def extendPairs (pairs : List (Cell × Cell)) : Content → Content
  | .dict old => .dict (old ++ pairs)
  | .object value => .object { value with attributes := value.attributes ++ pairs }
  | content => content

/-- Gives an instance a state. -/
def setState (state : Cell) : Content → Content
  | .object value => .object { value with state := some state }
  | content => content

/-- Makes a byte array read-only. -/
def makeReadonly : Content → Content
  | .atom (.byteArray array) => .atom (.byteArray { array with isReadonly := true })
  | content => content

end Content

/-- The state of the machine. -/
structure Machine where
  /-- The stack, its top first. -/
  stack : List Cell
  /-- The stacks that marks have set aside, the latest first. -/
  saved : List (List Cell)
  /-- The slots that the memo names by number. -/
  memo : Std.TreeMap Nat Nat
  /-- The contents of all slots. -/
  slots : Array Content
  /-- The number of instructions and of nodes of host values so far. -/
  created : Nat
  /-- The out-of-band buffers not used yet, if any were given. -/
  buffers : Option (List Bytes)

/-- An action of the machine.  What it did before it fails is done. -/
abbrev Exec := EStateM Error Machine

namespace Machine

/-- The machine before its first instruction. -/
def initial (buffers : Option (List Bytes)) : Machine := ⟨[], [], {}, #[], 0, buffers⟩

/-- What a slot holds. -/
def slot (machine : Machine) (index : Nat) : Content := machine.slots.getD index .none

/-- What a cell stands for. -/
def content (machine : Machine) : Cell → Content
  | .ref slot => machine.slot slot
  | .atom value => .atom value

/-- The index of a memo entry that is written without naming one: the number of entries, of which
an index keeps the low 32 bits. -/
def nextIndex (machine : Machine) : Nat := (UInt32.ofNat machine.memo.size).toNat

theorem nextIndex_eq (machine : Machine) : machine.nextIndex = machine.memo.size % UInt32.size :=
  UInt32.toNat_ofNat'

theorem nextIndex_of_lt {machine : Machine} (h : machine.memo.size < UInt32.size) :
    machine.nextIndex = machine.memo.size := by
  rw [nextIndex_eq, Nat.mod_eq_of_lt h]

end Machine

namespace Exec

/-- Fails with a failure of the operation under way. -/
def fail {α : Type} (failure : Failure) : Exec α := throw (.ofFailure failure)

/-- Goes on with a result that did not need the machine. -/
def ofExcept {α : Type} : Except Error α → Exec α
  | .ok value => pure value
  | .error error => throw error

/-- Tells failures of an action as failures of an operation. -/
def during {α : Type} (operation : String) (action : Exec α) : Exec α := fun machine =>
  match action machine with
  | .ok value machine => .ok value machine
  | .error error machine => .error (error.during operation) machine

/-- Counts things that were created. -/
def count (created : Nat) : Exec Unit :=
  modify fun machine => { machine with created := machine.created + created }

/-- Puts a cell on the stack. -/
def push (cell : Cell) : Exec Unit :=
  modify fun machine => { machine with stack := cell :: machine.stack }

/-- Takes the top off the stack. -/
def pop : Exec Cell := fun machine =>
  match machine.stack with
  | cell :: rest => .ok cell { machine with stack := rest }
  | [] => .error (.ofFailure .stackUnderflow) machine

/-- Takes `count` cells off the stack; the deepest comes first. -/
def popMany : (count : Nat) → Exec (List Cell)
  | 0 => return []
  | count + 1 => do
    let last ← pop
    return (← popMany count) ++ [last]

/-- Sets the stack aside and starts a new one. -/
def mark : Exec Unit :=
  modify fun machine => { machine with stack := [], saved := machine.stack :: machine.saved }

/-- Takes everything above the latest mark, in the order in which it was pushed, and returns to
the stack below. -/
def popMark : Exec (List Cell) := fun machine =>
  match machine.saved with
  | below :: saved => .ok machine.stack.reverse { machine with stack := below, saved }
  | [] => .error (.ofFailure .stackUnderflow) machine

/-- Moves a content into a new slot. -/
def alloc (content : Content) : Exec Cell := fun machine =>
  .ok (.ref machine.slots.size) { machine with slots := machine.slots.push content }

/-- Puts a new container on the stack. -/
def pushNew (content : Content) : Exec Unit := do push (← alloc content)

/-- What a cell stands for. -/
def content (cell : Cell) : Exec Content := return (← get).content cell

/-- The kind of what a cell stands for. -/
def kind (cell : Cell) : Exec Kind := fun machine => .ok (machine.content cell).kind machine

/-- The kind of what the stack top stands for. -/
def topKind : Exec Kind := fun machine =>
  match machine.stack with
  | cell :: _ => .ok (machine.content cell).kind machine
  | [] => .error (.ofFailure .stackUnderflow) machine

/-- Changes what the stack top stands for: the slot that it refers to, or else the atom itself. -/
def changeTop (change : Content → Content) : Exec Unit := fun machine =>
  match machine.stack with
  | .ref slot :: _ => .ok () { machine with slots := machine.slots.modify slot change }
  | .atom value :: rest =>
    match change (.atom value) with
    | .atom value => .ok () { machine with stack := .atom value :: rest }
    | _ => .ok () machine
  | [] => .error (.ofFailure .stackUnderflow) machine

/-- The slot of the stack top.  An atom moves into a slot first. -/
def shareTop : Exec Nat := fun machine =>
  match machine.stack with
  | .ref slot :: _ => .ok slot machine
  | .atom value :: rest =>
    let slot := machine.slots.size
    .ok slot
      { machine with stack := .ref slot :: rest, slots := machine.slots.push (.atom value) }
  | [] => .error (.ofFailure .stackUnderflow) machine

/-- Puts a memo entry on the stack. -/
def fetch (index : Nat) : Exec Unit := do
  match (← get).memo[index]? with
  | some slot => push (.ref slot)
  | none => fail (.missingMemo index)

/-- Makes the stack top a memo entry. -/
def memoize (index : Nat) : Exec Unit := do
  let slot ← shareTop
  modify fun machine => { machine with memo := machine.memo.insert index slot }

end Exec

end Pickle
