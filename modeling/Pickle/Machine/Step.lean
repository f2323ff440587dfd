import Pickle.Machine.Embed
import Pickle.Machine.Operation

/-!
# Carrying out instructions

A step takes its operands off the stack, checks the target below them, and changes it; when
something fails in between, what was taken off stays off.  `execute` counts the instruction, takes
the step, and names the opcode in a failure that names no operation yet.

What does not change during a run is the `Environment`: constants, extensions, the loader for
persistent ids, the routines of the host, and whether old byte strings stand for texts.
-/

namespace Pickle

/-- What a run takes as given. -/
structure Environment where
  /-- The values of names. -/
  constants : Constants
  /-- The values of extension codes. -/
  extensions : List (Nat × Value)
  /-- What makes objects of persistent ids, if anything does. -/
  loader : Option (Value → Except Error Value)
  /-- Whether the byte strings of old protocols stand for texts. -/
  decodesStrings : Bool
  /-- The routines of the host. -/
  host : Host

/-- How the machine stands after an instruction. -/
inductive Status where
  /-- It goes on. -/
  | running
  /-- It has stopped with a result. -/
  | halted (value : Value)

/-- The pairs of alternating keys and values; none if a key lacks its value. -/
def pairUp {α : Type} : List α → Option (List (α × α))
  | [] => some []
  | [_] => none
  | key :: value :: rest => (pairUp rest).map ((key, value) :: ·)

namespace Machine

/-- The pairs of the dicts in a state of two halves, each a dict or `None`. -/
def halfAttributes (machine : Machine) (half : Cell) : Option (List (Cell × Cell)) :=
  match machine.content half with
  | .dict pairs => some pairs.toList
  | .atom (.scalar .none) => some []
  | _ => none

/-- The attributes that a state spells: those of a dict, or of a pair of dicts, in which `None`
stands for an empty one. -/
def stateAttributes (machine : Machine) (state : Cell) : Option (List (Cell × Cell)) :=
  match machine.content state with
  | .dict pairs => some pairs.toList
  | .tuple [first, second] => do
    return (← machine.halfAttributes first) ++ (← machine.halfAttributes second)
  | _ => none

/-- A keyword argument: its name must be a text. -/
def keyword (machine : Machine) (pair : Cell × Cell) : Except Error (String × Cell) :=
  match machine.content pair.1 with
  | .atom (.scalar (.str name)) => .ok (name, pair.2)
  | other => .error (.ofFailure (.invalidStackTop .keyword other.kind))

end Machine

namespace Exec

/-- Takes a text off the stack. -/
def popText : Exec String := do
  match ← content (← pop) with
  | .atom (.scalar (.str text)) => return text
  | other => fail (.invalidStackTop .text other.kind)

/-- Takes a tuple of arguments off the stack. -/
def popArguments : Exec (List Cell) := do
  match ← content (← pop) with
  | .tuple items => return items
  | other => fail (.invalidStackTop .arguments other.kind)

/-- Takes a dict of keyword arguments, or `None` for no such arguments, off the stack. -/
def popKeywords : Exec (List (String × Cell)) := do
  match ← content (← pop) with
  | .dict pairs => ofExcept (pairs.toList.mapM (← get).keyword)
  | .atom (.scalar .none) => return []
  | other => fail (.invalidStackTop .keywords other.kind)

/-- Takes a bracket of pairs off the stack. -/
def popPairs : Exec (List (Cell × Cell)) := do
  match pairUp (← popMark) with
  | some pairs => return pairs
  | none => fail .stackUnderflow

variable (env : Environment)

/-- A constant, as a copy for the pickle. -/
def constant (name : QualifiedName) : Exec Cell := embed (env.constants.resolve name)

/-- Calls what a cell stands for.  A class gives a new instance, a callable is given the values of
all its arguments. -/
def callCell (opcode : Opcode) (callee : Cell) (args : List Cell)
    (kwargs : List (String × Cell)) : Exec Cell := do
  match ← content callee with
  -- Nothing of the class runs, so its arguments stay cells.
  | .atom (.class_ name) => alloc (.object (.fresh name args kwargs))
  | .atom (.callable callable) =>
    let args ← args.mapM value
    let kwargs ← kwargs.mapM fun (name, cell) => return (name, ← value cell)
    embed (← ofExcept (callable.run env.host args (keywordsOf kwargs)))
  | other => fail (.notCallable opcode other.kind)

/-- The object of a persistent id. -/
def persistent (id : Value) : Exec Cell := do
  match env.loader with
  | some load => embed (← ofExcept (load id))
  | none => fail (.persistentLoad id)

/-- Takes the step of an operation; the opcode is for messages that name it. -/
def step (opcode : Opcode) : Operation → Exec Status
  | .stop => return .halted (← value (← pop))
  | .skip => return .running
  | .mark => do
    mark
    return .running
  | .popMark => do
    let _ ← popMark
    return .running
  | .pop => do
    -- With nothing above the mark, the mark itself goes.
    if (← get).stack.isEmpty then
      let _ ← popMark
    else
      let _ ← pop
    return .running
  | .dup => do
    push (.ref (← shareTop))
    return .running
  | .fetch index => do
    fetch index
    return .running
  | .memoize (some index) => do
    memoize index
    return .running
  | .memoize none => do
    memoize (← get).nextIndex
    return .running
  | .push value => do
    push (.atom value)
    return .running
  | .pushString value => do
    if env.decodesStrings then
      match Utf8.decode value with
      | some text => push (.atom (.scalar (.str text)))
      | none => fail .notUtf8
    else push (.atom (.scalar (.bytes value)))
    return .running
  | .tupleOf count => do
    pushNew (.tuple (← popMany count))
    return .running
  | .pushEmpty .list => do
    pushNew (.list #[])
    return .running
  | .pushEmpty .dict => do
    pushNew (.dict #[])
    return .running
  | .pushEmpty .set => do
    pushNew (.set #[])
    return .running
  | .collect .tuple => do
    pushNew (.tuple (← popMark))
    return .running
  | .collect .list => do
    pushNew (.list (← popMark).toArray)
    return .running
  | .collect .frozenSet => do
    pushNew (.frozenSet (← popMark))
    return .running
  | .collect .dict => do
    pushNew (.dict (← popPairs).toArray)
    return .running
  | .append => do
    let cell ← pop
    match ← topKind with
    | .list => changeTop (.extend [cell])
    | target => fail (.invalidTarget opcode target (← kind cell))
    return .running
  | .appends => do
    let cells ← popMark
    match ← topKind with
    | .list => changeTop (.extend cells)
    | target => fail (.invalidTarget opcode target none)
    return .running
  | .addItems => do
    let cells ← popMark
    match ← topKind with
    | .set => changeTop (.extend cells)
    | target => fail (.invalidTarget opcode target none)
    return .running
  | .setItem => do
    let value ← pop
    let key ← pop
    match ← topKind with
    | .dict | .object => changeTop (.extendPairs [(key, value)])
    | target => fail (.invalidTarget opcode target (← kind key))
    return .running
  | .setItems => do
    let pairs ← popPairs
    match ← topKind with
    | .dict | .object => changeTop (.extendPairs pairs)
    | target => fail (.invalidTarget opcode target none)
    return .running
  | .constant name => do
    push (← constant env name)
    return .running
  | .stackConstant => do
    let name ← popText
    let namespace_ ← popText
    push (← constant env ⟨namespace_, name⟩)
    return .running
  | .apply => do
    let args ← popArguments
    let callee ← pop
    push (← callCell env opcode callee args [])
    return .running
  | .applyKeywords => do
    let kwargs ← popKeywords
    let args ← popArguments
    let callee ← pop
    push (← callCell env opcode callee args kwargs)
    return .running
  | .applyConstant name => do
    let args ← popMark
    let callee ← constant env name
    push (← callCell env opcode callee args [])
    return .running
  | .applyBracket => do
    match ← popMark with
    | callee :: args => push (← callCell env opcode callee args [])
    | [] => fail .stackUnderflow
    return .running
  | .build => do
    let state ← pop
    let attributes := (← get).stateAttributes state
    match ← topKind, attributes with
    | .object, some attributes => changeTop (.extendPairs attributes)
    -- Only an instance has a place for a state of another form.
    | .object, none => changeTop (.setState state)
    | .dict, some attributes => changeTop (.extendPairs attributes)
    | target, _ => fail (.invalidTarget opcode target (← kind state))
    return .running
  | .persistent id => do
    push (← persistent env (.str id))
    return .running
  | .stackPersistent => do
    let id ← value (← pop)
    push (← persistent env id)
    return .running
  | .extension code => do
    match env.extensions.lookup code with
    | some value => push (← embed value)
    | none => fail (.unknownExtension code)
    return .running
  | .nextBuffer => do
    match (← get).buffers with
    | none => fail .missingBuffers
    | some [] => fail .buffersExhausted
    | some (buffer :: rest) =>
      modify fun machine => { machine with buffers := some rest }
      push (.atom (.byteArray { bytes := buffer }))
    return .running
  | .makeReadonly => do
    match ← topKind with
    | .byteArray => changeTop .makeReadonly
    -- Bytes are never written to anyway.
    | .bytes => pure ()
    | found => fail (.invalidStackTop .buffer found)
    return .running

/-- Carries out one instruction. -/
def execute (instruction : Instruction) : Exec Status := do
  count 1
  during instruction.name (step env instruction.opcode instruction.operation)

end Exec

end Pickle
