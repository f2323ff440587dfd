import Pickle.Machine.Unfold

/-!
# From values to cells

Values that the host supplies, as constants, extensions, results of routines or persistent objects,
are taken apart: every container and instance gets a slot of its own, so that the pickle can change
its copy and nothing else.

Every node counts as created, and a node that `maxDepth` containers enclose is a failure, whatever
it is.  The parts of a container are embedded in order, those of an instance arguments first, then
keyword arguments, attributes and state; the container gets its slot after all of its parts.
-/

namespace Pickle.Exec

/-- Counts a node that `levels` more containers may enclose. -/
def enter : (levels : Nat) → Exec Nat
  | 0 => fail (.nestingTooDeep maxDepth)
  | levels + 1 => do
    count 1
    return levels

mutual

/-- Takes a key apart. -/
def embedKey (levels : Nat) : Key → Exec Cell
  | .scalar value => do
    let _ ← enter levels
    return .atom (.scalar value)
  | .tuple items => do
    let levels ← enter levels
    alloc (.tuple (← embedKeys levels #[] items).toList)
  | .frozenSet items => do
    let levels ← enter levels
    alloc (.frozenSet (← embedKeys levels #[] items).toList)

/-- Takes keys apart, after those whose cells are given. -/
def embedKeys (levels : Nat) (cells : Array Cell) : List Key → Exec (Array Cell)
  | [] => return cells
  | item :: rest => do
    let cell ← embedKey levels item
    embedKeys levels (cells.push cell) rest

end

mutual

/-- Takes a value apart, `levels` containers being allowed to enclose its innermost nodes. -/
def embedAt (levels : Nat) : Value → Exec Cell
  | .atom value => do
    let _ ← enter levels
    return .atom value
  | .list items => do
    let levels ← enter levels
    alloc (.list (← embedAll levels #[] items))
  | .tuple items => do
    let levels ← enter levels
    alloc (.tuple (← embedAll levels #[] items).toList)
  | .set items => do
    let levels ← enter levels
    alloc (.set (← embedKeys levels #[] items))
  | .frozenSet items => do
    let levels ← enter levels
    alloc (.frozenSet (← embedKeys levels #[] items).toList)
  | .dict pairs => do
    let levels ← enter levels
    alloc (.dict (← embedPairs levels #[] pairs))
  | .object ⟨className, args, kwargs, attributes, state⟩ => do
    let levels ← enter levels
    -- The four kinds of parts, in the order in which they get their slots.
    let args ← embedAll levels #[] args
    let kwargs ← embedKeywords levels #[] kwargs
    let attributes ← embedPairs levels #[] attributes
    let state ← embedState levels state
    alloc (.object ⟨className, args.toList, kwargs.toList, attributes.toList, state⟩)

/-- Takes values apart, after those whose cells are given. -/
def embedAll (levels : Nat) (cells : Array Cell) : List Value → Exec (Array Cell)
  | [] => return cells
  | item :: rest => do
    let cell ← embedAt levels item
    embedAll levels (cells.push cell) rest

/-- Takes pairs apart, after those whose cells are given. -/
def embedPairs (levels : Nat) (cells : Array (Cell × Cell)) :
    List (Key × Value) → Exec (Array (Cell × Cell))
  | [] => return cells
  | (key, value) :: rest => do
    let key ← embedKey levels key
    let value ← embedAt levels value
    embedPairs levels (cells.push (key, value)) rest

/-- Takes keyword arguments apart, after those whose cells are given. -/
def embedKeywords (levels : Nat) (cells : Array (String × Cell)) :
    List (String × Value) → Exec (Array (String × Cell))
  | [] => return cells
  | (name, value) :: rest => do
    let value ← embedAt levels value
    embedKeywords levels (cells.push (name, value)) rest

/-- Takes a state apart, if there is one. -/
def embedState (levels : Nat) : Option Value → Exec (Option Cell)
  | none => return none
  | some value => return some (← embedAt levels value)

end

/-- Takes a value of the host apart. -/
def embed (value : Value) : Exec Cell := embedAt maxDepth value

end Pickle.Exec
