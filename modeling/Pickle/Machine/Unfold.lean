import Pickle.Machine.Basic

/-!
# From cells to values

What leaves the machine is a plain tree, so every reference is replaced by a copy of what its slot
stands for.  Three limits keep this finite and small.  A slot that is met again inside itself is a
failure; so is a reference at a depth of `maxDepth`; and every visit, to a reference or to a
content, is charged to a budget of nodes, which grows with what the pickle created.

Charging comes first, then the depth, then the search for the slot among those that enclose it.
`Machine.value` converts one cell under a fresh budget.
-/

namespace Pickle

/-- The number of containers that may be nested in one another. -/
def maxDepth : Nat := 256

/-- The number of nodes that every value may have. -/
def minNodes : Nat := 1048576

/-- The number of further nodes for each thing that the pickle created. -/
def nodeFactor : Nat := 16

/-- A conversion under a budget of nodes. -/
abbrev Unfolding := StateT Nat (Except Failure)

namespace Unfolding

/-- Fails. -/
def fail {α : Type} (failure : Failure) : Unfolding α := fun _ => .error failure

/-- Charges one node to the budget, which was `limit` at first. -/
def charge (limit : Nat) : Unfolding Unit := fun budget =>
  match budget with
  | 0 => .error (.tooManyValues limit)
  | left + 1 => .ok ((), left)

/-- The key that a value is. -/
def key (value : Value) : Unfolding Key :=
  match value.toKey? with
  | some key => pure key
  | none => fail .unhashable

variable (convert : Cell → Unfolding Value)

/-- Converts a cell that must be a key. -/
def keyOf (cell : Cell) : Unfolding Key := do key (← convert cell)

/-- Converts pairs, each key before its value. -/
def pairs (cells : List (Cell × Cell)) : Unfolding (List (Key × Value)) := do
  let converted ← cells.mapM fun (key, value) => do
    let key ← keyOf convert key
    return (key, ← convert value)
  return Key.mapOf converted

/-- Converts keyword arguments. -/
def keywords (cells : List (String × Cell)) : Unfolding (List (String × Value)) := do
  let converted ← cells.mapM fun (name, value) => return (name, ← convert value)
  return keywordsOf converted

/-- Converts what a slot holds, given how its cells are converted.  An instance has its keyword
arguments converted before its arguments, and its attributes before its state. -/
def content (limit : Nat) (content : Content) : Unfolding Value := do
  charge limit
  match content with
  | .atom value => return .atom value
  | .list items => return .list (← items.toList.mapM convert)
  | .tuple items => return .tuple (← items.mapM convert)
  | .set items => return .set (Key.setOf (← items.toList.mapM (keyOf convert)))
  | .frozenSet items => return .frozenSet (Key.setOf (← items.mapM (keyOf convert)))
  | .dict cells => return .dict (← pairs convert cells.toList)
  | .object value =>
    let kwargs ← keywords convert value.kwargs
    let args ← value.args.mapM convert
    let attributes ← pairs convert value.attributes
    let state ← value.state.mapM convert
    return .object ⟨value.className, args, kwargs, attributes, state⟩

end Unfolding

namespace Machine

/-- Converts a cell, `levels` references being allowed inside one another, none of them to a slot
of `enclosing`. -/
def unfold (machine : Machine) (limit : Nat) :
    (levels : Nat) → (enclosing : List Nat) → Cell → Unfolding Value
  | _, _, .atom value => do
    Unfolding.charge limit
    return .atom value
  -- A reference is a level of its own, whether its slot holds a container or an atom.
  | 0, _, .ref _ => do
    Unfolding.charge limit
    Unfolding.fail (.nestingTooDeep maxDepth)
  | levels + 1, enclosing, .ref slot => do
    Unfolding.charge limit
    if enclosing.contains slot then Unfolding.fail .recursive
    else
      Unfolding.content (machine.unfold limit levels (slot :: enclosing)) limit
        (machine.slot slot)

/-- The number of nodes that a value may have now. -/
def nodeLimit (machine : Machine) : Nat := minNodes + nodeFactor * machine.created

/-- The value that a cell stands for. -/
def value (machine : Machine) (cell : Cell) : Except Failure Value :=
  let limit := machine.nodeLimit
  (machine.unfold limit maxDepth [] cell).run' limit

end Machine

/-- The value that a cell stands for. -/
def Exec.value (cell : Cell) : Exec Value := fun machine =>
  match machine.value cell with
  | .ok value => .ok value machine
  | .error failure => .error (.ofFailure failure) machine

end Pickle
