import Pickle.Value.Basic

/-!
# How large and how deep values are

Two measures of a value as a tree.  Its *nodes* are all values and keys in it, itself included:
items, dict keys and their values, and everything that an instance holds.  Its *depth* is the
greatest number of containers and instances that are nested in one another; a value without parts
has depth zero, an empty container depth one.

The machine bounds both for everything that leaves it, in terms of what the pickle created.
-/

namespace Pickle

namespace Key

mutual

/-- The number of keys in a key, itself included. -/
def nodes : Key → Nat
  | .scalar _ => 1
  | .tuple items => nodesAll items + 1
  | .frozenSet items => nodesAll items + 1

/-- The number of keys in some keys. -/
def nodesAll : List Key → Nat
  | [] => 0
  | item :: rest => nodes item + nodesAll rest

end

mutual

/-- How deep tuples and frozen sets are nested in a key. -/
def depth : Key → Nat
  | .scalar _ => 0
  | .tuple items => depthAll items + 1
  | .frozenSet items => depthAll items + 1

/-- The greatest depth of some keys. -/
def depthAll : List Key → Nat
  | [] => 0
  | item :: rest => max (depth item) (depthAll rest)

end

end Key

namespace Value

mutual

/-- The number of values and keys in a value, itself included. -/
def nodes : Value → Nat
  | .atom _ => 1
  | .list items => nodesAll items + 1
  | .tuple items => nodesAll items + 1
  | .set items => Key.nodesAll items + 1
  | .frozenSet items => Key.nodesAll items + 1
  | .dict pairs => nodesPairs pairs + 1
  | .object ⟨_, args, kwargs, attributes, state⟩ =>
    nodesAll args + nodesKeywords kwargs + nodesPairs attributes + nodesState state + 1

/-- The number of nodes in some values. -/
def nodesAll : List Value → Nat
  | [] => 0
  | item :: rest => nodes item + nodesAll rest

/-- The number of nodes in some pairs. -/
def nodesPairs : List (Key × Value) → Nat
  | [] => 0
  | (key, value) :: rest => key.nodes + nodes value + nodesPairs rest

/-- The number of nodes in keyword arguments, whose names are no nodes. -/
def nodesKeywords : List (String × Value) → Nat
  | [] => 0
  | (_, value) :: rest => nodes value + nodesKeywords rest

/-- The number of nodes in a state, if there is one. -/
def nodesState : Option Value → Nat
  | Option.none => 0
  | some value => nodes value

end

mutual

/-- How deep containers and instances are nested in a value. -/
def depth : Value → Nat
  | .atom _ => 0
  | .list items => depthAll items + 1
  | .tuple items => depthAll items + 1
  | .set items => Key.depthAll items + 1
  | .frozenSet items => Key.depthAll items + 1
  | .dict pairs => depthPairs pairs + 1
  | .object ⟨_, args, kwargs, attributes, state⟩ =>
    max (max (depthAll args) (depthKeywords kwargs))
      (max (depthPairs attributes) (depthState state)) + 1

/-- The greatest depth of some values. -/
def depthAll : List Value → Nat
  | [] => 0
  | item :: rest => max (depth item) (depthAll rest)

/-- The greatest depth in some pairs. -/
def depthPairs : List (Key × Value) → Nat
  | [] => 0
  | (key, value) :: rest => max (max key.depth (depth value)) (depthPairs rest)

/-- The greatest depth of keyword arguments. -/
def depthKeywords : List (String × Value) → Nat
  | [] => 0
  | (_, value) :: rest => max (depth value) (depthKeywords rest)

/-- The depth of a state, if there is one. -/
def depthState : Option Value → Nat
  | Option.none => 0
  | some value => depth value

end

/-- Every value is a node of itself. -/
theorem nodes_pos (value : Value) : 0 < value.nodes := by
  cases value <;> simp [nodes]

mutual

/-- A key has the nodes of the value it is. -/
theorem nodes_toValue : (key : Key) → key.toValue.nodes = key.nodes
  | .scalar _ => by simp [Key.toValue, nodes, Key.nodes]
  | .tuple items => by simp [Key.toValue, nodes, Key.nodes, nodesAll_toValues items]
  | .frozenSet _ => by simp [Key.toValue, nodes, Key.nodes]

/-- Keys have the nodes of the values they are. -/
theorem nodesAll_toValues : (keys : List Key) → nodesAll (Key.toValues keys) = Key.nodesAll keys
  | [] => rfl
  | key :: rest => by
    simp [Key.toValues, nodesAll, Key.nodesAll, nodes_toValue key, nodesAll_toValues rest]

end

mutual

/-- A key is as deep as the value it is. -/
theorem depth_toValue : (key : Key) → key.toValue.depth = key.depth
  | .scalar _ => by simp [Key.toValue, depth, Key.depth]
  | .tuple items => by simp [Key.toValue, depth, Key.depth, depthAll_toValues items]
  | .frozenSet _ => by simp [Key.toValue, depth, Key.depth]

/-- Keys are as deep as the values they are. -/
theorem depthAll_toValues : (keys : List Key) → depthAll (Key.toValues keys) = Key.depthAll keys
  | [] => rfl
  | key :: rest => by
    simp [Key.toValues, depthAll, Key.depthAll, depth_toValue key, depthAll_toValues rest]

end

end Value

end Pickle
