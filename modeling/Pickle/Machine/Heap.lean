import Pickle.Machine.Unfold

/-!
# Slots as a graph

The slots of a machine are the nodes of a graph, and the references in their contents its edges.
A machine is *well formed* when every reference anywhere in it, on the stack, set aside, in the memo
or in a slot, leads to a slot that exists; the machine before its first instruction is
(`Machine.wellFormed_initial`).

A cell *reaches* the slots that can be found from it by following references, and it is *cyclic*
when it reaches a slot that can be found again from its own content.  A cell that is not cyclic
stands for a tree, `Machine.tree?`: the values that result when every reference is replaced by the
tree of its slot, with no regard to how large they grow.
-/

namespace Pickle

/-- The cells of pairs, each key before its value. -/
def pairCells (pairs : List (Cell × Cell)) : List Cell :=
  pairs.flatMap fun (key, value) => [key, value]

/-- The cells that a content holds. -/
def Content.cells : Content → List Cell
  | .atom _ => []
  | .list items => items.toList
  | .tuple items => items
  | .set items => items.toList
  | .frozenSet items => items
  | .dict pairs => pairCells pairs.toList
  | .object value =>
    value.args ++ value.kwargs.map Prod.snd ++ pairCells value.attributes ++ value.state.toList

/-- Whether a cell that refers to a slot refers to one of the first `count`. -/
def Cell.IsBelow (count : Nat) : Cell → Prop
  | .ref slot => slot < count
  | .atom _ => True

namespace Machine

/-- Every reference leads to a slot that exists. -/
structure WellFormed (machine : Machine) : Prop where
  /-- References on the stack. -/
  stack : ∀ cell ∈ machine.stack, cell.IsBelow machine.slots.size
  /-- References on the stacks that marks have set aside. -/
  saved : ∀ stack ∈ machine.saved, ∀ cell ∈ stack, cell.IsBelow machine.slots.size
  /-- Memo entries. -/
  memo : ∀ index slot : Nat, machine.memo[index]? = some slot → slot < machine.slots.size
  /-- References in slots. -/
  slots : ∀ content ∈ machine.slots, ∀ cell ∈ content.cells, cell.IsBelow machine.slots.size

/-- The machine before its first instruction has no references. -/
theorem wellFormed_initial (buffers : Option (List Bytes)) : (initial buffers).WellFormed where
  stack := by simp [initial]
  saved := by simp [initial]
  memo := by rintro index slot ⟨⟩
  slots := by simp [initial]

/-- Whether a slot can be found from a cell by following references. -/
inductive Reaches (machine : Machine) : Cell → Nat → Prop
  /-- A reference reaches its slot. -/
  | slot (index : Nat) : Reaches machine (.ref index) index
  /-- A reference reaches what the cells in its slot reach. -/
  | inside {index target : Nat} {cell : Cell} (held : cell ∈ (machine.slot index).cells)
      (found : Reaches machine cell target) : Reaches machine (.ref index) target

/-- Whether a slot that a cell reaches can be found again from its own content. -/
def IsCyclic (machine : Machine) (cell : Cell) : Prop :=
  ∃ index, machine.Reaches cell index ∧
    ∃ inner ∈ (machine.slot index).cells, machine.Reaches inner index

/-- The tree of pairs, given the trees of cells. -/
def pairTrees? (tree? : Cell → Option Value) (pairs : List (Cell × Cell)) :
    Option (List (Key × Value)) := do
  let trees ← pairs.mapM fun (key, value) => do
    let key ← (← tree? key).toKey?
    return (key, ← tree? value)
  return Key.mapOf trees

/-- The keys of the trees of cells. -/
def keyTrees? (tree? : Cell → Option Value) (cells : List Cell) : Option (List Key) := do
  return Key.setOf (← cells.mapM fun cell => do (← tree? cell).toKey?)

/-- The tree of a content, given the trees of cells. -/
def contentTree? (tree? : Cell → Option Value) : Content → Option Value
  | .atom value => some (.atom value)
  | .list items => return .list (← items.toList.mapM tree?)
  | .tuple items => return .tuple (← items.mapM tree?)
  | .set items => return .set (← keyTrees? tree? items.toList)
  | .frozenSet items => return .frozenSet (← keyTrees? tree? items)
  | .dict pairs => return .dict (← pairTrees? tree? pairs.toList)
  | .object value => do
    let args ← value.args.mapM tree?
    let kwargs ← value.kwargs.mapM fun (name, cell) => return (name, ← tree? cell)
    let attributes ← pairTrees? tree? value.attributes
    let state ← value.state.mapM tree?
    return .object ⟨value.className, args, keywordsOf kwargs, attributes, state⟩

/-- The tree of a cell from which no path has more than `height` references; none if there is a
longer path, or a key is no key. -/
def tree? (machine : Machine) : (height : Nat) → Cell → Option Value
  | _, .atom value => some (.atom value)
  | 0, .ref _ => none
  | height + 1, .ref slot => contentTree? (machine.tree? height) (machine.slot slot)

/-- Whether a cell stands for a tree. -/
def Unfolds (machine : Machine) (cell : Cell) (value : Value) : Prop :=
  ∃ height, machine.tree? height cell = some value

end Machine

end Pickle
