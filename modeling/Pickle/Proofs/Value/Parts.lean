import Mathlib.Algebra.Order.BigOperators.Group.List
import Pickle.Proofs.Value.Size

/-!
# The parts of values

Whatever a value holds directly is a *part* of it, be it an item, a key or what a key stands for, an
argument, an attribute or a state.  A statement about all places in a value can be made by following
parts, with no regard to what they are parts of.

`Value.Encloses` follows parts and counts how many containers are left behind on the way.  The
measures of values come out of it: the nodes of a value are those of its parts and itself, and a value
is deeper than some number of containers if so many of them enclose a further one
(`Value.lt_depth_iff`).
-/

namespace Pickle

namespace Value

/-- The parts of a map, each key before what it stands for. -/
def pairParts (pairs : List (Key × Value)) : List Value :=
  pairs.flatMap fun (key, value) => [key.toValue, value]

/-- What a value holds directly. -/
def parts : Value → List Value
  | .atom _ => []
  | .list items => items
  | .tuple items => items
  | .set items => Key.toValues items
  | .frozenSet items => Key.toValues items
  | .dict pairs => pairParts pairs
  | .object value =>
    value.args ++ value.kwargs.map Prod.snd ++ pairParts value.attributes ++ value.state.toList

/-- Whether a value is a container or an instance, be it empty or not. -/
def IsContainer : Value → Prop
  | .atom _ => False
  | _ => True

/-- Whether so many containers and instances of a value, each inside the one before, enclose a value
in it. -/
inductive Encloses : Value → ℕ → Value → Prop
  /-- Nothing encloses the value itself. -/
  | here (value : Value) : Encloses value 0 value
  /-- What is enclosed in a part has one more container around it. -/
  | inside {value part inner : Value} {depth : ℕ} (held : part ∈ value.parts)
      (found : Encloses part depth inner) : Encloses value (depth + 1) inner

theorem toValues_eq_map (keys : List Key) : Key.toValues keys = keys.map Key.toValue := by
  induction keys with
  | nil => rfl
  | cons key rest ih => rw [Key.toValues, ih, List.map_cons]

variable {value inner : Value} {levels : ℕ}

@[simp] theorem encloses_zero_iff : value.Encloses 0 inner ↔ inner = value := by
  refine ⟨?_, ?_⟩
  · rintro ⟨⟩
    rfl
  · rintro rfl
    exact .here inner

theorem encloses_succ_iff :
    value.Encloses (levels + 1) inner ↔ ∃ part ∈ value.parts, part.Encloses levels inner := by
  refine ⟨?_, ?_⟩
  · rintro (_ | ⟨held, found⟩)
    exact ⟨_, held, found⟩
  · rintro ⟨part, held, found⟩
    exact .inside held found

/-! ## Atoms -/

/-- Whether all atoms in a value are good, wherever they are. -/
def AllAtoms (good : Atom → Prop) (value : Value) : Prop :=
  ∀ levels atom, value.Encloses levels (.atom atom) → good atom

variable {good : Atom → Prop}

theorem AllAtoms.of_parts (h : ∀ part ∈ value.parts, part.AllAtoms good)
    (hatom : ∀ atom, value = .atom atom → good atom) : value.AllAtoms good := by
  intro levels atom hfound
  cases hfound with
  | here => exact hatom atom rfl
  | inside held hfound => exact h _ held _ atom hfound

theorem AllAtoms.of_mem {part : Value} (h : value.AllAtoms good) (hpart : part ∈ value.parts) :
    part.AllAtoms good :=
  fun _ atom hfound => h _ atom (.inside hpart hfound)

@[simp] theorem allAtoms_atom_iff {atom : Atom} : (Value.atom atom).AllAtoms good ↔ good atom := by
  refine ⟨fun h => h 0 atom (.here _), fun h => .of_parts (by simp [parts]) ?_⟩
  rintro other ⟨⟩
  exact h

/-! ## Sequences -/

/-- Whether a value is an atom, a list or a tuple. -/
def IsSequence : Value → Prop
  | .atom _ | .list _ | .tuple _ => True
  | _ => False

/-- Whether a value has nothing but atoms, lists and tuples in it. -/
def OfSequences (value : Value) : Prop :=
  ∀ levels inner, value.Encloses levels inner → inner.IsSequence

theorem OfSequences.of_parts (h : ∀ part ∈ value.parts, part.OfSequences)
    (hvalue : value.IsSequence) : value.OfSequences := by
  intro levels inner hfound
  cases hfound with
  | here => exact hvalue
  | inside held hfound => exact h _ held _ inner hfound

/-! ## Measures -/

theorem nodesAll_eq (values : List Value) : nodesAll values = (values.map nodes).sum := by
  induction values with
  | nil => rfl
  | cons value rest ih => rw [nodesAll, ih, List.map_cons, List.sum_cons]

theorem nodesPairs_eq_parts (pairs : List (Key × Value)) :
    nodesPairs pairs = ((pairParts pairs).map nodes).sum := by
  induction pairs with
  | nil => rfl
  | cons pair rest ih =>
    obtain ⟨key, value⟩ := pair
    simp only [nodesPairs, ih, pairParts, List.flatMap_cons, List.cons_append, List.nil_append,
      List.map_cons, List.sum_cons, nodes_toValue]
    omega

theorem nodesState_eq (state : Option Value) : nodesState state = (state.toList.map nodes).sum := by
  cases state with
  | none => rfl
  | some value => simp [nodesState]

/-- The nodes of a value are those of its parts, and the value itself. -/
theorem nodes_eq (value : Value) : value.nodes = (value.parts.map nodes).sum + 1 := by
  cases value with
  | atom value => rfl
  | list items | tuple items => rw [nodes, parts, nodesAll_eq]
  | set items | frozenSet items => rw [nodes, parts, ← nodesAll_toValues, nodesAll_eq]
  | dict pairs => rw [nodes, parts, nodesPairs_eq_parts]
  | object value =>
    obtain ⟨_, args, kwargs, attributes, state⟩ := value
    simp only [nodes, parts, List.map_append, List.sum_append, nodesAll_eq, nodesKeywords_eq,
      nodesPairs_eq_parts, nodesState_eq]

/-- A part has fewer nodes than what it is a part of. -/
theorem nodes_lt_of_mem_parts {part : Value} (h : part ∈ value.parts) :
    part.nodes < value.nodes := by
  rw [nodes_eq value, Nat.lt_succ_iff]
  exact List.single_le_sum (fun _ _ => Nat.zero_le _) _ (List.mem_map_of_mem h)

/-- What holds of a value whenever it holds of its parts, holds of all values. -/
theorem induction_parts {motive : Value → Prop}
    (step : ∀ value, (∀ part ∈ value.parts, motive part) → motive value) (value : Value) :
    motive value :=
  step value fun part _hpart => induction_parts step part
termination_by value.nodes
decreasing_by exact nodes_lt_of_mem_parts _hpart

theorem depthPairs_le_iff_parts {pairs : List (Key × Value)} :
    depthPairs pairs ≤ levels ↔ ∀ part ∈ pairParts pairs, part.depth ≤ levels := by
  induction pairs with
  | nil => simp [depthPairs, pairParts]
  | cons pair rest ih =>
    obtain ⟨key, value⟩ := pair
    have hrest : depthPairs rest ≤ levels ↔
        ∀ part ∈ rest.flatMap fun pair => [pair.1.toValue, pair.2], part.depth ≤ levels := ih
    simp only [depthPairs, pairParts, List.flatMap_cons, List.cons_append, List.nil_append,
      List.forall_mem_cons, max_le_iff, depth_toValue, and_assoc, hrest]

/-- A value is one level deeper than its deepest part. -/
theorem depth_le_succ_iff :
    value.depth ≤ levels + 1 ↔ ∀ part ∈ value.parts, part.depth ≤ levels := by
  cases value with
  | atom value => simp [depth, parts]
  | list items | tuple items => rw [depth, parts, Nat.succ_le_succ_iff, depthAll_le_iff]
  | set items | frozenSet items =>
    rw [depth, parts, Nat.succ_le_succ_iff, ← depthAll_toValues, depthAll_le_iff]
  | dict pairs => rw [depth, parts, Nat.succ_le_succ_iff, depthPairs_le_iff_parts]
  | object value =>
    obtain ⟨_, args, kwargs, attributes, state⟩ := value
    have hstate : depthState state ≤ levels ↔ ∀ part ∈ state.toList, part.depth ≤ levels := by
      cases state <;> simp [depthState]
    simp only [depth, parts, Nat.succ_le_succ_iff, max_le_iff, List.forall_mem_append, hstate,
      depthAll_le_iff, depthKeywords_le_iff, depthPairs_le_iff_parts, and_assoc]

theorem depth_pos_iff : 0 < value.depth ↔ value.IsContainer := by
  cases value <;> simp [depth, IsContainer]

/-- How deep a value is, in terms of what encloses what. -/
theorem lt_depth_iff :
    levels < value.depth ↔ ∃ inner, value.Encloses levels inner ∧ inner.IsContainer := by
  induction levels generalizing value with
  | zero => simp [depth_pos_iff]
  | succ levels ih =>
    have hparts : levels + 1 < value.depth ↔ ∃ part ∈ value.parts, levels < part.depth := by
      have hle : value.depth ≤ levels + 1 ↔ ∀ part ∈ value.parts, part.depth ≤ levels :=
        depth_le_succ_iff
      simpa using hle.not
    rw [hparts]
    constructor
    · rintro ⟨part, hpart, hdepth⟩
      obtain ⟨inner, hinner, hcontainer⟩ := ih.1 hdepth
      exact ⟨inner, .inside hpart hinner, hcontainer⟩
    · rintro ⟨inner, hinner, hcontainer⟩
      obtain ⟨part, hpart, hfound⟩ := encloses_succ_iff.1 hinner
      exact ⟨part, hpart, ih.2 ⟨inner, hfound, hcontainer⟩⟩

theorem depth_lt_of_mem_parts {part : Value} (h : part ∈ value.parts) :
    part.depth < value.depth := by
  rcases hdepth : value.depth with _ | levels
  · cases value <;> simp [depth, parts] at hdepth h
  · exact Nat.lt_succ_of_le (depth_le_succ_iff.1 hdepth.le part h)

/-- What so many containers enclose is that much less deep than the outermost of them. -/
theorem Encloses.add_depth_le (h : value.Encloses levels inner) :
    levels + inner.depth ≤ value.depth := by
  induction h with
  | here value => exact (Nat.zero_add _).le
  | inside held _ ih =>
    have hlt := depth_lt_of_mem_parts held
    omega

theorem OfSequences.atom (atom : Atom) : (Value.atom atom).OfSequences :=
  .of_parts (by simp [parts]) trivial

/-- A value in as many tuples, each of which holds the one before. -/
def wrapped (value : Value) : ℕ → Value
  | 0 => value
  | number + 1 => .tuple [value.wrapped number]

theorem encloses_wrapped_iff (value : Value) (number : ℕ) :
    (value.wrapped number).Encloses (levels + number) inner ↔ value.Encloses levels inner := by
  induction number with
  | zero => rfl
  | succ number ih => rw [wrapped, ← Nat.add_assoc, encloses_succ_iff, ← ih]; simp [parts]

theorem depth_wrapped (value : Value) (number : ℕ) :
    (value.wrapped number).depth = value.depth + number := by
  induction number with
  | zero => rfl
  | succ number ih => simp [wrapped, depth, depthAll, ih, Nat.add_assoc]

theorem ofSequences_wrapped (h : value.OfSequences) (number : ℕ) :
    (value.wrapped number).OfSequences := by
  induction number with
  | zero => exact h
  | succ number ih => exact .of_parts (List.forall_mem_singleton.2 ih) trivial

end Value

end Pickle
