import Pickle.Proofs.Machine.Limits
import Pickle.Proofs.Value.Parts
import Pickle.Proofs.Value.Sorted

/-!
# Cells and the parts of trees

The tree of a slot is made of the trees of its cells, and each of its parts is one of them
(`Machine.exists_trees_of_contentTree?`).  Not every cell has a part in return: of several equal keys
a set or a map has one, and of the values that such keys were given it has the last, whereas a slot
remembers all of them.  `Machine.LosesNothing` says that no slot in sight has such keys, and then the
two are the same up to order.

`Machine.Encloses` counts the slots on the way from a cell to one inside it, as `Value.Encloses` counts
containers.  Where nothing gets lost, what encloses what is the same in a cell and in its tree
(`Machine.exists_encloses_of_tree`).
-/

namespace Pickle

/-- Whether a content is that of a container or an instance, be it empty or not. -/
def Content.IsContainer : Content → Prop
  | .atom _ => False
  | _ => True

namespace Value

/-- The parts of a map are its keys and values. -/
theorem perm_pairParts (pairs : List (Key × Value)) :
    (pairParts pairs).Perm ((pairs.map Prod.fst).map Key.toValue ++ pairs.map Prod.snd) := by
  induction pairs with
  | nil => exact .nil
  | cons pair rest ih =>
    obtain ⟨key, value⟩ := pair
    show (key.toValue :: value :: pairParts rest).Perm (key.toValue :: _)
    refine .cons _ ?_
    exact (ih.cons value).trans List.perm_middle.symm

theorem injective_toValue : Key.toValue.Injective := by
  intro key other h
  have hkey := toKey?_toValue key
  rw [h, toKey?_toValue] at hkey
  exact (Option.some.inj hkey).symm

theorem subperm_pairParts_mapOf (pairs : List (Key × Value)) :
    (pairParts (Key.mapOf pairs)).Subperm (pairParts pairs) := by
  have hkeys := (Ordered.subperm_keys_ofPairs Key.compare pairs).map injective_toValue
  have hvalues := Ordered.subperm_values_ofPairs Key.compare pairs
  refine (perm_pairParts _).subperm.trans ?_
  exact (hkeys.append hvalues).trans (perm_pairParts pairs).symm.subperm

theorem subperm_toValues_setOf (keys : List Key) :
    (Key.toValues (Key.setOf keys)).Subperm (Key.toValues keys) := by
  rw [toValues_eq_map, toValues_eq_map]
  exact (Ordered.subperm_ofList Key.compare keys).map injective_toValue

end Value

namespace Machine

open Value (pairParts)

/-! ## Trees of cells -/

section Trees

variable {tree? : Cell → Option Value}

/-- Whether some values are the trees of some cells. -/
abbrev AreTrees (tree? : Cell → Option Value) : List Cell → List Value → Prop :=
  List.Forall₂ fun cell tree => tree? cell = some tree

theorem AreTrees.append {first second : List Cell} {trees others : List Value}
    (h : AreTrees tree? first trees) (hothers : AreTrees tree? second others) :
    AreTrees tree? (first ++ second) (trees ++ others) := List.rel_append h hothers

theorem AreTrees.exists_mem {cells : List Cell} {trees : List Value}
    (h : AreTrees tree? cells trees) : ∀ cell ∈ cells, ∃ tree ∈ trees, tree? cell = some tree := by
  induction h with
  | nil => simp
  | @cons cell tree cells trees htree _ ih =>
    refine List.forall_mem_cons.2 ⟨⟨tree, List.mem_cons_self, htree⟩, fun other hother => ?_⟩
    obtain ⟨found, hfound, hother⟩ := ih other hother
    exact ⟨found, List.mem_cons_of_mem _ hfound, hother⟩

theorem AreTrees.exists_cell {cells : List Cell} {trees : List Value}
    (h : AreTrees tree? cells trees) : ∀ tree ∈ trees, ∃ cell ∈ cells, tree? cell = some tree := by
  induction h with
  | nil => simp
  | @cons cell tree cells trees htree _ ih =>
    refine List.forall_mem_cons.2 ⟨⟨cell, List.mem_cons_self, htree⟩, fun other hother => ?_⟩
    obtain ⟨found, hfound, hother⟩ := ih other hother
    exact ⟨found, List.mem_cons_of_mem _ hfound, hother⟩

/-- What a list is mapped to corresponds to it item by item. -/
theorem forall₂_of_mapM {α β : Type} {f : α → Option β} {items : List α} {results : List β}
    (h : items.mapM f = some results) :
    List.Forall₂ (fun item result => f item = some result) items results := by
  induction items generalizing results with
  | nil =>
    cases h
    exact .nil
  | cons item rest ih =>
    rw [List.mapM_cons] at h
    obtain ⟨result, hresult, hrest⟩ := Option.bind_eq_some_iff.1 h
    obtain ⟨others, hothers, hdone⟩ := Option.bind_eq_some_iff.1 hrest
    cases hdone
    exact .cons hresult (ih hothers)

theorem tree?_of_key {cell : Cell} {key : Key} (h : tree? cell >>= Value.toKey? = some key) :
    tree? cell = some key.toValue := by
  obtain ⟨tree, htree, hkey⟩ := Option.bind_eq_some_iff.1 h
  rw [htree, Value.toValue_of_toKey? tree hkey]

theorem exists_trees_of_keys {cells : List Cell} {keys : List Key}
    (h : keyTrees? tree? cells = some keys) :
    ∃ trees, AreTrees tree? cells trees ∧ (Key.toValues keys).Subperm trees := by
  obtain ⟨found, hfound, hdone⟩ := Option.bind_eq_some_iff.1 h
  cases hdone
  refine ⟨Key.toValues found, ?_, Value.subperm_toValues_setOf found⟩
  rw [Value.toValues_eq_map]
  exact List.forall₂_map_right_iff.2 ((forall₂_of_mapM hfound).imp fun _ _ => tree?_of_key)

theorem exists_trees_of_pairs {pairs : List (Cell × Cell)} {map : List (Key × Value)}
    (h : pairTrees? tree? pairs = some map) :
    ∃ trees, AreTrees tree? (pairCells pairs) trees ∧ (pairParts map).Subperm trees := by
  obtain ⟨found, hfound, hdone⟩ := Option.bind_eq_some_iff.1 h
  cases hdone
  refine ⟨pairParts found, ?_, Value.subperm_pairParts_mapOf found⟩
  have hentries := forall₂_of_mapM hfound
  clear h hfound
  induction hentries with
  | nil => exact .nil
  | cons hentry _ ih =>
    obtain ⟨tree, htree, hentry⟩ := Option.bind_eq_some_iff.1 hentry
    obtain ⟨key, hkey, hentry⟩ := Option.bind_eq_some_iff.1 hentry
    obtain ⟨value, hvalue, hentry⟩ := Option.bind_eq_some_iff.1 hentry
    cases hentry
    exact .cons (tree?_of_key (Option.bind_eq_some_iff.2 ⟨tree, htree, hkey⟩)) (.cons hvalue ih)

theorem exists_trees_of_keywords {kwargs : List (String × Cell)} {found : List (String × Value)}
    (h : kwargs.mapM (fun pair => do return (pair.1, ← tree? pair.2)) = some found) :
    ∃ trees, AreTrees tree? (kwargs.map Prod.snd) trees ∧
      ((keywordsOf found).map Prod.snd).Subperm trees := by
  refine ⟨found.map Prod.snd, ?_, Ordered.subperm_values_ofPairs Ord.compare found⟩
  refine List.forall₂_map_left_iff.2 (List.forall₂_map_right_iff.2 ((forall₂_of_mapM h).imp ?_))
  intro pair entry hentry
  obtain ⟨tree, htree, hdone⟩ := Option.bind_eq_some_iff.1 hentry
  cases hdone
  exact htree

theorem areTrees_of_state {state : Option Cell} {found : Option Value}
    (h : state.mapM tree? = some found) : AreTrees tree? state.toList found.toList := by
  cases state with
  | none =>
    cases h
    exact .nil
  | some cell =>
    have hmap : some <$> tree? cell = some found := h
    obtain ⟨tree, htree, rfl⟩ := Option.map_eq_some_iff.1 hmap
    exact .cons htree .nil

/-- The parts of the tree of a content are among the trees of its cells. -/
theorem exists_trees_of_contentTree? {content : Content} {value : Value}
    (h : contentTree? tree? content = some value) :
    ∃ trees, AreTrees tree? content.cells trees ∧ value.parts.Subperm trees := by
  cases content with
  | atom value =>
    cases h
    exact ⟨[], .nil, .refl _⟩
  | list items | tuple items =>
    obtain ⟨trees, htrees, hdone⟩ := Option.bind_eq_some_iff.1 h
    cases hdone
    exact ⟨trees, forall₂_of_mapM htrees, .refl _⟩
  | set items | frozenSet items =>
    obtain ⟨keys, hkeys, hdone⟩ := Option.bind_eq_some_iff.1 h
    cases hdone
    exact exists_trees_of_keys hkeys
  | dict pairs =>
    obtain ⟨map, hmap, hdone⟩ := Option.bind_eq_some_iff.1 h
    cases hdone
    exact exists_trees_of_pairs hmap
  | object value =>
    obtain ⟨args, hargs, hrest⟩ := Option.bind_eq_some_iff.1 h
    obtain ⟨kwargs, hkwargs, hrest⟩ := Option.bind_eq_some_iff.1 hrest
    obtain ⟨attributes, hattributes, hrest⟩ := Option.bind_eq_some_iff.1 hrest
    obtain ⟨state, hstate, hdone⟩ := Option.bind_eq_some_iff.1 hrest
    cases hdone
    obtain ⟨keywords, hkeywords, hfewer⟩ := exists_trees_of_keywords hkwargs
    obtain ⟨entries, hentries, hless⟩ := exists_trees_of_pairs hattributes
    refine ⟨args ++ keywords ++ entries ++ state.toList, ?_, ?_⟩
    · have hfirst : AreTrees tree? value.args args := forall₂_of_mapM hargs
      exact ((hfirst.append hkeywords).append hentries).append (areTrees_of_state hstate)
    · exact (((List.Subperm.refl args).append hfewer).append hless).append (.refl _)

/-- The tree of an instance is an instance. -/
theorem exists_eq_object {value : Instance Cell Cell} {tree : Value}
    (h : contentTree? tree? (.object value) = some tree) : ∃ instance_, tree = .object instance_ := by
  obtain ⟨args, -, hrest⟩ := Option.bind_eq_some_iff.1 h
  obtain ⟨kwargs, -, hrest⟩ := Option.bind_eq_some_iff.1 hrest
  obtain ⟨attributes, -, hrest⟩ := Option.bind_eq_some_iff.1 hrest
  obtain ⟨state, -, hdone⟩ := Option.bind_eq_some_iff.1 hrest
  exact ⟨_, (Option.some.inj hdone).symm⟩

/-- An atom or a sequence has the trees of all cells as parts. -/
theorem areTrees_of_isSequence {content : Content} {value : Value}
    (h : contentTree? tree? content = some value) (hvalue : value.IsSequence) :
    AreTrees tree? content.cells value.parts := by
  cases content with
  | atom value =>
    cases h
    exact .nil
  | list items | tuple items =>
    obtain ⟨trees, htrees, hdone⟩ := Option.bind_eq_some_iff.1 h
    cases hdone
    exact forall₂_of_mapM htrees
  | set items | frozenSet items | dict pairs =>
    obtain ⟨found, -, hdone⟩ := Option.bind_eq_some_iff.1 h
    cases hdone
    exact hvalue.elim
  | object value =>
    obtain ⟨instance_, rfl⟩ := exists_eq_object h
    exact hvalue.elim

end Trees

/-! ## What encloses what -/

/-- Whether so many slots, each referred to by a cell in the one before, lead from a cell to another
one. -/
inductive Encloses (machine : Machine) : Cell → ℕ → Cell → Prop
  /-- No slot leads from a cell to itself. -/
  | here (cell : Cell) : Encloses machine cell 0 cell
  /-- What is enclosed in a cell of a slot has one more slot around it. -/
  | inside {slot levels : ℕ} {cell inner : Cell} (held : cell ∈ (machine.slot slot).cells)
      (found : Encloses machine cell levels inner) :
      Encloses machine (.ref slot) (levels + 1) inner

/-- Whether the slots that a cell reaches keep all their cells as parts of their trees, so that no
set and no map has equal keys. -/
def LosesNothing (machine : Machine) (cell : Cell) : Prop :=
  ∀ slot tree, machine.Reaches cell slot → machine.Unfolds (.ref slot) tree →
    tree.parts.length = (machine.slot slot).cells.length

variable {machine : Machine} {cell inner : Cell} {slot levels height : ℕ} {value : Value}

theorem LosesNothing.of_mem (h : machine.LosesNothing (.ref slot))
    (hinner : inner ∈ (machine.slot slot).cells) : machine.LosesNothing inner :=
  fun _ _ hreach => h _ _ (.inside hinner hreach)

/-- If a slot loses nothing, its tree has just the trees of its cells as parts. -/
theorem LosesNothing.exists_perm (h : machine.LosesNothing (.ref slot))
    (htree : machine.tree? (height + 1) (.ref slot) = some value) :
    ∃ trees, AreTrees (machine.tree? height) (machine.slot slot).cells trees ∧
      value.parts.Perm trees := by
  obtain ⟨trees, htrees, hsub⟩ := exists_trees_of_contentTree? htree
  have hlength := h slot value (.slot slot) ⟨height + 1, htree⟩
  exact ⟨trees, htrees, hsub.perm_of_length_le (by rw [← htrees.length_eq, hlength])⟩

/-- What a cell reaches has a tree that the cell's tree encloses, if that has nothing but sequences in
it. -/
theorem exists_encloses_of_reaches (hreach : machine.Reaches cell slot)
    (htree : machine.Unfolds cell value) (h : value.OfSequences) :
    ∃ levels tree, machine.Unfolds (.ref slot) tree ∧ value.Encloses levels tree := by
  induction hreach generalizing value with
  | slot index => exact ⟨0, value, htree, .here value⟩
  | @inside index target cell held _ ih =>
    obtain ⟨height, htree⟩ := htree
    cases height with
    | zero => cases htree
    | succ height =>
      have htrees := areTrees_of_isSequence htree (h 0 value (.here value))
      obtain ⟨part, hpart, hinner⟩ := htrees.exists_mem cell held
      obtain ⟨levels, tree, hslot, hfound⟩ := ih ⟨height, hinner⟩
        fun levels inner hfound => h _ inner (.inside hpart hfound)
      exact ⟨levels + 1, tree, hslot, .inside hpart hfound⟩

/-- Where there are only sequences, nothing gets lost. -/
theorem losesNothing_of_ofSequences (htree : machine.Unfolds cell value) (h : value.OfSequences) :
    machine.LosesNothing cell := by
  intro slot tree hreach hslot
  obtain ⟨levels, found, hfound, hencloses⟩ := exists_encloses_of_reaches hreach htree h
  obtain rfl := hslot.unique hfound
  obtain ⟨height, htree⟩ := hslot
  cases height with
  | zero => cases htree
  | succ height =>
    exact (areTrees_of_isSequence htree (h levels tree hencloses)).length_eq.symm

/-- A slot's tree is a container if the slot's content is. -/
theorem isContainer_of_contentTree? {tree? : Cell → Option Value} {content : Content}
    (h : contentTree? tree? content = some value) (hcontent : content.IsContainer) :
    value.IsContainer := by
  cases content with
  | atom atom => exact hcontent.elim
  | list items | tuple items | set items | frozenSet items | dict pairs =>
    obtain ⟨parts, -, hdone⟩ := Option.bind_eq_some_iff.1 h
    cases hdone
    trivial
  | object instance_ =>
    obtain ⟨tree, rfl⟩ := exists_eq_object h
    trivial

theorem isContainer_of_unfolds (h : machine.Unfolds (.ref slot) value)
    (hslot : (machine.slot slot).IsContainer) : value.IsContainer := by
  obtain ⟨height, htree⟩ := h
  cases height with
  | zero => cases htree
  | succ height => exact isContainer_of_contentTree? htree hslot

/-- Where nothing gets lost, what a cell encloses has a tree that the cell's tree encloses. -/
theorem exists_encloses_of_tree (hfound : machine.Encloses cell levels inner)
    (h : machine.LosesNothing cell) (htree : machine.Unfolds cell value) :
    ∃ tree, machine.Unfolds inner tree ∧ value.Encloses levels tree := by
  induction hfound generalizing value with
  | here cell => exact ⟨value, htree, .here value⟩
  | @inside slot levels cell inner held _ ih =>
    obtain ⟨height, htree⟩ := htree
    cases height with
    | zero => cases htree
    | succ height =>
      obtain ⟨trees, htrees, hperm⟩ := h.exists_perm htree
      obtain ⟨part, hpart, hheld⟩ := htrees.exists_mem _ held
      obtain ⟨tree, hinner, hfound⟩ := ih (h.of_mem held) ⟨height, hheld⟩
      exact ⟨tree, hinner, .inside (hperm.mem_iff.2 hpart) hfound⟩

/-- Where nothing gets lost, a tree is deeper than the slots that enclose a container. -/
theorem lt_depth_of_encloses (hfound : machine.Encloses cell levels (.ref slot))
    (hslot : (machine.slot slot).IsContainer) (h : machine.LosesNothing cell)
    (htree : machine.Unfolds cell value) : levels < value.depth := by
  obtain ⟨tree, hinner, hencloses⟩ := exists_encloses_of_tree hfound h htree
  exact Value.lt_depth_iff.2 ⟨tree, hencloses, isContainer_of_unfolds hinner hslot⟩

theorem le_depth_of_encloses (hfound : machine.Encloses cell levels inner)
    (h : machine.LosesNothing cell) (htree : machine.Unfolds cell value) : levels ≤ value.depth := by
  obtain ⟨tree, -, hencloses⟩ := exists_encloses_of_tree hfound h htree
  exact (Nat.le_add_right _ _).trans hencloses.add_depth_le

/-- A cell with a tree of some height encloses no reference in so many slots. -/
theorem not_encloses_of_tree (htree : machine.tree? levels cell = some value) :
    ¬ machine.Encloses cell levels (.ref slot) := by
  intro hfound
  induction levels generalizing cell value with
  | zero =>
    cases hfound
    cases htree
  | succ levels ih =>
    cases hfound with
    | inside held hfound =>
      obtain ⟨tree, hinner⟩ := exists_tree_of_mem_cells htree _ held
      exact ih hinner hfound

end Machine

end Pickle
