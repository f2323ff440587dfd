import Mathlib.Data.List.Induction
import Pickle.Proofs.Value.Maps

/-!
# Values whose sets and maps are in order

Values list the members of a set and the entries of a map in the order of keys.  A list that is in
order already is not changed when a set or a map is made of it (`Key.setOf_eq_self`,
`Key.mapOf_eq_self`); this is where the order must be one, and so there must be no floats in keys.

`Value.IsSorted` says this of all sets and maps in a value, those inside of keys included, and of the
names of keyword arguments.  Floats may be anywhere else.
-/

namespace Pickle

open Std (OrientedCmp)

/-! ## Sequences in order -/

namespace Ordered

variable {κ α : Type} {cmp : κ → κ → Ordering}

/-- An item above all members of a set becomes the last one. -/
theorem adjoin_eq_append {item : κ} {set : List κ} (h : ∀ other ∈ set, cmp item other = .gt) :
    adjoin cmp item set = set ++ [item] := by
  induction set with
  | nil => rfl
  | cons other rest ih =>
    obtain ⟨hother, hrest⟩ := List.forall_mem_cons.1 h
    rw [adjoin, hother, ih hrest, List.cons_append]

/-- A key above all keys of a map gets the last entry. -/
theorem insert_eq_append {key : κ} {value : α} {map : List (κ × α)}
    (h : ∀ entry ∈ map, cmp key entry.1 = .gt) :
    insert cmp key value map = map ++ [(key, value)] := by
  induction map with
  | nil => rfl
  | cons entry rest ih =>
    obtain ⟨hentry, hrest⟩ := List.forall_mem_cons.1 h
    rw [insert, hentry, ih hrest, List.cons_append]

/-- A sequence in which everything is above what is before it is a set already. -/
theorem ofList_eq_self {items : List κ}
    (h : items.Pairwise fun first second => cmp second first = .gt) : ofList cmp items = items := by
  induction items using List.reverseRecOn with
  | nil => rfl
  | append_singleton rest item ih =>
    obtain ⟨hrest, -, habove⟩ := List.pairwise_append.1 h
    have hset : rest.foldl (fun set item => adjoin cmp item set) [] = rest := ih hrest
    rw [ofList, List.foldl_append, hset]
    exact adjoin_eq_append fun other hother => habove other hother item List.mem_cons_self

/-- Pairs in which every key is above those before it are a map already. -/
theorem ofPairs_eq_self {pairs : List (κ × α)}
    (h : (pairs.map Prod.fst).Pairwise fun first second => cmp second first = .gt) :
    ofPairs cmp pairs = pairs := by
  induction pairs using List.reverseRecOn with
  | nil => rfl
  | append_singleton rest pair ih =>
    rw [List.map_append] at h
    obtain ⟨hrest, -, habove⟩ := List.pairwise_append.1 h
    have hmap : rest.foldl (fun map pair => insert cmp pair.1 pair.2 map) [] = rest := ih hrest
    rw [ofPairs, List.foldl_append, hmap]
    exact insert_eq_append fun entry hentry =>
      habove entry.1 (List.mem_map_of_mem hentry) pair.1 List.mem_cons_self

end Ordered

/-! ## Keys in order -/

namespace Key

/-- Whether keys are without floats and in ascending order. -/
structure Ascend (keys : List Key) : Prop where
  isFloatFree : ∀ key ∈ keys, key.IsFloatFree
  less : keys.Pairwise Less

/-- Without floats, what is above another key in one direction is below it in the other one. -/
theorem Ascend.above {keys : List Key} (h : Ascend keys) :
    keys.Pairwise fun first second => second.compare first = .gt := by
  refine h.less.imp_of_mem fun {first second} hfirst hsecond hless => ?_
  have hfirst := h.isFloatFree first hfirst
  have hsecond := h.isFloatFree second hsecond
  have hlt : first.exactly second = .lt :=
    (compare_eq_exactly_of_isFloatFree hfirst hsecond).symm.trans hless
  rw [compare_eq_exactly_of_isFloatFree hsecond hfirst]
  exact OrientedCmp.gt_of_lt hlt

theorem setOf_eq_self {items : List Key} (h : Ascend items) : setOf items = items :=
  Ordered.ofList_eq_self h.above

theorem mapOf_eq_self {α : Type} {pairs : List (Key × α)} (h : Ascend (pairs.map Prod.fst)) :
    mapOf pairs = pairs :=
  Ordered.ofPairs_eq_self h.above

mutual

/-- Whether all frozen sets in a key are in order. -/
def IsSorted : Key → Prop
  | .scalar _ => True
  | .tuple items => AllSorted items
  | .frozenSet items => Ascend items ∧ AllSorted items

/-- Whether all frozen sets in some keys are in order. -/
def AllSorted : List Key → Prop
  | [] => True
  | item :: rest => IsSorted item ∧ AllSorted rest

end

end Key

theorem keywordsOf_eq_self {α : Type} {kwargs : List (String × α)}
    (h : (kwargs.map Prod.fst).Pairwise (· < ·)) : keywordsOf kwargs = kwargs :=
  Ordered.ofPairs_eq_self (h.imp fun hless => compare_gt_iff_gt.2 hless)

/-! ## Values -/

namespace Value

mutual

/-- Whether all sets and maps in a value are in order and have keys without floats. -/
def IsSorted : Value → Prop
  | .atom _ => True
  | .list items => AllSorted items
  | .tuple items => AllSorted items
  | .set items => Key.Ascend items ∧ Key.AllSorted items
  | .frozenSet items => Key.Ascend items ∧ Key.AllSorted items
  | .dict pairs => Key.Ascend (pairs.map Prod.fst) ∧ PairsSorted pairs
  | .object ⟨_, args, kwargs, attributes, state⟩ =>
    AllSorted args ∧ ((kwargs.map Prod.fst).Pairwise (· < ·) ∧ KeywordsSorted kwargs) ∧
      (Key.Ascend (attributes.map Prod.fst) ∧ PairsSorted attributes) ∧ StateSorted state

/-- Whether all sets and maps in some values are in order. -/
def AllSorted : List Value → Prop
  | [] => True
  | item :: rest => IsSorted item ∧ AllSorted rest

/-- Whether all sets and maps in some pairs are in order. -/
def PairsSorted : List (Key × Value) → Prop
  | [] => True
  | (key, value) :: rest => (key.IsSorted ∧ IsSorted value) ∧ PairsSorted rest

/-- Whether all sets and maps in keyword arguments are in order. -/
def KeywordsSorted : List (String × Value) → Prop
  | [] => True
  | (_, value) :: rest => IsSorted value ∧ KeywordsSorted rest

/-- Whether all sets and maps in a state are in order, if there is one. -/
def StateSorted : Option Value → Prop
  | Option.none => True
  | some value => IsSorted value

end

mutual

/-- A key as a value is that key again. -/
theorem toKey?_toValue : (key : Key) → toKey? key.toValue = some key
  | .scalar _ => by rw [Key.toValue, toKey?]
  | .tuple items => by rw [Key.toValue, toKey?, toKeys?_toValues items, Option.map_some]
  | .frozenSet _ => by rw [Key.toValue, toKey?]

theorem toKeys?_toValues : (keys : List Key) → toKeys? (Key.toValues keys) = some keys
  | [] => rfl
  | key :: rest => by
    rw [Key.toValues, toKeys?, toKey?_toValue key, toKeys?_toValues rest]

end

end Value

end Pickle
