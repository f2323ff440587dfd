import Mathlib.Algebra.GroupWithZero.Nat
import Mathlib.Algebra.Order.BigOperators.Group.List
import Mathlib.Algebra.Order.Group.Nat
import Mathlib.Data.List.Perm.Subperm
import Pickle.Value.Measure

/-!
# Sets and maps are no larger than what they are made of

A set or a map that is made of a sequence has room for one of several keys that compare as equal, so
it has some of the keys of the sequence, each as often at most, and some of its values.  Hence it has
no more nodes, and is no deeper, than the sequence; nor is a value that becomes a key.
-/

namespace Pickle

/-! ## What sets and maps are made of -/

namespace Ordered

variable {κ α β γ : Type}

/-- A fold that adds at most one thing for each item has no more than the things for all items. -/
theorem subperm_foldl {step : List α → β → List α} {part : α → γ} {added : β → γ}
    (h : ∀ all item, ((step all item).map part).Subperm (added item :: all.map part))
    (items : List β) (all : List α) :
    ((items.foldl step all).map part).Subperm (items.map added ++ all.map part) := by
  induction items generalizing all with
  | nil => exact List.Subperm.refl _
  | cons item rest ih =>
    rw [List.foldl_cons, List.map_cons, List.cons_append]
    refine (ih (step all item)).trans ?_
    refine ((List.subperm_append_left _).2 (h all item)).trans ?_
    exact List.perm_middle.subperm

variable (cmp : κ → κ → Ordering)

theorem subperm_keys_insert (key : κ) (value : α) (map : List (κ × α)) :
    ((insert cmp key value map).map Prod.fst).Subperm (key :: map.map Prod.fst) := by
  fun_induction insert cmp key value map with
  | case1 => exact List.Subperm.refl _
  | case2 other old rest hcmp => exact List.Subperm.refl _
  | case3 other old rest hcmp => exact (List.sublist_cons_self _ _).subperm
  | case4 other old rest hcmp ih =>
    rw [List.map_cons, List.map_cons]
    exact ((List.subperm_cons other).2 ih).trans (List.Perm.swap ..).subperm

theorem subperm_values_insert (key : κ) (value : α) (map : List (κ × α)) :
    ((insert cmp key value map).map Prod.snd).Subperm (value :: map.map Prod.snd) := by
  fun_induction insert cmp key value map with
  | case1 => exact List.Subperm.refl _
  | case2 other old rest hcmp => exact List.Subperm.refl _
  | case3 other old rest hcmp => exact ((List.sublist_cons_self _ _).cons_cons value).subperm
  | case4 other old rest hcmp ih =>
    rw [List.map_cons, List.map_cons]
    exact ((List.subperm_cons old).2 ih).trans (List.Perm.swap ..).subperm

theorem subperm_adjoin (item : κ) (set : List κ) :
    (adjoin cmp item set).Subperm (item :: set) := by
  fun_induction adjoin cmp item set with
  | case1 => exact List.Subperm.refl _
  | case2 other rest hcmp => exact List.Subperm.refl _
  | case3 other rest hcmp => exact ((List.sublist_cons_self _ _).cons_cons item).subperm
  | case4 other rest hcmp ih => exact ((List.subperm_cons other).2 ih).trans (List.Perm.swap ..).subperm

/-- The keys of a map are among those that it is made of. -/
theorem subperm_keys_ofPairs (pairs : List (κ × α)) :
    ((ofPairs cmp pairs).map Prod.fst).Subperm (pairs.map Prod.fst) := by
  have h := subperm_foldl (fun map pair => subperm_keys_insert cmp pair.1 pair.2 map) pairs []
  rwa [List.map_nil, List.append_nil] at h

/-- The values of a map are among those that it is made of. -/
theorem subperm_values_ofPairs (pairs : List (κ × α)) :
    ((ofPairs cmp pairs).map Prod.snd).Subperm (pairs.map Prod.snd) := by
  have h := subperm_foldl (fun map pair => subperm_values_insert cmp pair.1 pair.2 map) pairs []
  rwa [List.map_nil, List.append_nil] at h

/-- The items of a set are among those that it is made of. -/
theorem subperm_ofList (items : List κ) : (ofList cmp items).Subperm items := by
  have hstep : ∀ (set : List κ) (item : κ),
      ((adjoin cmp item set).map id).Subperm (id item :: set.map id) := by
    intro set item
    rw [List.map_id, List.map_id]
    exact subperm_adjoin cmp item set
  have h := subperm_foldl hstep items []
  rwa [List.map_id, List.map_id, List.map_nil, List.append_nil] at h

end Ordered

theorem sum_map_le_of_subperm {α : Type} {first second : List α} (h : first.Subperm second)
    (size : α → ℕ) : (first.map size).sum ≤ (second.map size).sum := by
  obtain ⟨middle, hperm, hsub⟩ := h
  rw [← (hperm.map size).sum_eq]
  exact (hsub.map size).sum_le_sum fun _ _ => Nat.zero_le _

/-! ## Measures of items one by one -/

theorem Key.nodesAll_eq (items : List Key) : nodesAll items = (items.map nodes).sum := by
  induction items with
  | nil => rfl
  | cons item rest ih => rw [nodesAll, ih, List.map_cons, List.sum_cons]

theorem Key.depthAll_le_iff {items : List Key} {levels : ℕ} :
    depthAll items ≤ levels ↔ ∀ item ∈ items, item.depth ≤ levels := by
  induction items with
  | nil => simp [depthAll]
  | cons item rest ih => simp [depthAll, ih]

namespace Value

theorem depthAll_le_iff {items : List Value} {levels : ℕ} :
    depthAll items ≤ levels ↔ ∀ item ∈ items, item.depth ≤ levels := by
  induction items with
  | nil => simp [depthAll]
  | cons item rest ih => simp [depthAll, ih]

theorem nodes_le_nodesAll {items : List Value} {item : Value} (h : item ∈ items) :
    item.nodes ≤ nodesAll items := by
  induction items with
  | nil => cases h
  | cons first rest ih =>
    rw [nodesAll]
    rcases List.mem_cons.1 h with rfl | h
    · omega
    · have := ih h
      omega

theorem nodesAll_append (first second : List Value) :
    nodesAll (first ++ second) = nodesAll first + nodesAll second := by
  induction first with
  | nil => exact (Nat.zero_add _).symm
  | cons value rest ih => rw [List.cons_append, nodesAll, nodesAll, ih, Nat.add_assoc]

/-- A new instance has the nodes of its arguments, and is one more. -/
theorem nodes_fresh (name : ClassName) (args : List Value) :
    (Value.object (.fresh name args [])).nodes = nodesAll args + 1 := by
  simp [Instance.fresh, nodes, nodesKeywords, nodesPairs, nodesState]

theorem depth_fresh (name : ClassName) (args : List Value) :
    (Value.object (.fresh name args [])).depth = depthAll args + 1 := by
  simp [Instance.fresh, depth, depthKeywords, depthPairs, depthState]

theorem nodesPairs_eq (pairs : List (Key × Value)) : nodesPairs pairs =
    ((pairs.map Prod.fst).map Key.nodes).sum + ((pairs.map Prod.snd).map nodes).sum := by
  induction pairs with
  | nil => rfl
  | cons pair rest ih =>
    simp only [nodesPairs, ih, List.map_cons, List.sum_cons]
    omega

theorem depthPairs_le_iff {pairs : List (Key × Value)} {levels : ℕ} :
    depthPairs pairs ≤ levels ↔ (∀ key ∈ pairs.map Prod.fst, key.depth ≤ levels) ∧
      ∀ value ∈ pairs.map Prod.snd, value.depth ≤ levels := by
  induction pairs with
  | nil => simp [depthPairs]
  | cons pair rest ih =>
    simp only [depthPairs, max_le_iff, ih, List.map_cons, List.forall_mem_cons]
    tauto

theorem nodesKeywords_eq (pairs : List (String × Value)) :
    nodesKeywords pairs = ((pairs.map Prod.snd).map nodes).sum := by
  induction pairs with
  | nil => rfl
  | cons pair rest ih => rw [nodesKeywords, ih, List.map_cons, List.map_cons, List.sum_cons]

theorem depthKeywords_le_iff {pairs : List (String × Value)} {levels : ℕ} :
    depthKeywords pairs ≤ levels ↔ ∀ value ∈ pairs.map Prod.snd, value.depth ≤ levels := by
  induction pairs with
  | nil => simp [depthKeywords]
  | cons pair rest ih => simp [depthKeywords, ih]

end Value

/-! ## Sets, maps and keyword arguments -/

theorem Key.nodesAll_setOf_le (items : List Key) : nodesAll (setOf items) ≤ nodesAll items := by
  rw [nodesAll_eq, nodesAll_eq]
  exact sum_map_le_of_subperm (Ordered.subperm_ofList compare items) nodes

theorem Key.depthAll_setOf_le (items : List Key) : depthAll (setOf items) ≤ depthAll items :=
  depthAll_le_iff.2 fun item hitem => depthAll_le_iff.1 le_rfl item
    ((Ordered.subperm_ofList compare items).subset hitem)

namespace Value

theorem nodesPairs_mapOf_le (pairs : List (Key × Value)) :
    nodesPairs (Key.mapOf pairs) ≤ nodesPairs pairs := by
  rw [nodesPairs_eq, nodesPairs_eq]
  exact Nat.add_le_add
    (sum_map_le_of_subperm (Ordered.subperm_keys_ofPairs Key.compare pairs) Key.nodes)
    (sum_map_le_of_subperm (Ordered.subperm_values_ofPairs Key.compare pairs) nodes)

theorem depthPairs_mapOf_le (pairs : List (Key × Value)) :
    depthPairs (Key.mapOf pairs) ≤ depthPairs pairs := by
  obtain ⟨hkeys, hvalues⟩ := depthPairs_le_iff.1 (le_refl (depthPairs pairs))
  refine depthPairs_le_iff.2 ⟨fun key hkey => hkeys key ?_, fun value hvalue => hvalues value ?_⟩
  · exact (Ordered.subperm_keys_ofPairs Key.compare pairs).subset hkey
  · exact (Ordered.subperm_values_ofPairs Key.compare pairs).subset hvalue

theorem nodesKeywords_keywordsOf_le (pairs : List (String × Value)) :
    nodesKeywords (keywordsOf pairs) ≤ nodesKeywords pairs := by
  rw [nodesKeywords_eq, nodesKeywords_eq]
  exact sum_map_le_of_subperm (Ordered.subperm_values_ofPairs compare pairs) nodes

theorem depthKeywords_keywordsOf_le (pairs : List (String × Value)) :
    depthKeywords (keywordsOf pairs) ≤ depthKeywords pairs :=
  depthKeywords_le_iff.2 fun value hvalue => depthKeywords_le_iff.1 le_rfl value
    ((Ordered.subperm_values_ofPairs compare pairs).subset hvalue)

/-! ## Keys -/

mutual

/-- A value that becomes a key is the value that the key is. -/
theorem toValue_of_toKey? : (value : Value) → {key : Key} → value.toKey? = some key →
    key.toValue = value
  | .atom (.scalar value), key, h => by
    cases h
    rfl
  | .tuple items, key, h => by
    rw [toKey?] at h
    obtain ⟨keys, hkeys, rfl⟩ := Option.map_eq_some_iff.1 h
    rw [Key.toValue, toValues_of_toKeys? items hkeys]
  | .frozenSet items, key, h => by
    cases h
    rfl
  | .atom (.byteArray _), _, h | .atom (.class_ _), _, h | .atom (.callable _), _, h
  | .list _, _, h | .set _, _, h | .dict _, _, h | .object _, _, h => by cases h

theorem toValues_of_toKeys? : (items : List Value) → {keys : List Key} →
    toKeys? items = some keys → Key.toValues keys = items
  | [], keys, h => by
    cases h
    rfl
  | item :: rest, keys, h => by
    rw [toKeys?] at h
    split at h
    · next key others hkey hothers =>
      cases h
      rw [Key.toValues, toValue_of_toKey? item hkey, toValues_of_toKeys? rest hothers]
    · cases h

end

end Value

end Pickle
