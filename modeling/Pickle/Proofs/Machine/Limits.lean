import Pickle.Proofs.Machine.Conversion
import Pickle.Proofs.Value.Size

/-!
# How large a converted value can be

A conversion pays for every node of its result: one unit of the budget for each atom, key and
container, be it shared or not, as shared slots are gone through again and again.  And a container
stands behind a reference always, so a result is no deeper than references may be inside one another.
Sets and maps that end up with fewer items than they had cells have been paid for all the same.

`pays_unfold` says so of conversions under any limits, and `isWithin_of_value` of those from a fresh
budget.
-/

namespace Pickle

/-- Whether a value is within the limits for what leaves a machine that has created so much. -/
def Value.IsWithin (created : ℕ) (value : Value) : Prop :=
  value.depth ≤ maxDepth ∧ value.nodes ≤ minNodes + nodeFactor * created

instance (created : ℕ) (value : Value) : Decidable (value.IsWithin created) :=
  inferInstanceAs (Decidable (_ ∧ _))

namespace Unfolding

variable {α β γ : Type}

/-- Whether every success of a conversion costs some of the budget that is good for the result. -/
def Pays (action : Unfolding α) (good : ℕ → α → Prop) : Prop :=
  ∀ budget value left, action budget = .ok (value, left) →
    ∃ cost, budget = cost + left ∧ good cost value

namespace Pays

variable {good : ℕ → α → Prop} {fine : ℕ → β → Prop}

theorem pure {value : α} (h : good 0 value) : Pays (Pure.pure value) good := by
  intro budget result left hrun
  cases hrun
  exact ⟨0, (Nat.zero_add _).symm, h⟩

theorem fail (failure : Failure) : Pays (Unfolding.fail failure) good := by
  intro budget value left hrun
  cases hrun

/-- The costs of two conversions add up. -/
theorem bind {action : Unfolding α} {next : α → Unfolding β} (hfirst : Pays action good)
    (hsecond : ∀ cost value, good cost value →
      Pays (next value) fun more result => fine (cost + more) result) :
    Pays (action >>= next) fine := by
  intro budget result left hrun
  obtain ⟨⟨value, middle⟩, haction, hnext⟩ := exists_of_bind_eq_ok hrun
  obtain ⟨cost, rfl, hgood⟩ := hfirst _ _ _ haction
  obtain ⟨more, rfl, hfine⟩ := hsecond cost value hgood _ _ _ hnext
  exact ⟨cost + more, (Nat.add_assoc ..).symm, hfine⟩

theorem charge (limit : ℕ) : Pays (Unfolding.charge limit) fun cost _ => cost = 1 := by
  intro budget value left hrun
  cases budget with
  | zero => cases hrun
  | succ budget =>
    cases hrun
    exact ⟨1, Nat.add_comm .., rfl⟩

/-- What one conversion costs for each item, all conversions cost for the items together. -/
theorem mapM {action : γ → Unfolding α} {all : ℕ → List α → Prop} (hnil : all 0 [])
    (hcons : ∀ cost value more values, good cost value → all more values →
      all (cost + more) (value :: values))
    (h : ∀ item, Pays (action item) good) (items : List γ) : Pays (items.mapM action) all := by
  induction items with
  | nil => exact pure hnil
  | cons item rest ih =>
    rw [List.mapM_cons]
    refine (h item).bind fun cost value hvalue => ih.bind fun more values hvalues => pure ?_
    rw [Nat.add_zero]
    exact hcons cost value more values hvalue hvalues

end Pays

/-! ## The parts of contents -/

/-- Whether a value is no deeper than allowed and has no more nodes than paid for. -/
def Covers (levels cost : ℕ) (value : Value) : Prop := value.depth ≤ levels ∧ value.nodes ≤ cost

variable {convert : Cell → Unfolding Value} {levels : ℕ}

theorem pays_values (h : ∀ cell, Pays (convert cell) (Covers levels)) (cells : List Cell) :
    Pays (cells.mapM convert) fun cost values =>
      Value.depthAll values ≤ levels ∧ Value.nodesAll values ≤ cost := by
  refine .mapM ⟨Nat.zero_le _, le_rfl⟩ (fun cost value more values hvalue hvalues => ?_) h cells
  exact ⟨max_le hvalue.1 hvalues.1, Nat.add_le_add hvalue.2 hvalues.2⟩

/-- A key is as deep as the value that it was, and has as many nodes. -/
theorem pays_keyOf (h : ∀ cell, Pays (convert cell) (Covers levels)) (cell : Cell) :
    Pays (keyOf convert cell) fun cost key => key.depth ≤ levels ∧ key.nodes ≤ cost := by
  refine (h cell).bind fun cost value hvalue => ?_
  unfold key
  split
  · next key hkey =>
    rw [← Value.toValue_of_toKey? value hkey] at hvalue
    refine .pure ?_
    rw [Nat.add_zero, ← Value.depth_toValue, ← Value.nodes_toValue]
    exact hvalue
  · exact .fail _

theorem pays_keys (h : ∀ cell, Pays (convert cell) (Covers levels)) (cells : List Cell) :
    Pays (cells.mapM (keyOf convert)) fun cost keys =>
      Key.depthAll (Key.setOf keys) ≤ levels ∧ Key.nodesAll (Key.setOf keys) ≤ cost := by
  have hkeys : Pays (cells.mapM (keyOf convert)) fun cost keys =>
      Key.depthAll keys ≤ levels ∧ Key.nodesAll keys ≤ cost := by
    refine .mapM ⟨Nat.zero_le _, le_rfl⟩ (fun cost key more keys hkey hkeys => ?_) (pays_keyOf h)
      cells
    exact ⟨max_le hkey.1 hkeys.1, Nat.add_le_add hkey.2 hkeys.2⟩
  intro budget keys left hrun
  obtain ⟨cost, hbudget, hdepth, hnodes⟩ := hkeys _ _ _ hrun
  exact ⟨cost, hbudget, (Key.depthAll_setOf_le keys).trans hdepth,
    (Key.nodesAll_setOf_le keys).trans hnodes⟩

theorem pays_pairs (h : ∀ cell, Pays (convert cell) (Covers levels)) (cells : List (Cell × Cell)) :
    Pays (pairs convert cells) fun cost pairs =>
      Value.depthPairs pairs ≤ levels ∧ Value.nodesPairs pairs ≤ cost := by
  have hpair : ∀ pair : Cell × Cell,
      Pays (do let key ← keyOf convert pair.1; return (key, ← convert pair.2)) fun cost pair =>
        max pair.1.depth pair.2.depth ≤ levels ∧ pair.1.nodes + pair.2.nodes ≤ cost := by
    refine fun pair => (pays_keyOf h pair.1).bind fun cost key hkey => ?_
    refine (h pair.2).bind fun more value hvalue => .pure ?_
    exact ⟨max_le hkey.1 hvalue.1, Nat.add_le_add hkey.2 hvalue.2⟩
  have hpairs : Pays (cells.mapM fun pair => do
      let key ← keyOf convert pair.1
      return (key, ← convert pair.2)) fun cost pairs =>
        Value.depthPairs pairs ≤ levels ∧ Value.nodesPairs pairs ≤ cost := by
    refine .mapM ⟨Nat.zero_le _, le_rfl⟩ (fun cost pair more pairs hpair hpairs => ?_) hpair cells
    exact ⟨max_le hpair.1 hpairs.1, Nat.add_le_add hpair.2 hpairs.2⟩
  refine hpairs.bind fun cost pairs hpairs => .pure ?_
  exact ⟨(Value.depthPairs_mapOf_le pairs).trans hpairs.1,
    (Value.nodesPairs_mapOf_le pairs).trans hpairs.2⟩

theorem pays_keywords (h : ∀ cell, Pays (convert cell) (Covers levels))
    (cells : List (String × Cell)) :
    Pays (keywords convert cells) fun cost pairs =>
      Value.depthKeywords pairs ≤ levels ∧ Value.nodesKeywords pairs ≤ cost := by
  have hpair : ∀ pair : String × Cell, Pays (do return (pair.1, ← convert pair.2)) fun cost pair =>
      Covers levels cost pair.2 :=
    fun pair => (h pair.2).bind fun cost value hvalue => .pure hvalue
  have hpairs : Pays (cells.mapM fun pair => do return (pair.1, ← convert pair.2))
      fun cost pairs => Value.depthKeywords pairs ≤ levels ∧ Value.nodesKeywords pairs ≤ cost := by
    refine .mapM ⟨Nat.zero_le _, le_rfl⟩ (fun cost pair more pairs hpair hpairs => ?_) hpair cells
    exact ⟨max_le hpair.1 hpairs.1, Nat.add_le_add hpair.2 hpairs.2⟩
  refine hpairs.bind fun cost pairs hpairs => .pure ?_
  exact ⟨(Value.depthKeywords_keywordsOf_le pairs).trans hpairs.1,
    (Value.nodesKeywords_keywordsOf_le pairs).trans hpairs.2⟩

theorem pays_state (h : ∀ cell, Pays (convert cell) (Covers levels)) (cell : Option Cell) :
    Pays (cell.mapM convert) fun cost state =>
      Value.depthState state ≤ levels ∧ Value.nodesState state ≤ cost := by
  cases cell with
  | none => exact .pure ⟨Nat.zero_le _, le_rfl⟩
  | some cell =>
    show Pays (some <$> convert cell) _
    rw [map_eq_pure_bind]
    exact (h cell).bind fun cost value hvalue => .pure hvalue

/-- A content costs its own node and those of its parts, and is one level deeper than they are. -/
theorem pays_content (h : ∀ cell, Pays (convert cell) (Covers levels)) (limit : ℕ)
    (content : Content) : Pays (Unfolding.content convert limit content) (Covers (levels + 1)) := by
  refine (Pays.charge limit).bind ?_
  rintro _ _ rfl
  -- The charge of one pays for the node of the container itself.
  have hone : ∀ {levels' cost : ℕ} {value : Value}, value.depth ≤ levels' → value.nodes ≤ cost + 1 →
      Covers levels' (1 + cost) value := by
    intro levels' cost value hdepth hnodes
    exact ⟨hdepth, hnodes.trans (Nat.add_comm ..).le⟩
  cases content with
  | atom value => exact .pure (hone (Nat.zero_le _) le_rfl)
  | list items =>
    refine (pays_values h items.toList).bind fun cost values hvalues => .pure ?_
    exact hone (Nat.succ_le_succ hvalues.1) (Nat.succ_le_succ hvalues.2)
  | tuple items =>
    refine (pays_values h items).bind fun cost values hvalues => .pure ?_
    exact hone (Nat.succ_le_succ hvalues.1) (Nat.succ_le_succ hvalues.2)
  | set items =>
    refine (pays_keys h items.toList).bind fun cost keys hkeys => .pure ?_
    exact hone (Nat.succ_le_succ hkeys.1) (Nat.succ_le_succ hkeys.2)
  | frozenSet items =>
    refine (pays_keys h items).bind fun cost keys hkeys => .pure ?_
    exact hone (Nat.succ_le_succ hkeys.1) (Nat.succ_le_succ hkeys.2)
  | dict cells =>
    refine (pays_pairs h cells.toList).bind fun cost pairs hpairs => .pure ?_
    exact hone (Nat.succ_le_succ hpairs.1) (Nat.succ_le_succ hpairs.2)
  | object value =>
    refine (pays_keywords h value.kwargs).bind fun cost₁ kwargs hkwargs => ?_
    refine (pays_values h value.args).bind fun cost₂ args hargs => ?_
    refine (pays_pairs h value.attributes).bind fun cost₃ attributes hattributes => ?_
    refine (pays_state h value.state).bind fun cost₄ state hstate => .pure (hone ?_ ?_)
    · exact Nat.succ_le_succ (max_le (max_le hargs.1 hkwargs.1) (max_le hattributes.1 hstate.1))
    · have hall := Nat.add_le_add (Nat.add_le_add (Nat.add_le_add hargs.2 hkwargs.2) hattributes.2)
        hstate.2
      simp only [Value.nodes]
      omega

end Unfolding

open Unfolding

namespace Machine

/-- A conversion pays for all nodes of its result, which is no deeper than allowed. -/
theorem pays_unfold (machine : Machine) (limit levels : ℕ) (enclosing : List ℕ) (cell : Cell) :
    Pays (machine.unfold limit levels enclosing cell) (Covers levels) := by
  induction levels generalizing enclosing cell with
  | zero =>
    cases cell with
    | atom value =>
      refine (Pays.charge limit).bind ?_
      rintro _ _ rfl
      exact .pure ⟨le_rfl, le_rfl⟩
    | ref slot => exact (Pays.charge limit).bind fun _ _ _ => .fail _
  | succ levels ih =>
    cases cell with
    | atom value =>
      refine (Pays.charge limit).bind ?_
      rintro _ _ rfl
      exact .pure ⟨Nat.zero_le _, le_rfl⟩
    | ref slot =>
      refine (Pays.charge limit).bind fun cost _ _ => ?_
      split
      · exact .fail _
      · intro budget value left hrun
        obtain ⟨more, hbudget, hdepth, hnodes⟩ :=
          pays_content (ih (slot :: enclosing)) limit (machine.slot slot) _ _ _ hrun
        exact ⟨more, hbudget, hdepth, hnodes.trans (Nat.le_add_left ..)⟩

/-- A value that was converted is within the limits. -/
theorem isWithin_of_value {machine : Machine} {cell : Cell} {value : Value}
    (h : machine.value cell = .ok value) : value.IsWithin machine.created := by
  obtain ⟨left, hrun⟩ := unfold_of_value h
  obtain ⟨cost, hbudget, hdepth, hnodes⟩ := pays_unfold machine _ _ _ _ _ _ _ hrun
  have hcost : cost ≤ machine.nodeLimit := by omega
  exact ⟨hdepth, hnodes.trans hcost⟩

end Machine

end Pickle
