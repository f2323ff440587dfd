import Mathlib.Data.List.Forall2
import Pickle.Proofs.Machine.Conversion
import Pickle.Proofs.Value.Sorted

/-!
# Cells that stand for values

What a conversion does to a cell depends on the slots that the cell reaches, on the slots that it is
inside of, on the levels that are left, and on the budget.  `Machine.Stands` says of a cell that
some slots, from a first one on, are all that it reaches, and that a conversion gives a certain
value whenever a machine has these slots and the conversion is inside of none of them.  Levels and
budget may still turn the value into a failure; but as many levels as the value is deep are enough,
and so are two units of the budget for each node, one for the reference to a slot and one for what is
in it.

There is one law for each kind of content: a slot with cells that stand for the parts of a value
stands for the value.  Sets and maps must be in order for that.
-/

namespace Pickle

/-! ## What a conversion comes to -/

namespace Unfolding

variable {α β : Type} {levels depth deeper limit cost more : ℕ} {action : Unfolding α} {value : α}

/-- Whether a conversion with some levels left gives a value at a certain cost, or less, except that
it may fail if the levels are fewer than `depth`, or the budget is less than the cost. -/
def Delivers (levels depth limit cost : ℕ) (action : Unfolding α) (value : α) : Prop :=
  ∀ budget,
    (∃ left, action budget = .ok (value, left) ∧ budget ≤ left + cost) ∨
    (levels < depth ∧ action budget = .error (.nestingTooDeep maxDepth)) ∨
    (budget < cost ∧ action budget = .error (.tooManyValues limit))

theorem bind_eq_of_error {next : α → Unfolding β} {budget : ℕ} {failure : Failure}
    (h : action budget = .error failure) : (action >>= next) budget = .error failure := by
  show (action budget >>= fun pair => next pair.1 pair.2) = .error failure
  rw [h]
  rfl

namespace Delivers

theorem pure (value : α) : Delivers levels depth limit 0 (Pure.pure value) value :=
  fun budget => .inl ⟨budget, rfl, le_rfl⟩

theorem charge : Delivers levels depth limit 1 (Unfolding.charge limit) () := by
  intro budget
  cases budget with
  | zero => exact .inr (.inr ⟨Nat.one_pos, rfl⟩)
  | succ left => exact .inl ⟨left, rfl, le_rfl⟩

theorem mono (h : Delivers levels depth limit cost action value) (hdepth : depth ≤ deeper)
    (hcost : cost ≤ more) : Delivers levels deeper limit more action value := by
  intro budget
  rcases h budget with ⟨left, hrun, hleft⟩ | ⟨hlevels, hrun⟩ | ⟨hbudget, hrun⟩
  · exact .inl ⟨left, hrun, by omega⟩
  · exact .inr (.inl ⟨by omega, hrun⟩)
  · exact .inr (.inr ⟨by omega, hrun⟩)

/-- The costs of two conversions add up. -/
theorem bind {next : α → Unfolding β} {result : β}
    (h : Delivers levels depth limit cost action value)
    (hnext : Delivers levels depth limit more (next value) result) :
    Delivers levels depth limit (cost + more) (action >>= next) result := by
  intro budget
  rcases h budget with ⟨left, hrun, hleft⟩ | ⟨hlevels, hrun⟩ | ⟨hbudget, hrun⟩
  · rw [bind_eq_of_ok hrun]
    rcases hnext left with ⟨rest, hrest, hle⟩ | ⟨hlevels, hrest⟩ | ⟨hbudget, hrest⟩
    · exact .inl ⟨rest, hrest, by omega⟩
    · exact .inr (.inl ⟨hlevels, hrest⟩)
    · exact .inr (.inr ⟨by omega, hrest⟩)
  · exact .inr (.inl ⟨hlevels, bind_eq_of_error hrun⟩)
  · exact .inr (.inr ⟨by omega, bind_eq_of_error hrun⟩)

/-- With enough of both, the value comes out. -/
theorem exists_eq_ok (h : Delivers levels depth limit cost action value) {budget : ℕ}
    (hlevels : depth ≤ levels) (hbudget : cost ≤ budget) :
    ∃ left, action budget = .ok (value, left) := by
  rcases h budget with ⟨left, hrun, -⟩ | ⟨hless, -⟩ | ⟨hless, -⟩
  · exact ⟨left, hrun⟩
  · exact absurd hlevels hless.not_ge
  · exact absurd hbudget hless.not_ge

end Delivers

end Unfolding

open Unfolding (Delivers)

namespace Machine

/-! ## Slots that are enough for a conversion -/

/-- Whether a machine has some slots, as far as those from `low` on are concerned. -/
def HasFrom (low : ℕ) (slots : Array Content) (machine : Machine) : Prop :=
  ∀ slot, low ≤ slot → slot < slots.size → machine.slots[slot]? = slots[slot]?

variable {α β : Type} {low depth cost more : ℕ} {slots : Array Content}

theorem HasFrom.refl (low : ℕ) (machine : Machine) : machine.HasFrom low machine.slots :=
  fun _ _ _ => rfl

theorem HasFrom.of_append {others : Array Content} {machine : Machine}
    (h : machine.HasFrom low (slots ++ others)) : machine.HasFrom low slots := by
  intro slot hlow hslot
  rw [h slot hlow (by rw [Array.size_append]; omega), Array.getElem?_append_left hslot]

/-- Whether the slots from `low` on are enough for what a conversion does by means of cells, in every
machine that has them, inside of anything else. -/
def Suffices (low : ℕ) (slots : Array Content) (depth cost : ℕ)
    (action : (limit : ℕ) → (Cell → Unfolding Value) → Unfolding α) (value : α) : Prop :=
  ∀ (machine : Machine) (limit levels : ℕ) (enclosing : List ℕ), machine.HasFrom low slots →
    (∀ slot ∈ enclosing, slot < low ∨ slots.size ≤ slot) →
      Delivers levels depth limit cost (action limit (machine.unfold limit levels enclosing)) value

namespace Suffices

variable {action : (limit : ℕ) → (Cell → Unfolding Value) → Unfolding α} {value : α}

theorem pure (value : α) : Suffices low slots depth 0 (fun _ _ => Pure.pure value) value :=
  fun _ _ _ _ _ _ => .pure value

theorem charge : Suffices low slots depth 1 (fun limit _ => Unfolding.charge limit) () :=
  fun _ _ _ _ _ _ => .charge

theorem mono (h : Suffices low slots depth cost action value) {deeper : ℕ} (hdepth : depth ≤ deeper)
    (hcost : cost ≤ more) : Suffices low slots deeper more action value :=
  fun machine limit levels enclosing hslots henclosing =>
    (h machine limit levels enclosing hslots henclosing).mono hdepth hcost

theorem bind {next : (limit : ℕ) → (Cell → Unfolding Value) → α → Unfolding β} {result : β}
    (h : Suffices low slots depth cost action value)
    (hnext : Suffices low slots depth more (fun limit convert => next limit convert value) result) :
    Suffices low slots depth (cost + more)
      (fun limit convert => action limit convert >>= next limit convert) result :=
  fun machine limit levels enclosing hslots henclosing =>
    (h machine limit levels enclosing hslots henclosing).bind
      (hnext machine limit levels enclosing hslots henclosing)

/-- What is done to a result at no cost. -/
theorem thenPure (h : Suffices low slots depth cost action value) (f : α → β) :
    Suffices low slots depth cost
      (fun limit convert => action limit convert >>= fun value => Pure.pure (f value))
      (f value) := by
  show Suffices low slots depth (cost + 0) _ _
  exact h.bind (.pure (f value))

/-- More slots do no harm. -/
theorem append (h : Suffices low slots depth cost action value) (others : Array Content) :
    Suffices low (slots ++ others) depth cost action value := by
  intro machine limit levels enclosing hslots henclosing
  refine h machine limit levels enclosing hslots.of_append fun slot hslot => ?_
  have := henclosing slot hslot
  rw [Array.size_append] at this
  omega

variable {γ : Type} {convertItem : (Cell → Unfolding Value) → γ → Unfolding α}

theorem mapM_nil : Suffices low slots depth 0 (fun _ convert => [].mapM (convertItem convert)) [] :=
  .pure []

theorem mapM_cons {item : γ} {rest : List γ} {values : List α}
    (h : Suffices low slots depth cost (fun _ convert => convertItem convert item) value)
    (hrest : Suffices low slots depth more (fun _ convert => rest.mapM (convertItem convert))
      values) :
    Suffices low slots depth (cost + more)
      (fun _ convert => (item :: rest).mapM (convertItem convert)) (value :: values) := by
  simp only [List.mapM_cons]
  exact h.bind (hrest.thenPure (value :: ·))

/-- A new slot is one level more, and a reference to it one unit of the budget. -/
theorem ref {content : Content} {value : Value}
    (h : Suffices low slots depth cost (fun limit convert => Unfolding.content convert limit content)
      value) (hlow : low ≤ slots.size) :
    Suffices low (slots.push content) (depth + 1) (1 + cost)
      (fun _ convert => convert (.ref slots.size)) value := by
  intro machine limit levels enclosing hslots henclosing
  rw [Array.size_push] at henclosing
  have hcontent : machine.slot slots.size = content := by
    rw [slot_eq, hslots slots.size hlow (by simp), Array.getElem?_push_size]
    rfl
  -- The slot is new, and the enclosing ones are below it or were there before the value.
  have hfree : ¬ enclosing.contains slots.size := by
    rw [List.contains_iff_mem]
    intro hmem
    have := henclosing _ hmem
    omega
  cases levels with
  | zero =>
    intro budget
    cases budget with
    | zero => exact .inr (.inr ⟨by omega, rfl⟩)
    | succ left => exact .inr (.inl ⟨Nat.succ_pos depth, rfl⟩)
  | succ levels =>
    have hinside : Delivers levels depth limit cost
        (Unfolding.content (machine.unfold limit levels (slots.size :: enclosing)) limit
          (machine.slot slots.size)) value := by
      rw [hcontent]
      refine h machine limit levels _ (Array.append_singleton ▸ hslots).of_append ?_
      refine List.forall_mem_cons.2 ⟨.inr le_rfl, fun slot hslot => ?_⟩
      have := henclosing slot hslot
      omega
    have hdeeper : Delivers (levels + 1) (depth + 1) limit cost
        (Unfolding.content (machine.unfold limit levels (slots.size :: enclosing)) limit
          (machine.slot slots.size)) value :=
      fun budget => (hinside budget).imp_right (.imp_left (.imp_left Nat.succ_lt_succ))
    show Delivers _ _ limit _ (machine.unfold limit (levels + 1) enclosing (.ref slots.size)) value
    rw [unfold]
    refine Delivers.charge.bind ?_
    rw [if_neg hfree]
    exact hdeeper

end Suffices

/-! ## What a cell reaches -/

/-- Whether all slots that a cell reaches are among some slots, from `low` on, in every machine that
has these. -/
def Stays (low : ℕ) (slots : Array Content) (cell : Cell) : Prop :=
  ∀ machine : Machine, machine.HasFrom low slots → ∀ slot, machine.Reaches cell slot →
    low ≤ slot ∧ slot < slots.size

namespace Stays

theorem atom (value : Atom) : Stays low slots (.atom value) := by
  rintro machine - slot ⟨⟩

theorem append {cell : Cell} (h : Stays low slots cell) (others : Array Content) :
    Stays low (slots ++ others) cell := by
  intro machine hslots slot hreach
  obtain ⟨hlow, hslot⟩ := h machine hslots.of_append slot hreach
  exact ⟨hlow, by rw [Array.size_append]; omega⟩

/-- A new slot and all that its cells reach. -/
theorem ref {content : Content} (h : ∀ cell ∈ content.cells, Stays low slots cell)
    (hlow : low ≤ slots.size) : Stays low (slots.push content) (.ref slots.size) := by
  intro machine hslots slot hreach
  rw [Array.size_push]
  cases hreach with
  | slot => exact ⟨hlow, Nat.lt_succ_self _⟩
  | inside held hinner =>
    rw [slot_eq, hslots slots.size hlow (by simp), Array.getElem?_push_size] at held
    rw [← Array.append_singleton] at hslots
    obtain ⟨hfrom, hto⟩ := h _ held machine hslots.of_append slot hinner
    exact ⟨hfrom, by omega⟩

end Stays

/-! ## Cells that stand for values -/

/-- Whether some slots, from `low` on, are all that a cell reaches and all that makes it stand for a
value. -/
structure Stands (low : ℕ) (slots : Array Content) (cell : Cell) (value : Value) : Prop where
  converts : Suffices low slots value.depth (2 * value.nodes) (fun _ convert => convert cell) value
  stays : Stays low slots cell

/-- Whether two cells stand for a key and its value. -/
structure PairStands (low : ℕ) (slots : Array Content) (cells : Cell × Cell) (pair : Key × Value) :
    Prop where
  key : Stands low slots cells.1 pair.1.toValue
  value : Stands low slots cells.2 pair.2

/-- Whether the cell of a keyword argument stands for its value. -/
structure KeywordStands (low : ℕ) (slots : Array Content) (kwarg : String × Cell)
    (pair : String × Value) : Prop where
  name : kwarg.1 = pair.1
  value : Stands low slots kwarg.2 pair.2

theorem Stands.append {cell : Cell} {value : Value} (h : Stands low slots cell value)
    (others : Array Content) : Stands low (slots ++ others) cell value :=
  ⟨h.converts.append others, h.stays.append others⟩

theorem Stands.push {cell : Cell} {value : Value} (h : Stands low slots cell value)
    (content : Content) : Stands low (slots.push content) cell value :=
  Array.append_singleton ▸ h.append #[content]

/-- A cell has its value for a tree, from as much height as there have to be levels. -/
theorem Suffices.tree?_eq {cell : Cell} {value : Value} {machine : Machine} {levels : ℕ}
    (h : Suffices low slots depth cost (fun _ convert => convert cell) value)
    (hslots : machine.HasFrom low slots) (hdepth : depth ≤ levels) :
    machine.tree? levels cell = some value := by
  obtain ⟨left, hrun⟩ : ∃ left, machine.unfold 0 levels [] cell cost = .ok (value, left) :=
    (h machine 0 levels [] hslots (by simp)).exists_eq_ok hdepth le_rfl
  exact gives_unfold _ _ _ _ _ _ _ hrun

/-- A cell is converted to its value, if both limits allow for it. -/
theorem Suffices.value_eq_ok {cell : Cell} {value : Value} {machine : Machine}
    (h : Suffices low slots depth cost (fun _ convert => convert cell) value)
    (hslots : machine.HasFrom low slots) (hdepth : depth ≤ maxDepth)
    (hcost : cost ≤ machine.nodeLimit) : machine.value cell = .ok value := by
  obtain ⟨left, hrun⟩ : ∃ left, machine.unfold machine.nodeLimit maxDepth [] cell
      machine.nodeLimit = .ok (value, left) :=
    (h machine machine.nodeLimit maxDepth [] hslots (by simp)).exists_eq_ok hdepth hcost
  rw [value_eq_map, hrun]
  rfl

/-- A cell that stands for a value is converted to it, if both limits allow for it. -/
theorem Stands.value_eq_ok {cell : Cell} {value : Value} {machine : Machine}
    (h : Stands low slots cell value) (hslots : machine.HasFrom low slots)
    (hdepth : value.depth ≤ maxDepth) (hnodes : 2 * value.nodes ≤ machine.nodeLimit) :
    machine.value cell = .ok value := h.converts.value_eq_ok hslots hdepth hnodes

theorem PairStands.append {cells : Cell × Cell} {pair : Key × Value}
    (h : PairStands low slots cells pair) (others : Array Content) :
    PairStands low (slots ++ others) cells pair :=
  ⟨h.key.append others, h.value.append others⟩

theorem KeywordStands.append {kwarg : String × Cell} {pair : String × Value}
    (h : KeywordStands low slots kwarg pair) (others : Array Content) :
    KeywordStands low (slots ++ others) kwarg pair :=
  ⟨h.name, h.value.append others⟩

theorem Stands.atom (value : Atom) : Stands low slots (.atom value) (.atom value) := by
  refine ⟨fun machine limit levels enclosing _ _ => ?_, .atom value⟩
  have hatom : machine.unfold limit levels enclosing (.atom value) =
      Unfolding.charge limit >>= fun _ => Pure.pure (Value.atom value) := by
    cases levels <;> rfl
  have hpos := Value.nodes_pos (.atom value)
  have hrun : Delivers levels (Value.atom value).depth limit (1 + 0)
      (machine.unfold limit levels enclosing (.atom value)) (.atom value) := by
    rw [hatom]
    exact Delivers.charge.bind (.pure _)
  exact hrun.mono le_rfl (by omega)

/-- Converting an atom takes next to nothing. -/
theorem value_atom (machine : Machine) (value : Atom) :
    machine.value (.atom value) = .ok (.atom value) := by
  have hstands : Stands 0 machine.slots (.atom value) (.atom value) := .atom value
  refine hstands.value_eq_ok (.refl 0 machine) (Nat.zero_le _) ?_
  rw [Value.nodes, nodeLimit]
  exact (by decide : 2 ≤ minNodes).trans (Nat.le_add_right _ _)

/-! ## Parts of a content -/

section Parts

variable {cells : List Cell} {values : List Value} {keys : List Key} {pairs : List (Cell × Cell)}
  {entries : List (Key × Value)} {kwargs : List (String × Cell)} {arguments : List (String × Value)}

open Value (nodesAll depthAll nodesPairs depthPairs nodesKeywords depthKeywords)

theorem suffices_items (h : List.Forall₂ (Stands low slots) cells values) :
    Suffices low slots (depthAll values) (2 * nodesAll values)
      (fun _ convert => cells.mapM convert) values := by
  induction h with
  | nil => exact .mapM_nil
  | @cons cell value cells values h _ ih =>
    rw [nodesAll, depthAll, Nat.mul_add]
    exact .mapM_cons (h.converts.mono (le_max_left ..) le_rfl)
      (ih.mono (le_max_right ..) le_rfl)

/-- A cell that stands for a key as a value can be converted to the key. -/
theorem Stands.keyOf {cell : Cell} {key : Key} (h : Stands low slots cell key.toValue) :
    Suffices low slots key.depth (2 * key.nodes) (fun _ convert => Unfolding.keyOf convert cell)
      key := by
  have hkey : Unfolding.key key.toValue = Pure.pure key := by
    rw [Unfolding.key, Value.toKey?_toValue]
  have hpure : Suffices low slots key.toValue.depth 0
      (fun _ _ => Unfolding.key key.toValue) key := by
    rw [hkey]
    exact .pure key
  rw [← Value.depth_toValue, ← Value.nodes_toValue]
  exact h.converts.bind hpure

theorem suffices_keys (h : List.Forall₂ (Stands low slots) cells (Key.toValues keys)) :
    Suffices low slots (Key.depthAll keys) (2 * Key.nodesAll keys)
      (fun _ convert => cells.mapM (Unfolding.keyOf convert)) keys := by
  induction keys generalizing cells with
  | nil =>
    cases h
    exact .mapM_nil
  | cons key keys ih =>
    cases h with
    | cons h hrest =>
      rw [Key.nodesAll, Key.depthAll, Nat.mul_add]
      exact .mapM_cons (h.keyOf.mono (le_max_left ..) le_rfl)
        ((ih hrest).mono (le_max_right ..) le_rfl)

theorem suffices_pairs (h : List.Forall₂ (PairStands low slots) pairs entries)
    (hsorted : Key.Ascend (entries.map Prod.fst)) :
    Suffices low slots (depthPairs entries) (2 * nodesPairs entries)
      (fun _ convert => Unfolding.pairs convert pairs) entries := by
  have hall : Suffices low slots (depthPairs entries) (2 * nodesPairs entries)
      (fun _ convert => pairs.mapM fun pair => do
        let key ← Unfolding.keyOf convert pair.1
        return (key, ← convert pair.2)) entries := by
    clear hsorted
    induction h with
    | nil => exact .mapM_nil
    | @cons pair entry pairs entries h _ ih =>
      rw [nodesPairs, depthPairs, Nat.mul_add, Nat.mul_add]
      have hkey := h.key.keyOf.mono (le_max_left entry.1.depth entry.2.depth) le_rfl
      have hvalue := h.value.converts.mono (le_max_right entry.1.depth entry.2.depth) le_rfl
      have hpair : Suffices low slots (max entry.1.depth entry.2.depth)
          (2 * entry.1.nodes + 2 * entry.2.nodes) (fun _ convert => do
            let key ← Unfolding.keyOf convert pair.1
            return (key, ← convert pair.2)) entry :=
        hkey.bind (hvalue.thenPure (Prod.mk entry.1))
      exact .mapM_cons (hpair.mono (le_max_left ..) le_rfl) (ih.mono (le_max_right ..) le_rfl)
  have hmap := hall.thenPure Key.mapOf
  rwa [Key.mapOf_eq_self hsorted] at hmap

theorem suffices_keywords (h : List.Forall₂ (KeywordStands low slots) kwargs arguments)
    (hsorted : (arguments.map Prod.fst).Pairwise (· < ·)) :
    Suffices low slots (depthKeywords arguments) (2 * nodesKeywords arguments)
      (fun _ convert => Unfolding.keywords convert kwargs) arguments := by
  have hall : Suffices low slots (depthKeywords arguments) (2 * nodesKeywords arguments)
      (fun _ convert => kwargs.mapM fun kwarg => do return (kwarg.1, ← convert kwarg.2))
      arguments := by
    clear hsorted
    induction h with
    | nil => exact .mapM_nil
    | @cons kwarg argument kwargs arguments h _ ih =>
      rw [nodesKeywords, depthKeywords, Nat.mul_add]
      have hargument : (kwarg.1, argument.2) = argument := Prod.ext h.name rfl
      have hvalue := h.value.converts.thenPure (Prod.mk kwarg.1)
      rw [hargument] at hvalue
      exact .mapM_cons (hvalue.mono (le_max_left ..) le_rfl) (ih.mono (le_max_right ..) le_rfl)
  have hmap := hall.thenPure keywordsOf
  rwa [keywordsOf_eq_self hsorted] at hmap

theorem suffices_state {cell : Option Cell} {state : Option Value}
    (h : Option.Rel (Stands low slots) cell state) :
    Suffices low slots (Value.depthState state) (2 * Value.nodesState state)
      (fun _ convert => cell.mapM convert) state := by
  cases h with
  | none => exact .pure none
  | some h => exact h.converts.thenPure some

theorem stays_items (h : List.Forall₂ (Stands low slots) cells values) :
    ∀ cell ∈ cells, Stays low slots cell := by
  induction h with
  | nil => simp
  | cons h _ ih => exact List.forall_mem_cons.2 ⟨h.stays, ih⟩

theorem stays_pairs (h : List.Forall₂ (PairStands low slots) pairs entries) :
    ∀ cell ∈ pairCells pairs, Stays low slots cell := by
  induction h with
  | nil => simp
  | cons h _ ih =>
    rw [pairCells_cons]
    exact List.forall_mem_cons.2 ⟨h.key.stays, List.forall_mem_cons.2 ⟨h.value.stays, ih⟩⟩

theorem stays_keywords (h : List.Forall₂ (KeywordStands low slots) kwargs arguments) :
    ∀ cell ∈ kwargs.map Prod.snd, Stays low slots cell := by
  induction h with
  | nil => simp
  | cons h _ ih =>
    rw [List.map_cons]
    exact List.forall_mem_cons.2 ⟨h.value.stays, ih⟩

theorem stays_state {cell : Option Cell} {state : Option Value}
    (h : Option.Rel (Stands low slots) cell state) :
    ∀ inner ∈ cell.toList, Stays low slots inner := by
  cases h with
  | none => simp
  | some h => simpa using h.stays

/-! ## One law for each kind of content -/

/-- A new slot stands for what its content is converted to, at no more than two units of the budget
for each node. -/
theorem Stands.ref {content : Content} {value : Value}
    (h : Suffices low slots depth cost (fun limit convert => Unfolding.content convert limit content)
      value) (hstays : ∀ cell ∈ content.cells, Stays low slots cell) (hlow : low ≤ slots.size)
    (hdepth : value.depth = depth + 1) (hcost : 1 + cost ≤ 2 * value.nodes) :
    Stands low (slots.push content) (.ref slots.size) value :=
  ⟨(h.ref hlow).mono hdepth.ge hcost, .ref hstays hlow⟩

theorem Stands.list {items : Array Cell} (h : List.Forall₂ (Stands low slots) items.toList values)
    (hlow : low ≤ slots.size) :
    Stands low (slots.push (.list items)) (.ref slots.size) (.list values) :=
  .ref (Suffices.charge.bind ((suffices_items h).thenPure Value.list)) (stays_items h) hlow rfl
    (by rw [Value.nodes]; omega)

theorem Stands.tuple (h : List.Forall₂ (Stands low slots) cells values) (hlow : low ≤ slots.size) :
    Stands low (slots.push (.tuple cells)) (.ref slots.size) (.tuple values) :=
  .ref (Suffices.charge.bind ((suffices_items h).thenPure Value.tuple)) (stays_items h) hlow rfl
    (by rw [Value.nodes]; omega)

theorem Stands.set {items : Array Cell}
    (h : List.Forall₂ (Stands low slots) items.toList (Key.toValues keys))
    (hsorted : Key.Ascend keys) (hlow : low ≤ slots.size) :
    Stands low (slots.push (.set items)) (.ref slots.size) (.set keys) := by
  have hset := (suffices_keys h).thenPure fun keys => Value.set (Key.setOf keys)
  rw [Key.setOf_eq_self hsorted] at hset
  exact .ref (Suffices.charge.bind hset) (stays_items h) hlow rfl (by rw [Value.nodes]; omega)

theorem Stands.frozenSet (h : List.Forall₂ (Stands low slots) cells (Key.toValues keys))
    (hsorted : Key.Ascend keys) (hlow : low ≤ slots.size) :
    Stands low (slots.push (.frozenSet cells)) (.ref slots.size) (.frozenSet keys) := by
  have hset := (suffices_keys h).thenPure fun keys => Value.frozenSet (Key.setOf keys)
  rw [Key.setOf_eq_self hsorted] at hset
  exact .ref (Suffices.charge.bind hset) (stays_items h) hlow rfl (by rw [Value.nodes]; omega)

theorem Stands.dict {items : Array (Cell × Cell)}
    (h : List.Forall₂ (PairStands low slots) items.toList entries)
    (hsorted : Key.Ascend (entries.map Prod.fst)) (hlow : low ≤ slots.size) :
    Stands low (slots.push (.dict items)) (.ref slots.size) (.dict entries) :=
  .ref (Suffices.charge.bind ((suffices_pairs h hsorted).thenPure Value.dict)) (stays_pairs h) hlow
    rfl (by rw [Value.nodes]; omega)

theorem Stands.object (name : ClassName) {cell : Option Cell} {state : Option Value}
    (hargs : List.Forall₂ (Stands low slots) cells values)
    (hkwargs : List.Forall₂ (KeywordStands low slots) kwargs arguments)
    (hnames : (arguments.map Prod.fst).Pairwise (· < ·))
    (hattributes : List.Forall₂ (PairStands low slots) pairs entries)
    (hsorted : Key.Ascend (entries.map Prod.fst)) (hstate : Option.Rel (Stands low slots) cell state)
    (hlow : low ≤ slots.size) :
    Stands low (slots.push (.object ⟨name, cells, kwargs, pairs, cell⟩)) (.ref slots.size)
      (.object ⟨name, values, arguments, entries, state⟩) := by
  -- Each part may be as deep as the deepest one.
  let depth := max (max (depthAll values) (depthKeywords arguments))
    (max (depthPairs entries) (Value.depthState state))
  have hargs' := (suffices_items hargs).mono (show _ ≤ depth by omega) le_rfl
  have hkwargs' := (suffices_keywords hkwargs hnames).mono (show _ ≤ depth by omega) le_rfl
  have hattributes' := (suffices_pairs hattributes hsorted).mono (show _ ≤ depth by omega) le_rfl
  have hstate' := (suffices_state hstate).mono (show _ ≤ depth by omega) le_rfl
  refine .ref (Suffices.charge.bind (hkwargs'.bind (hargs'.bind (hattributes'.bind
    (hstate'.thenPure fun state => Value.object ⟨name, values, arguments, entries, state⟩)))))
    ?_ hlow rfl (by rw [Value.nodes]; omega)
  simp only [Content.cells, List.forall_mem_append]
  exact ⟨⟨⟨stays_items hargs, stays_keywords hkwargs⟩, stays_pairs hattributes⟩, stays_state hstate⟩

/-- A new instance has arguments only. -/
theorem Stands.fresh (name : ClassName) (h : List.Forall₂ (Stands low slots) cells values)
    (hlow : low ≤ slots.size) :
    Stands low (slots.push (.object (.fresh name cells []))) (.ref slots.size)
      (.object (.fresh name values [])) :=
  .object name h .nil .nil .nil ⟨by simp, .nil⟩ .none hlow

end Parts

end Machine

end Pickle
