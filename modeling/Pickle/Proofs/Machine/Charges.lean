import Mathlib.Data.Option.Basic
import Pickle.Proofs.Machine.Nesting

/-!
# What a conversion costs

The budget of a conversion is spent on visits, and these are not the nodes of the result.  A
reference is a visit of its own beside the one to what it leads to, so every container costs two, and
so does an atom that was shared; what is set under a key that is set again is visited too.

`Machine.cost` counts the visits from a cell, and `Machine.charges_unfold` shows that it is exactly
what a conversion takes: it never runs out of a budget that large, and never succeeds with less.
So the limit is one of visits (`Machine.cost_spec`).  As long as nothing gets lost these are at most
twice the nodes, but with containers all over they are twice the nodes indeed
(`Machine.exists_few_nodes_tooManyValues`).
-/

namespace Pickle

namespace Unfolding

variable {α β γ : Type} {limit cost more : ℕ}

/-- Whether a conversion gives nothing but a certain result, at exactly a certain cost, and runs out
of the budget only if that is less than the cost.  If there is no such result it may fail otherwise,
and it may meet a slot inside of itself in any case. -/
def Charges (limit cost : ℕ) (result : Option α) (action : Unfolding α) : Prop :=
  ∀ budget, match action budget with
    | .ok (value, left) => result = some value ∧ budget = left + cost
    | .error (.tooManyValues most) => most = limit ∧ budget < cost
    | .error failure => failure = .recursive ∨ result = none

namespace Charges

theorem pure (value : α) : Charges limit 0 (some value) (Pure.pure value) := fun _ => ⟨rfl, rfl⟩

theorem charge : Charges limit 1 (some ()) (Unfolding.charge limit) := by
  intro budget
  cases budget with
  | zero => exact ⟨rfl, Nat.one_pos⟩
  | succ left => exact ⟨rfl, rfl⟩

theorem fail_recursive (result : Option α) :
    Charges limit cost result (Unfolding.fail .recursive) := fun _ => .inl rfl

theorem fail_nestingTooDeep (depth : ℕ) :
    Charges limit cost (none : Option α) (Unfolding.fail (.nestingTooDeep depth)) :=
  fun _ => .inr rfl

theorem key (value : Value) : Charges limit 0 value.toKey? (Unfolding.key value) := by
  unfold Unfolding.key
  split
  · next key hkey => rw [hkey]; exact pure key
  · next hkey => rw [hkey]; exact fun _ => .inr rfl

/-- The costs of two conversions add up. -/
theorem bind {action : Unfolding α} {next : α → Unfolding β} {first : Option α}
    {second : α → Option β} (hfirst : Charges limit cost first action)
    (hsecond : ∀ value, Charges limit more (second value) (next value)) :
    Charges limit (cost + more) (first >>= second) (action >>= next) := by
  intro budget
  have hthis := hfirst budget
  cases hrun : action budget with
  | error failure =>
    rw [bind_eq_of_error hrun]
    rw [hrun] at hthis
    cases failure with
    | tooManyValues most => exact ⟨hthis.1, by omega⟩
    | _ => exact hthis.imp_right fun hnone => by rw [hnone]; rfl
  | ok pair =>
    obtain ⟨value, left⟩ := pair
    rw [hrun] at hthis
    obtain ⟨rfl, rfl⟩ := hthis
    rw [bind_eq_of_ok hrun]
    have hthen := hsecond value left
    show match next value left with
      | .ok (result, rest) => second value = some result ∧ left + cost = rest + (cost + more)
      | .error (.tooManyValues most) => most = limit ∧ left + cost < cost + more
      | .error failure => failure = .recursive ∨ second value = none
    revert hthen
    cases next value left with
    | ok pair => exact fun hthen => ⟨hthen.1, by omega⟩
    | error failure =>
      cases failure with
      | tooManyValues most => exact fun hthen => ⟨hthen.1, by omega⟩
      | _ => exact id

theorem charged {action : Unfolding α} {result : Option α} (h : Charges limit cost result action) :
    Charges limit (1 + cost) result (Unfolding.charge limit >>= fun _ => action) :=
  have hboth := charge.bind fun _ => h
  hboth

/-- What is done to a result costs nothing. -/
theorem thenPure {action : Unfolding α} {result : Option α} (h : Charges limit cost result action)
    (f : α → β) : Charges limit cost (result >>= fun value => Pure.pure (f value))
      (action >>= fun value => Pure.pure (f value)) :=
  h.bind fun value => pure (f value)

theorem mapM {action : γ → Unfolding α} {result : γ → Option α} {price : γ → ℕ} {items : List γ}
    (h : ∀ item ∈ items, Charges limit (price item) (result item) (action item)) :
    Charges limit (items.map price).sum (items.mapM result) (items.mapM action) := by
  induction items with
  | nil => exact pure []
  | cons item rest ih =>
    obtain ⟨hitem, hrest⟩ := List.forall_mem_cons.1 h
    rw [List.mapM_cons, List.mapM_cons, List.map_cons, List.sum_cons]
    exact hitem.bind fun value => (ih hrest).thenPure (value :: ·)

end Charges

/-! ## The parts of contents -/

variable {convert : Cell → Unfolding Value} {tree? : Cell → Option Value} {price : Cell → ℕ}

theorem charges_keyOf {cell : Cell} (h : Charges limit (price cell) (tree? cell) (convert cell)) :
    Charges limit (price cell) (tree? cell >>= Value.toKey?) (keyOf convert cell) :=
  h.bind Charges.key

theorem charges_keys {cells : List Cell}
    (h : ∀ cell ∈ cells, Charges limit (price cell) (tree? cell) (convert cell)) :
    Charges limit (cells.map price).sum (Machine.keyTrees? tree? cells)
      (do return Key.setOf (← cells.mapM (keyOf convert))) :=
  (Charges.mapM fun cell hcell => charges_keyOf (h cell hcell)).thenPure Key.setOf

theorem sum_pairCells (pairs : List (Cell × Cell)) : ((pairCells pairs).map price).sum =
    (pairs.map fun pair => price pair.1 + price pair.2).sum := by
  induction pairs with
  | nil => rfl
  | cons pair rest ih =>
    rw [pairCells_cons]
    simp only [List.map_cons, List.sum_cons, ih]
    omega

theorem charges_pairs {cells : List (Cell × Cell)}
    (h : ∀ cell ∈ pairCells cells, Charges limit (price cell) (tree? cell) (convert cell)) :
    Charges limit ((pairCells cells).map price).sum (Machine.pairTrees? tree? cells)
      (pairs convert cells) := by
  rw [sum_pairCells]
  refine (Charges.mapM fun pair hpair => ?_).thenPure Key.mapOf
  obtain ⟨hfirst, hsecond⟩ := mem_pairCells hpair
  have hpair := (charges_keyOf (h _ hfirst)).bind fun key => (h _ hsecond).thenPure (Prod.mk key)
  simpa only [bind_assoc] using hpair

theorem charges_keywords {cells : List (String × Cell)}
    (h : ∀ cell ∈ cells.map Prod.snd, Charges limit (price cell) (tree? cell) (convert cell)) :
    Charges limit ((cells.map Prod.snd).map price).sum
      (do return keywordsOf (← cells.mapM fun (name, cell) => return (name, ← tree? cell)))
      (keywords convert cells) := by
  rw [List.map_map]
  refine (Charges.mapM fun pair hpair => ?_).thenPure keywordsOf
  exact (h _ (List.mem_map_of_mem hpair)).thenPure (Prod.mk pair.1)

theorem charges_state {cell : Option Cell}
    (h : ∀ inner ∈ cell.toList, Charges limit (price inner) (tree? inner) (convert inner)) :
    Charges limit (cell.toList.map price).sum (cell.mapM tree?) (cell.mapM convert) := by
  cases cell with
  | none => exact .pure none
  | some cell =>
    show Charges limit (([cell] : List Cell).map price).sum (some <$> tree? cell)
      (some <$> convert cell)
    rw [List.map_singleton, List.sum_singleton, map_eq_pure_bind, map_eq_pure_bind]
    exact (h cell (by simp)).thenPure some

/-- A content costs one visit to it and those to its cells. -/
theorem charges_content {content : Content}
    (h : ∀ cell ∈ content.cells, Charges limit (price cell) (tree? cell) (convert cell)) :
    Charges limit (1 + (content.cells.map price).sum) (Machine.contentTree? tree? content)
      (Unfolding.content convert limit content) := by
  refine Charges.charged ?_
  cases content with
  | atom value => exact .pure _
  | list items => exact (Charges.mapM h).thenPure Value.list
  | tuple items => exact (Charges.mapM h).thenPure Value.tuple
  | set items =>
    have hkeys := (charges_keys h).thenPure Value.set
    simp only [bind_assoc, pure_bind] at hkeys
    exact hkeys
  | frozenSet items =>
    have hkeys := (charges_keys h).thenPure Value.frozenSet
    simp only [bind_assoc, pure_bind] at hkeys
    exact hkeys
  | dict cells => exact (charges_pairs h).thenPure Value.dict
  | object value =>
    simp only [Content.cells, List.forall_mem_append] at h
    obtain ⟨⟨⟨hargs, hkwargs⟩, hattributes⟩, hstate⟩ := h
    have hall := (charges_keywords hkwargs).bind fun kwargs => (Charges.mapM hargs).bind fun args =>
      (charges_pairs hattributes).bind fun attributes => (charges_state hstate).thenPure fun state =>
        Value.object ⟨value.className, args, kwargs, attributes, state⟩
    -- The keyword arguments are converted before the arguments, and come after them in the tree.
    have horder : ∀ {α β : Type} (first : Option α) (second : Option β)
        (next : β → α → Option Value), (second >>= fun value => first >>= next value) =
          first >>= fun other => second >>= fun value => next value other := by
      intro α β first second next
      cases first <;> cases second <;> rfl
    have hcost : ((Content.object value).cells.map price).sum =
        ((value.kwargs.map Prod.snd).map price).sum + ((value.args.map price).sum +
          (((pairCells value.attributes).map price).sum + (value.state.toList.map price).sum)) := by
      simp only [Content.cells, List.map_append, List.sum_append]
      omega
    rw [hcost]
    rw [horder] at hall
    simp only [bind_assoc, pure_bind] at hall
    exact hall

end Unfolding

theorem Value.ofSequences_doubled {value : Value} (h : value.OfSequences) (number : ℕ) :
    (value.doubled number).OfSequences := by
  induction number with
  | zero => exact h
  | succ number ih => exact .of_parts (by simpa [doubled, parts] using ih) trivial

open Unfolding (Charges charges_content)

namespace Machine

/-- The visits of a conversion from a cell, references being followed `levels` deep: one for each
reference, and one for each atom, container or instance. -/
def cost (machine : Machine) : (levels : ℕ) → Cell → ℕ
  | _, .atom _ => 1
  | 0, .ref _ => 1
  | levels + 1, .ref slot => 1 + (1 + ((machine.slot slot).cells.map (machine.cost levels)).sum)

variable {machine : Machine} {cell : Cell} {levels limit : ℕ} {tree : Value}

/-- A conversion gives the tree of the cell at the cost of its visits, and runs out of no budget that
is enough for these. -/
theorem charges_unfold (machine : Machine) (limit levels : ℕ) (enclosing : List ℕ) (cell : Cell) :
    Charges limit (machine.cost levels cell) (machine.tree? levels cell)
      (machine.unfold limit levels enclosing cell) := by
  induction levels generalizing enclosing cell with
  | zero =>
    cases cell with
    | atom value => exact (Charges.pure (Value.atom value)).charged
    | ref slot =>
      have hfail : Charges limit 0 (none : Option Value)
          (Unfolding.fail (.nestingTooDeep maxDepth)) := .fail_nestingTooDeep maxDepth
      exact hfail.charged
  | succ levels ih =>
    cases cell with
    | atom value => exact (Charges.pure (Value.atom value)).charged
    | ref slot =>
      refine Charges.charged ?_
      split
      · exact .fail_recursive _
      · exact charges_content fun inner _ => ih (slot :: enclosing) inner

theorem lt_cost_of_value (h : machine.value cell = .error (.tooManyValues limit)) :
    limit = machine.nodeLimit ∧ limit < machine.cost maxDepth cell := by
  have hcharges := charges_unfold machine machine.nodeLimit maxDepth [] cell machine.nodeLimit
  rw [unfold_of_value_error h] at hcharges
  obtain ⟨rfl, hless⟩ := hcharges
  exact ⟨rfl, hless⟩

theorem cost_le_of_value {value : Value} (h : machine.value cell = .ok value) :
    machine.cost maxDepth cell ≤ machine.nodeLimit := by
  have hcharges := charges_unfold machine machine.nodeLimit maxDepth [] cell machine.nodeLimit
  obtain ⟨left, hrun⟩ := unfold_of_value h
  rw [hrun] at hcharges
  exact (Nat.le_add_left _ left).trans hcharges.2.ge

/-- A cell that is not too deep is converted if and only if the budget allows for the visits, and
else this is what it fails on. -/
theorem value_eq_of_tree (h : machine.tree? maxDepth cell = some tree) :
    machine.value cell = if machine.cost maxDepth cell ≤ machine.nodeLimit then .ok tree
      else .error (.tooManyValues machine.nodeLimit) := by
  have htree : machine.Unfolds cell tree := ⟨maxDepth, h⟩
  cases hvalue : machine.value cell with
  | ok value =>
    rw [if_pos (cost_le_of_value hvalue), htree.unique (unfolds_of_value hvalue)]
  | error failure =>
    have hcharges := charges_unfold machine machine.nodeLimit maxDepth [] cell machine.nodeLimit
    rw [unfold_of_value_error hvalue, h] at hcharges
    cases failure with
    | tooManyValues limit =>
      obtain ⟨rfl, hless⟩ := lt_cost_of_value hvalue
      rw [if_neg hless.not_ge]
    | recursive =>
      exact absurd ((value_spec machine cell).2.2.2 hvalue) htree.not_isCyclic
    | _ => simp at hcharges

theorem sum_cost_le {cells : List Cell} {trees : List Value} {tree? : Cell → Option Value}
    {price : Cell → ℕ} (h : AreTrees tree? cells trees)
    (hprice : ∀ cell ∈ cells, ∀ tree, tree? cell = some tree → price cell ≤ 2 * tree.nodes) :
    (cells.map price).sum ≤ 2 * (trees.map Value.nodes).sum := by
  induction h with
  | nil => exact le_rfl
  | @cons cell tree cells trees htree _ ih =>
    obtain ⟨hcell, hcells⟩ := List.forall_mem_cons.1 hprice
    have hfirst := hcell tree htree
    have hrest := ih hcells
    simp only [List.map_cons, List.sum_cons]
    omega

/-- Where nothing gets lost, a node costs two visits at most. -/
theorem cost_le_of_unfolds (h : machine.LosesNothing cell) (htree : machine.Unfolds cell tree) :
    machine.cost levels cell ≤ 2 * tree.nodes := by
  induction levels generalizing cell tree with
  | zero =>
    have hpos := tree.nodes_pos
    cases cell <;> simp only [cost] <;> omega
  | succ levels ih =>
    have hpos := tree.nodes_pos
    cases cell with
    | atom value =>
      simp only [cost]
      omega
    | ref slot =>
      obtain ⟨height, htree⟩ := htree
      cases height with
      | zero => cases htree
      | succ height =>
        obtain ⟨trees, htrees, hperm⟩ := h.exists_perm htree
        have hcells : ((machine.slot slot).cells.map (machine.cost levels)).sum ≤
            2 * (trees.map Value.nodes).sum :=
          sum_cost_le htrees fun inner hinner part hpart => ih (h.of_mem hinner) ⟨height, hpart⟩
        have hnodes := tree.nodes_eq
        rw [(hperm.map Value.nodes).sum_eq] at hnodes
        rw [cost]
        omega

/-- What the limit of nodes has to do with nodes, in any machine.  It is a limit of visits: the
failure comes up, and names the limit, only if there are more visits than allowed, and no cell with
so many is converted; a cell that is not too deep is converted unless that is so.  If nothing gets
lost, then there are no more visits than two for each node, so that a value with at most half of the
nodes that are allowed is never too large. -/
theorem cost_spec (machine : Machine) (cell : Cell) :
    (∀ limit, machine.value cell = .error (.tooManyValues limit) →
      limit = machine.nodeLimit ∧ limit < machine.cost maxDepth cell) ∧
    (∀ value, machine.value cell = .ok value → machine.cost maxDepth cell ≤ machine.nodeLimit) ∧
    (∀ tree, machine.tree? maxDepth cell = some tree →
      machine.value cell = if machine.cost maxDepth cell ≤ machine.nodeLimit then .ok tree
        else .error (.tooManyValues machine.nodeLimit)) ∧
    ∀ limit tree, machine.value cell = .error (.tooManyValues limit) →
      machine.Unfolds cell tree → machine.LosesNothing cell → limit < 2 * tree.nodes := by
  refine ⟨fun limit => lt_cost_of_value, fun value => cost_le_of_value, fun tree => value_eq_of_tree,
    fun limit tree h htree hkeeps => ?_⟩
  exact (lt_cost_of_value h).2.trans_le (cost_le_of_unfolds hkeeps htree)

/-! ## Containers all over -/

/-- A tuple costs two visits and those to its cells, which have the items as trees. -/
theorem exists_cost_of_tuple {values : List Value}
    (h : machine.tree? levels cell = some (.tuple values)) : ∃ lower cells,
      AreTrees (machine.tree? lower) cells values ∧
        machine.cost levels cell = 2 + (cells.map (machine.cost lower)).sum := by
  cases cell with
  | atom value => cases levels <;> cases h
  | ref slot =>
    cases levels with
    | zero => cases h
    | succ levels =>
      refine ⟨levels, (machine.slot slot).cells, areTrees_of_isSequence h trivial, ?_⟩
      rw [cost, ← Nat.add_assoc]

/-- Pairs of pairs that end in empty tuples cost two visits for each node. -/
theorem cost_doubled {number : ℕ}
    (h : machine.tree? levels cell = some ((Value.tuple []).doubled number)) :
    machine.cost levels cell = 2 * ((Value.tuple []).doubled number).nodes := by
  induction number generalizing levels cell with
  | zero =>
    obtain ⟨lower, cells, hcells, hcost⟩ := exists_cost_of_tuple h
    cases hcells
    exact hcost
  | succ number ih =>
    obtain ⟨lower, cells, hcells, hcost⟩ := exists_cost_of_tuple h
    rcases hcells with _ | ⟨hleft, _ | ⟨hright, ⟨⟩⟩⟩
    simp only [List.map_cons, List.map_nil, List.sum_cons, List.sum_nil, ih hleft, ih hright]
      at hcost
    rw [hcost]
    simp only [Value.doubled, Value.nodes, Value.nodesAll]
    omega

theorem execute_binPersId_error {env : Environment} {rest : List Cell} {failure : Failure}
    (hstack : machine.stack = cell :: rest)
    (hvalue : ({ machine with
        stack := rest
        created := machine.created + 1 } : Machine).value cell = .error failure) :
    ∃ after, Exec.execute env ⟨.binPersId, ()⟩ machine =
      .error (.execution failure (some "BINPERSID")) after := by
  let counted : Machine := { machine with created := machine.created + 1 }
  have hstep : Exec.step env .binPersId .stackPersistent counted =
      .error (.ofFailure failure) { counted with stack := rest } := popValue_error hstack hvalue
  exact ⟨_, Exec.execute_of_step_error env ⟨.binPersId, ()⟩ hstep⟩

/-- A value of fewer nodes than are allowed is refused as too large, and it is no use to the loader of
persistent objects either. -/
theorem exists_few_nodes_tooManyValues :
    let program : List Instruction := [⟨.emptyTuple, ()⟩] ++ doubling 19
    let options : Options := { loader := some fun _ => .ok (.atom (.scalar .none)) }
    let machine := options.machine.after options.environment program
    let tree := (Value.tuple []).doubled 19
    (∃ cell, machine.stack = [cell] ∧ machine.Unfolds cell tree ∧ machine.LosesNothing cell ∧
      machine.value cell = .error (.tooManyValues machine.nodeLimit)) ∧
    tree.nodes < machine.nodeLimit ∧
    Pickle.run (program ++ [⟨.binPersId, ()⟩, ⟨.stop, ()⟩]) options =
      .error (.execution (.tooManyValues 1049216) (some "BINPERSID")) := by
  intro program options machine tree
  let start : Machine := ⟨[.ref 0], [], ∅, #[.tuple []], 1, none⟩
  have hstart : RunsAbove options.environment 0 options.machine [⟨.emptyTuple, ()⟩] start :=
    .cons rfl le_rfl (.nil _)
  have hempty : Stands 0 ((#[] : Array Content).push (.tuple [])) (.ref 0) (.tuple []) :=
    .tuple .nil le_rfl
  obtain ⟨top, slots, hruns, hstands⟩ :=
    exists_runs_doubling options.environment start rfl hempty 19
  have hnodes : tree.nodes = 2 ^ 20 - 1 := by
    have hdoubled : tree.nodes + 1 = 2 ^ 19 * 2 := Value.nodes_doubled (.tuple []) 19
    omega
  -- Each of the nodes is charged twice, for the reference to it and for what the slot holds.
  have hrefused : ∀ machine : Machine, machine.slots = slots → machine.created ≤ 40 →
      machine.value (.ref top) = .error (.tooManyValues machine.nodeLimit) := by
    rintro machine rfl hcreated
    have htree : machine.tree? maxDepth (.ref top) = some tree :=
      hstands.converts.tree?_eq (.refl 0 machine) (by rw [Value.depth_doubled]; decide)
    have hcost : machine.cost maxDepth (.ref top) = 2 * tree.nodes := cost_doubled htree
    rw [value_eq_of_tree htree, if_neg]
    rw [hcost, hnodes, nodeLimit, minNodes, nodeFactor]
    omega
  let last : Machine := { start with stack := [.ref top], slots, created := 39 }
  have hmachine : machine = last := (hstart.append hruns).after_eq
  have htree : last.Unfolds (.ref top) tree :=
    ⟨_, hstands.converts.tree?_eq (fun _ _ _ => rfl) le_rfl⟩
  have hnil : (Value.tuple []).OfSequences := .of_parts (by simp [Value.parts]) trivial
  have hkeeps : last.LosesNothing (.ref top) :=
    losesNothing_of_ofSequences htree (Value.ofSequences_doubled hnil 19)
  refine ⟨⟨.ref top, ?_⟩, ?_, ?_⟩
  · rw [hmachine]
    exact ⟨rfl, htree, hkeeps, hrefused _ rfl (Nat.le_succ 39)⟩
  · rw [hmachine, hnodes, nodeLimit, minNodes]
    omega
  · -- The id of the persistent load is the first thing in the program that is converted.
    obtain ⟨after, hafter⟩ : ∃ after, Exec.execute options.environment ⟨.binPersId, ()⟩ last =
        .error (.execution (.tooManyValues 1049216) (some "BINPERSID")) after :=
      execute_binPersId_error rfl (hrefused _ rfl le_rfl)
    rw [Pickle.run, (hstart.append hruns).run_append, run, hafter]

end Machine

end Pickle
