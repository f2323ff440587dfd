import Pickle.Proofs.Machine.Doubling
import Pickle.Proofs.Machine.Embedding
import Pickle.Proofs.Machine.Expansion

/-!
# What counts as nested too deeply

Values are refused at a depth of `maxDepth` both on their way out of the machine and on their way
into it, and neither limit is one of containers alone.

On the way out references are counted.  Each container stands behind one, but so does an atom that
was shared, be it by an entry of the memo or a copy on the stack; inside of `maxDepth` containers such
an atom is one reference too many, whereas one that was not shared may be there
(`Machine.nesting_spec`, `Machine.exists_shared_nestingTooDeep`).

On the way in a node inside of `maxDepth` containers is refused before it is known what it is, so an
atom is as bad there as a container (`Exec.embed_spec`, `Exec.embed_wrapped_none`).  What is accepted
is thus one container less deep, unless the innermost ones are empty.
-/

namespace Pickle

/-! ## Out of the machine -/

namespace Machine

variable {machine : Machine} {cell : Cell}

/-- The failure for want of levels has a reference behind it that is inside of as many slots. -/
theorem failsOnly_nesting (limit levels : ℕ) (enclosing : List ℕ) (cell : Cell) :
    Unfolding.FailsOnly (machine.unfold limit levels enclosing cell) fun failure =>
      ∀ depth, failure = .nestingTooDeep depth →
        depth = maxDepth ∧ ∃ slot, machine.Encloses cell levels (.ref slot) := by
  induction levels generalizing enclosing cell with
  | zero =>
    cases cell with
    | atom value => exact (Unfolding.FailsOnly.charge (by simp)).bind fun _ => .pure _
    | ref slot =>
      refine (Unfolding.FailsOnly.charge (by simp)).bind fun _ => ?_
      rintro budget failure ⟨⟩ depth ⟨⟩
      exact ⟨rfl, slot, .here _⟩
  | succ levels ih =>
    cases cell with
    | atom value => exact (Unfolding.FailsOnly.charge (by simp)).bind fun _ => .pure _
    | ref slot =>
      refine (Unfolding.FailsOnly.charge (by simp)).bind fun _ => ?_
      split
      · rintro budget failure ⟨⟩ depth ⟨⟩
      · refine failsOnly_content (fun inner hinner => ?_) (by simp) (by simp)
        intro budget failure hrun depth hfailure
        obtain ⟨hdepth, target, hfound⟩ := ih (slot :: enclosing) inner budget failure hrun depth
          hfailure
        exact ⟨hdepth, target, .inside hinner hfound⟩

theorem encloses_of_value_error {depth : ℕ} (h : machine.value cell = .error (.nestingTooDeep depth)) :
    depth = maxDepth ∧ ∃ slot, machine.Encloses cell maxDepth (.ref slot) :=
  failsOnly_nesting _ _ _ _ _ _ (unfold_of_value_error h) depth rfl

theorem not_encloses_of_value {value : Value} {slot : ℕ} (h : machine.value cell = .ok value) :
    ¬ machine.Encloses cell maxDepth (.ref slot) := by
  obtain ⟨left, hrun⟩ := unfold_of_value h
  exact not_encloses_of_tree (gives_unfold _ _ _ _ _ _ _ hrun)

/-- What the limit of nesting has to do with containers, in any machine.  The failure comes up only if
`maxDepth` slots enclose a reference, and a cell for which that is so is never converted; nor is one
whose tree is too deep.  If nothing gets lost, then the tree of a cell that fails is too deep indeed,
or it is just as deep as allowed and an atom that has a slot of its own, since it was shared, is among
the innermost nodes. -/
theorem nesting_spec (machine : Machine) (cell : Cell) :
    (∀ depth, machine.value cell = .error (.nestingTooDeep depth) →
      depth = maxDepth ∧ ∃ slot, machine.Encloses cell maxDepth (.ref slot)) ∧
    (∀ slot, machine.Encloses cell maxDepth (.ref slot) → ∀ value, machine.value cell ≠ .ok value) ∧
    (∀ tree, machine.Unfolds cell tree → maxDepth < tree.depth →
      ∀ value, machine.value cell ≠ .ok value) ∧
    ∀ depth tree, machine.value cell = .error (.nestingTooDeep depth) →
      machine.Unfolds cell tree → machine.LosesNothing cell →
        maxDepth < tree.depth ∨ tree.depth = maxDepth ∧ ∃ slot value,
          machine.Encloses cell maxDepth (.ref slot) ∧ machine.slot slot = .atom value := by
  refine ⟨fun depth h => encloses_of_value_error h, ?_, ?_, ?_⟩
  · intro slot hfound value hvalue
    exact not_encloses_of_value hvalue hfound
  · intro tree htree hdepth value hvalue
    obtain rfl : tree = value := htree.unique (unfolds_of_value hvalue)
    exact (isWithin_of_value hvalue).1.not_gt hdepth
  · intro depth tree h htree hkeeps
    obtain ⟨-, slot, hfound⟩ := encloses_of_value_error h
    rcases Nat.lt_or_ge maxDepth tree.depth with hdepth | hdepth
    · exact .inl hdepth
    refine .inr ⟨hdepth.antisymm (le_depth_of_encloses hfound hkeeps htree), slot, ?_⟩
    cases hslot : machine.slot slot with
    | atom value => exact ⟨value, hfound, rfl⟩
    | _ =>
      have hcontainer : (machine.slot slot).IsContainer := by
        rw [hslot]
        trivial
      exact absurd (lt_depth_of_encloses hfound hcontainer hkeeps htree) hdepth.not_gt

/-! ## Tuples inside of one another -/

/-- What is inside of slots stays there for any machine that has these. -/
theorem Encloses.of_hasFrom {inner : Cell} {levels : ℕ} {other : Machine}
    (h : machine.Encloses cell levels inner) (hslots : other.HasFrom 0 machine.slots) :
    other.Encloses cell levels inner := by
  induction h with
  | here cell => exact .here cell
  | @inside slot levels cell inner held _ ih =>
    have hslot : slot < machine.slots.size := by
      by_contra hge
      rw [slot_eq, Array.getElem?_eq_none (by omega)] at held
      cases held
    have hcontent : other.slot slot = machine.slot slot := by
      rw [slot_eq, slot_eq, hslots slot (Nat.zero_le _) hslot]
    exact .inside (hcontent ▸ held) ih

variable {env : Environment} {after : Machine}

theorem execute_tuple1 {rest : List Cell} (h : machine.stack = cell :: rest) :
    Exec.execute env ⟨.tuple1, ()⟩ machine = .ok .running
      { machine with
        stack := .ref machine.slots.size :: rest
        slots := machine.slots.push (.tuple [cell])
        created := machine.created + 1 } := by
  obtain ⟨stack, saved, memo, slots, created, buffers⟩ := machine
  cases h
  rfl

/-- What cannot be converted when it is taken off the stack. -/
theorem popValue_error {α : Type} {rest : List Cell} {failure : Failure} {next : Value → Exec α}
    (hstack : machine.stack = cell :: rest)
    (hvalue : ({ machine with stack := rest } : Machine).value cell = .error failure) :
    (Exec.pop >>= fun cell => Exec.value cell >>= next) machine =
      .error (.ofFailure failure) { machine with stack := rest } := by
  have hconverted : Exec.value cell { machine with stack := rest } =
      .error (.ofFailure failure) { machine with stack := rest } := by
    rw [Exec.value, hvalue]
  rw [Exec.bind_of_eq_ok (Exec.pop_of_stack hstack), Exec.bind_of_eq_error hconverted]

theorem run_stop_error {rest : List Cell} {failure : Failure} {program : List Instruction}
    (hstack : machine.stack = cell :: rest)
    (hvalue : ({ machine with
        stack := rest
        created := machine.created + 1 } : Machine).value cell = .error failure) :
    machine.run env (⟨.stop, ()⟩ :: program) = .error (.execution failure (some "STOP")) := by
  let counted : Machine := { machine with created := machine.created + 1 }
  have hstep : Exec.step env .stop .stop counted =
      .error (.ofFailure failure) { counted with stack := rest } := popValue_error hstack hvalue
  rw [run, Exec.execute_of_step_error env ⟨.stop, ()⟩ hstep]
  rfl

end Machine

/-- Takes the stack top into a tuple, as often as said. -/
def wrapping (number : ℕ) : List Instruction := List.replicate number ⟨.tuple1, ()⟩

namespace Machine

variable {env : Environment}

/-- Each tuple takes one level and two units of the budget, and is one more slot around the cell. -/
theorem exists_runs_wrapping (env : Environment) (machine : Machine) {cell : Cell}
    {rest : List Cell} {value : Value} {depth cost : ℕ} (hstack : machine.stack = cell :: rest)
    (h : Suffices 0 machine.slots depth cost (fun _ convert => convert cell) value) (number : ℕ) :
    ∃ top slots,
      let after : Machine :=
        { machine with
          stack := top :: rest
          slots
          created := machine.created + number }
      RunsAbove env 0 machine (wrapping number) after ∧
        Suffices 0 slots (depth + number) (cost + 2 * number) (fun _ convert => convert top)
          (value.wrapped number) ∧
        after.Encloses top number cell := by
  induction number with
  | zero =>
    refine ⟨cell, machine.slots, ?_, h, .here cell⟩
    rw [← hstack]
    exact .nil machine
  | succ number ih =>
    obtain ⟨top, slots, hruns, hsuffices, hencloses⟩ := ih
    have htuple : Suffices 0 slots (depth + number) (1 + (cost + 2 * number + 0))
        (fun limit convert => Unfolding.content convert limit (.tuple [top]))
        (value.wrapped (number + 1)) :=
      Suffices.charge.bind ((Suffices.mapM_cons hsuffices .mapM_nil).thenPure Value.tuple)
    refine ⟨.ref slots.size, slots.push (.tuple [top]), ?_, ?_, ?_⟩
    · rw [wrapping, List.replicate_succ']
      exact hruns.append (.cons (execute_tuple1 rfl) (Nat.zero_le _) (.nil _))
    · -- Each wrapping is charged for the tuple and for the reference to it.
      exact (htuple.ref (Nat.zero_le _)).mono le_rfl (by omega)
    · refine .inside (show top ∈ _ from ?_) (hencloses.of_hasFrom ?_)
      · rw [slot_eq]
        simp [Content.cells]
      · intro slot _ hslot
        exact (Array.getElem?_push_lt hslot).trans (Array.getElem?_eq_getElem hslot).symm

section Suffices

variable {machine : Machine} {slots : Array Content} {cell : Cell} {value : Value}
  {depth cost : ℕ}

/-- With enough of the budget, a cell is nested too deeply if a reference is inside of `maxDepth`
slots. -/
theorem Suffices.value_eq_error
    (h : Suffices 0 slots depth cost (fun _ convert => convert cell) value)
    (hslots : machine.HasFrom 0 slots) (hcost : cost ≤ machine.nodeLimit) {slot : ℕ}
    (hfound : machine.Encloses cell maxDepth (.ref slot)) :
    machine.value cell = .error (.nestingTooDeep maxDepth) := by
  rcases h machine machine.nodeLimit maxDepth [] hslots (by simp) machine.nodeLimit with
    ⟨left, hrun, -⟩ | ⟨-, hrun⟩ | ⟨hless, -⟩
  · exact absurd hfound (not_encloses_of_tree (gives_unfold _ _ _ _ _ _ _ hrun))
  · have herror : machine.unfold machine.nodeLimit maxDepth [] cell machine.nodeLimit =
        .error (.nestingTooDeep maxDepth) := hrun
    rw [value_eq_map, herror]
    rfl
  · exact absurd hcost hless.not_ge

end Suffices

/-- As many tuples as are allowed around an atom can be converted as long as the atom is not shared:
then the reference to it is one too many, and the very same tree is refused. -/
theorem exists_shared_nestingTooDeep :
    let shared : List Instruction := [⟨.pushNone, ()⟩, ⟨.binPut, (0 : UInt8)⟩]
    let options : Options := {}
    let machine := options.machine.after options.environment (shared ++ wrapping maxDepth)
    let tree := (Value.atom (.scalar .none)).wrapped maxDepth
    (∃ cell, machine.stack = [cell] ∧ machine.Unfolds cell tree ∧ machine.LosesNothing cell ∧
      machine.value cell = .error (.nestingTooDeep maxDepth)) ∧ tree.depth = maxDepth ∧
    Pickle.run (shared ++ wrapping maxDepth ++ [⟨.stop, ()⟩]) options =
      .error (.execution (.nestingTooDeep maxDepth) (some "STOP")) ∧
    Pickle.run ([⟨.pushNone, ()⟩] ++ wrapping maxDepth ++ [⟨.stop, ()⟩]) options = .ok tree := by
  intro shared options machine tree
  have hbudget : 2 + 2 * maxDepth ≤ minNodes := by decide
  have hdepth : tree.depth = maxDepth := Value.depth_wrapped _ _
  have hsequences : tree.OfSequences := Value.ofSequences_wrapped (.atom (.scalar .none)) maxDepth
  -- With the atom in a slot of its own there is one reference more than there are containers.
  let one : Machine :=
    ⟨[.ref 0], [], (∅ : Std.TreeMap ℕ ℕ).insert 0 0, #[.atom (.scalar .none)], 2, none⟩
  have hone : RunsAbove options.environment 0 options.machine shared one :=
    .cons rfl le_rfl (.cons rfl le_rfl (.nil _))
  have hcontent : Suffices 0 #[] 0 (1 + 0)
      (fun limit convert => Unfolding.content convert limit (.atom (.scalar .none)))
      (.atom (.scalar .none)) := Suffices.charge.bind (.pure _)
  have hatom : Suffices 0 #[.atom (.scalar .none)] 1 2 (fun _ convert => convert (.ref 0))
      (.atom (.scalar .none)) := hcontent.ref le_rfl
  obtain ⟨top, slots, hruns, hsuffices, hencloses⟩ :=
    exists_runs_wrapping options.environment one rfl hatom maxDepth
  have hrefused : ∀ machine : Machine, machine.slots = slots →
      machine.value top = .error (.nestingTooDeep maxDepth) := by
    rintro machine rfl
    exact hsuffices.value_eq_error (.refl 0 machine) (hbudget.trans (Nat.le_add_right _ _))
      (hencloses.of_hasFrom fun _ _ _ => rfl)
  refine ⟨⟨top, ?_⟩, hdepth, ?_, ?_⟩
  · let last : Machine := { one with stack := [top], slots, created := 2 + maxDepth }
    have hmachine : machine = last := (hone.append hruns).after_eq
    have htree : last.Unfolds top tree := ⟨_, hsuffices.tree?_eq (fun _ _ _ => rfl) le_rfl⟩
    rw [hmachine]
    exact ⟨rfl, htree, losesNothing_of_ofSequences htree hsequences, hrefused _ rfl⟩
  · rw [Pickle.run, (hone.append hruns).run_append]
    exact run_stop_error rfl (hrefused _ rfl)
  · let two : Machine := ⟨[.atom (.scalar .none)], [], ∅, #[], 1, none⟩
    have htwo : RunsAbove options.environment 0 options.machine [⟨.pushNone, ()⟩] two :=
      .cons rfl le_rfl (.nil _)
    obtain ⟨top, slots, hruns, hsuffices, -⟩ := exists_runs_wrapping options.environment two rfl
      (Stands.atom (.scalar .none)).converts maxDepth
    rw [Pickle.run, (htwo.append hruns).run_append]
    refine run_stop rfl (hsuffices.value_eq_ok ?_ ?_ ?_)
    · exact fun _ _ _ => rfl
    · exact (Nat.zero_add maxDepth).le
    · exact hbudget.trans (Nat.le_add_right _ _)

end Machine

/-! ## Into the machine -/

namespace Value

mutual

theorem enclosures_toValue (outer : ℕ) :
    (key : Key) → key.toValue.enclosures outer = key.enclosures outer
  | .scalar _ => rfl
  | .tuple items => congrArg (List.cons outer) (enclosuresAll_toValues (outer + 1) items)
  | .frozenSet _ => rfl

theorem enclosuresAll_toValues (outer : ℕ) :
    (keys : List Key) → enclosuresAll outer (Key.toValues keys) = Key.enclosuresAll outer keys
  | [] => rfl
  | key :: rest => by
    rw [Key.toValues, enclosuresAll, Key.enclosuresAll, enclosures_toValue outer key,
      enclosuresAll_toValues outer rest]

end

variable {outer : ℕ}

theorem enclosuresAll_eq (items : List Value) :
    enclosuresAll outer items = items.flatMap (enclosures outer) := by
  induction items with
  | nil => rfl
  | cons item rest ih => rw [enclosuresAll, ih, List.flatMap_cons]

theorem enclosuresPairs_eq (pairs : List (Key × Value)) :
    enclosuresPairs outer pairs = (pairParts pairs).flatMap (enclosures outer) := by
  induction pairs with
  | nil => rfl
  | cons pair rest ih =>
    obtain ⟨key, value⟩ := pair
    show _ = (key.toValue :: value :: pairParts rest).flatMap (enclosures outer)
    rw [enclosuresPairs, ih, List.flatMap_cons, List.flatMap_cons, enclosures_toValue]

theorem enclosuresKeywords_eq (kwargs : List (String × Value)) :
    enclosuresKeywords outer kwargs = (kwargs.map Prod.snd).flatMap (enclosures outer) := by
  induction kwargs with
  | nil => rfl
  | cons pair rest ih => rw [enclosuresKeywords, ih, List.map_cons, List.flatMap_cons]

theorem enclosuresState_eq (state : Option Value) :
    enclosuresState outer state = state.toList.flatMap (enclosures outer) := by
  cases state <;> simp [enclosuresState]

/-- The nodes of a value are the value itself and, one container further in, those of its parts. -/
theorem enclosures_eq (value : Value) :
    value.enclosures outer = outer :: value.parts.flatMap (enclosures (outer + 1)) := by
  cases value with
  | atom value => rfl
  | list items | tuple items => rw [enclosures, parts, enclosuresAll_eq]
  | set items | frozenSet items =>
    rw [enclosures, parts, ← enclosuresAll_toValues, enclosuresAll_eq]
  | dict pairs => rw [enclosures, parts, enclosuresPairs_eq]
  | object value =>
    obtain ⟨_, args, kwargs, attributes, state⟩ := value
    simp only [enclosures, parts, List.flatMap_append, enclosuresAll_eq, enclosuresKeywords_eq,
      enclosuresPairs_eq, enclosuresState_eq, List.append_assoc]

theorem mem_enclosures_iff {value : Value} {mark : ℕ} :
    mark ∈ value.enclosures outer ↔ ∃ levels inner, mark = outer + levels ∧
      value.Encloses levels inner := by
  induction value using induction_parts generalizing outer with
  | step value ih =>
    rw [enclosures_eq, List.mem_cons, List.mem_flatMap]
    constructor
    · rintro (rfl | ⟨part, hpart, hmark⟩)
      · exact ⟨0, value, rfl, .here value⟩
      · obtain ⟨levels, inner, rfl, hfound⟩ := (ih part hpart).1 hmark
        exact ⟨levels + 1, inner, by omega, .inside hpart hfound⟩
    · rintro ⟨levels, inner, rfl, hfound⟩
      cases hfound with
      | here => exact .inl rfl
      | @inside _ part _ levels hpart hfound =>
        exact .inr ⟨part, hpart, (ih part hpart).2 ⟨levels, inner, by omega, hfound⟩⟩

/-- What encloses something encloses something else at each place on the way. -/
theorem Encloses.exists_of_le {value inner : Value} {levels fewer : ℕ}
    (h : value.Encloses levels inner) (hle : fewer ≤ levels) :
    ∃ middle, value.Encloses fewer middle := by
  induction h generalizing fewer with
  | here value =>
    obtain rfl := Nat.le_zero.1 hle
    exact ⟨value, .here value⟩
  | @inside value part inner levels held _ ih =>
    cases fewer with
    | zero => exact ⟨value, .here value⟩
    | succ fewer =>
      obtain ⟨middle, hmiddle⟩ := ih (Nat.le_of_succ_le_succ hle)
      exact ⟨middle, .inside held hmiddle⟩

end Value

namespace Exec

/-- Whether nesting is all that an action can fail on. -/
def FailsOnNesting {α : Type} (action : Exec α) (fine : α → Prop) : Prop :=
  ∀ machine, match action machine with
    | .ok value _ => fine value
    | .error error _ => error = .ofFailure (.nestingTooDeep maxDepth)

theorem failsOnNesting_isLaw : EmbeddingLaw (fun _ => True) FailsOnNesting where
  pure h := fun _ => h
  bind := by
    intro α β middle fine action next hfirst hsecond machine
    have hthis := hfirst machine
    cases hresult : action machine with
    | ok value after =>
      rw [hresult] at hthis
      rw [bind_of_eq_ok hresult]
      exact hsecond value hthis after
    | error error after =>
      rw [hresult] at hthis
      rw [bind_of_eq_error hresult]
      exact hthis
  enter levels := by
    intro machine
    cases levels with
    | zero => rfl
    | succ levels => trivial
  alloc _ := fun _ => trivial

theorem error_of_embed {value : Value} {machine after : Machine} {error : Error}
    (h : embed value machine = .error error after) :
    error = .ofFailure (.nestingTooDeep maxDepth) := by
  have hfails : FailsOnNesting (embed value) (Cell.All fun _ => True) :=
    failsOnNesting_isLaw.embed fun _ _ _ => trivial
  have hthis := hfails machine
  rw [h] at hthis
  exact hthis

/-- A value can be taken apart just in case that `maxDepth` containers enclose nothing in it. -/
theorem exists_embed_iff_encloses (value : Value) (machine : Machine) :
    (∃ cell after, embed value machine = .ok cell after) ↔
      ∀ inner, ¬ value.Encloses maxDepth inner := by
  rw [exists_embed_iff]
  constructor
  · intro h inner hfound
    have hmark := h maxDepth (Value.mem_enclosures_iff.2 ⟨_, inner, (Nat.zero_add _).symm, hfound⟩)
    exact lt_irrefl _ hmark
  · intro h mark hmark
    obtain ⟨levels, inner, rfl, hfound⟩ := Value.mem_enclosures_iff.1 hmark
    by_contra hge
    obtain ⟨middle, hmiddle⟩ := hfound.exists_of_le (show maxDepth ≤ levels by omega)
    exact h middle hmiddle

/-- What the limit of nesting has to do with the containers of a value of the host, whatever machine
takes it apart.  It fails just in case that containers are nested more deeply than `maxDepth`, or that
an atom is inside of `maxDepth` containers; else it succeeds, as there is nothing else to fail on. -/
theorem embed_spec (value : Value) (machine : Machine) :
    ((∃ after, embed value machine = .error (.ofFailure (.nestingTooDeep maxDepth)) after) ↔
      maxDepth < value.depth ∨ ∃ atom, value.Encloses maxDepth (.atom atom)) ∧
    ((∃ cell after, embed value machine = .ok cell after) ↔
      value.depth ≤ maxDepth ∧ ∀ atom, ¬ value.Encloses maxDepth (.atom atom)) ∧
    ∀ error after, embed value machine = .error error after →
      error = .ofFailure (.nestingTooDeep maxDepth) := by
  have hsome : (∃ inner, value.Encloses maxDepth inner) ↔
      maxDepth < value.depth ∨ ∃ atom, value.Encloses maxDepth (.atom atom) := by
    rw [Value.lt_depth_iff]
    constructor
    · rintro ⟨inner, hfound⟩
      cases inner with
      | atom atom => exact .inr ⟨atom, hfound⟩
      | _ => exact .inl ⟨_, hfound, trivial⟩
    · rintro (⟨inner, hfound, -⟩ | ⟨atom, hfound⟩)
      · exact ⟨inner, hfound⟩
      · exact ⟨_, hfound⟩
  have hok := exists_embed_iff_encloses value machine
  refine ⟨?_, ?_, fun error after => error_of_embed⟩
  · rw [← hsome]
    cases hresult : embed value machine with
    | ok cell after =>
      refine iff_of_false (by rintro ⟨other, ⟨⟩⟩) ?_
      rintro ⟨inner, hfound⟩
      exact hok.1 ⟨cell, after, hresult⟩ inner hfound
    | error error after =>
      obtain rfl := error_of_embed hresult
      -- Embedding has one way to fail, so it is enough that it cannot succeed.
      refine iff_of_true ⟨after, rfl⟩ ?_
      by_contra hnone
      obtain ⟨cell, other, hcell⟩ := hok.2 fun inner hfound => hnone ⟨inner, hfound⟩
      rw [hresult] at hcell
      cases hcell
  · rw [hok, ← not_exists, hsome, not_or, Nat.not_lt, not_exists]

/-- An atom in as many tuples as are allowed is refused, by every machine and so by every run that
asks for it, although the same tuples around an empty one are accepted. -/
theorem embed_wrapped_none :
    let value := (Value.atom (.scalar .none)).wrapped maxDepth
    let empty := (Value.tuple []).wrapped (maxDepth - 1)
    let options : Options := { extensions := [(1, value)] }
    value.depth = maxDepth ∧ empty.depth = maxDepth ∧
    (∀ machine,
      (∃ after, embed value machine = .error (.ofFailure (.nestingTooDeep maxDepth)) after) ∧
        ∃ cell after, embed empty machine = .ok cell after) ∧
    run [⟨.ext1, (1 : UInt8)⟩, ⟨.stop, ()⟩] options =
      .error (.execution (.nestingTooDeep maxDepth) (some "EXT1")) := by
  intro value empty options
  have hrefused : ∀ machine,
      ∃ after, embed value machine = .error (.ofFailure (.nestingTooDeep maxDepth)) after := by
    intro machine
    refine (embed_spec value machine).1.2 (.inr ⟨.scalar .none, ?_⟩)
    have hfound := (Value.encloses_wrapped_iff (.atom (.scalar .none)) maxDepth).2
      (.here (.atom (.scalar .none)))
    rwa [Nat.zero_add] at hfound
  have hempty : empty.depth = maxDepth := Value.depth_wrapped _ _
  refine ⟨Value.depth_wrapped _ _, hempty, fun machine => ⟨hrefused machine, ?_⟩, ?_⟩
  · refine (embed_spec empty machine).2.1.2 ⟨hempty.le, fun atom hfound => ?_⟩
    have hinside : (Value.tuple []).Encloses 1 (.atom atom) :=
      (Value.encloses_wrapped_iff (Value.tuple []) (maxDepth - 1)).1 hfound
    obtain ⟨part, hpart, -⟩ := Value.encloses_succ_iff.1 hinside
    cases hpart
  · let counted : Machine := { options.machine with created := 1 }
    obtain ⟨after, hafter⟩ := hrefused counted
    have hstep : step options.environment .ext1 (.extension 1) counted =
        .error (.ofFailure (.nestingTooDeep maxDepth)) after := bind_of_eq_error hafter
    rw [run, Machine.run, execute_of_step_error options.environment ⟨.ext1, (1 : UInt8)⟩ hstep]
    rfl

end Exec

end Pickle
