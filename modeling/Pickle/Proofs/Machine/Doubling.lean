import Pickle.Load
import Pickle.Proofs.Machine.Brackets
import Pickle.Proofs.Machine.Copies

/-!
# Programs that double

Two instructions are enough to share the stack top and to pair it with itself, so that a tree of
twice as many nodes is described (`Machine.exists_runs_doubling`).  The limit for what leaves a
machine puts an end to this, and it is no higher for such pairs than for other instructions.

But a routine of the host is given the tree, not the pairs, and what it makes of the tree comes
back as a copy, each node of which counts as created.  So the copy can be doubled again
(`Machine.exists_runs_copy`).
-/

namespace Pickle

/-! ## Pairs of pairs -/

namespace Value

/-- A value in as many tuples, each of which holds the one before twice. -/
def doubled (value : Value) : ℕ → Value
  | 0 => value
  | number + 1 => .tuple [value.doubled number, value.doubled number]

/-- Each pair doubles the nodes, and is one more. -/
theorem nodes_doubled (value : Value) (number : ℕ) :
    (value.doubled number).nodes + 1 = 2 ^ number * (value.nodes + 1) := by
  induction number with
  | zero => rw [doubled, pow_zero, Nat.one_mul]
  | succ number ih =>
    rw [doubled, nodes, nodesAll, nodesAll, nodesAll, Nat.pow_succ, Nat.mul_right_comm]
    omega

theorem depth_doubled (value : Value) (number : ℕ) :
    (value.doubled number).depth = value.depth + number := by
  induction number with
  | zero => rfl
  | succ number ih =>
    simp [doubled, depth, depthAll, ih, Nat.add_assoc]

theorem isSorted_doubled {value : Value} (h : value.IsSorted) (number : ℕ) :
    (value.doubled number).IsSorted := by
  induction number with
  | zero => exact h
  | succ number ih =>
    rw [doubled, IsSorted]
    exact ⟨ih, ih, trivial⟩

end Value

/-- Shares the stack top and pairs it with itself, as often as said. -/
def doubling (number : ℕ) : List Instruction :=
  (List.replicate number [⟨.dup, ()⟩, ⟨.tuple2, ()⟩]).flatten

namespace Machine

variable {env : Environment} {floor : ℕ} {machine middle after : Machine}
  {first second : List Instruction}

theorem RunsAbove.append (hfirst : RunsAbove env floor machine first middle)
    (hsecond : RunsAbove env floor middle second after) :
    RunsAbove env floor machine (first ++ second) after := by
  induction hfirst with
  | nil => exact hsecond
  | cons h hfloor _ ih => exact .cons h hfloor (ih hsecond)

theorem RunsAbove.run_append (h : RunsAbove env floor machine first after)
    (rest : List Instruction) : machine.run env (first ++ rest) = after.run env rest := by
  induction h with
  | nil => rfl
  | cons h _ _ ih => rw [List.cons_append, run, h]; exact ih

theorem RunsAbove.after_eq {program : List Instruction}
    (h : RunsAbove env floor machine program after) : machine.after env program = after := by
  induction h with
  | nil => rfl
  | cons h _ _ ih => rw [after_cons, Exec.after, h, ih]

theorem execute_dup {slot : ℕ} {rest : List Cell} (h : machine.stack = .ref slot :: rest) :
    Exec.execute env ⟨.dup, ()⟩ machine = .ok .running
      { machine with
        stack := .ref slot :: machine.stack
        created := machine.created + 1 } := by
  obtain ⟨stack, saved, memo, slots, created, buffers⟩ := machine
  cases h
  rfl

theorem execute_tuple2 {left right : Cell} {rest : List Cell}
    (h : machine.stack = right :: left :: rest) :
    Exec.execute env ⟨.tuple2, ()⟩ machine = .ok .running
      { machine with
        stack := .ref machine.slots.size :: rest
        slots := machine.slots.push (.tuple [left, right])
        created := machine.created + 1 } := by
  obtain ⟨stack, saved, memo, slots, created, buffers⟩ := machine
  cases h
  rfl

variable (env) (machine)

/-- Two instructions double what the stack top is good for. -/
theorem exists_runs_doubling {slot : ℕ} {rest : List Cell} {value : Value}
    (hstack : machine.stack = .ref slot :: rest) (h : Stands 0 machine.slots (.ref slot) value)
    (number : ℕ) : ∃ top slots,
      RunsAbove env 0 machine (doubling number)
        { machine with
          stack := .ref top :: rest
          slots
          created := machine.created + 2 * number } ∧
      Stands 0 slots (.ref top) (value.doubled number) := by
  induction number with
  | zero =>
    refine ⟨slot, machine.slots, ?_, h⟩
    rw [← hstack]
    exact .nil machine
  | succ number ih =>
    obtain ⟨top, slots, hruns, hstands⟩ := ih
    refine ⟨slots.size, slots.push (.tuple [.ref top, .ref top]), ?_,
      .tuple (.cons hstands (.cons hstands .nil)) (Nat.zero_le _)⟩
    rw [doubling, List.replicate_succ', List.flatten_append]
    exact hruns.append <| .cons (execute_dup rfl) (Nat.zero_le _) <|
      .cons (execute_tuple2 rfl) (Nat.zero_le _) (.nil _)

end Machine

/-! ## Copies -/

/-- A class that is not known makes an instance of all items of the state. -/
theorem reconstruct_class (host : Host) (name : ClassName) (items : List Value) :
    reconstruct host (.atom (.class_ name)) (.tuple items) =
      .ok (.object (.fresh name items [])) := by
  unfold reconstruct
  split
  · next heq => cases heq; rfl
  · next heq => cases heq
  · next heq => cases heq; rfl
  · next heq => cases heq
  · next heq => cases heq
  · next hother _ _ => exact absurd rfl (hother items)

namespace Exec

variable {env : Environment} {machine : Machine}

theorem popArguments_of_stack {cell : Cell} {rest cells : List Cell}
    (hstack : machine.stack = cell :: rest) (hcells : machine.content cell = .tuple cells) :
    popArguments machine = .ok cells { machine with stack := rest } := by
  have hcontent : content cell { machine with stack := rest } =
      .ok (.tuple cells) { machine with stack := rest } := hcells ▸ rfl
  rw [popArguments, bind_of_eq_ok (pop_of_stack hstack), bind_of_eq_ok hcontent]
  rfl

/-- Cells that have values one by one are converted together. -/
theorem mapM_value_of_forall₂ {cells : List Cell} {values : List Value}
    (h : List.Forall₂ (fun cell value => machine.value cell = .ok value) cells values) :
    cells.mapM Exec.value machine = .ok values machine := by
  induction h with
  | nil => rfl
  | @cons cell value cells values hvalue _ ih =>
    have hcell : Exec.value cell machine = .ok value machine := by rw [Exec.value, hvalue]
    rw [List.mapM_cons, bind_of_eq_ok hcell, bind_of_eq_ok ih]
    rfl

/-- A routine is run with the values of its arguments, and its result is taken apart. -/
theorem callCell_callable {opcode : Opcode} {callable : Callable} {cells : List Cell}
    {values : List Value} (hvalues : cells.mapM value machine = .ok values machine) :
    callCell env opcode (.atom (.callable callable)) cells [] machine =
      (ofExcept (callable.run env.host values []) >>= embed) machine := by
  show (cells.mapM value >>= fun args =>
    ofExcept (callable.run env.host args []) >>= embed) machine = _
  rw [bind_of_eq_ok hvalues]

theorem callCell_of_run {opcode : Opcode} {callable : Callable} {cells : List Cell}
    {values : List Value} {result : Value} (hvalues : cells.mapM value machine = .ok values machine)
    (hrun : callable.run env.host values [] = .ok result) :
    callCell env opcode (.atom (.callable callable)) cells [] machine = embed result machine := by
  rw [callCell_callable hvalues, hrun]
  rfl

theorem callCell_of_run_error {opcode : Opcode} {callable : Callable} {cells : List Cell}
    {values : List Value} {error : Error} (hvalues : cells.mapM value machine = .ok values machine)
    (hrun : callable.run env.host values [] = .error error) :
    callCell env opcode (.atom (.callable callable)) cells [] machine = .error error machine := by
  rw [callCell_callable hvalues, hrun]
  rfl

/-- The arguments and what is called are taken off the stack before the call. -/
theorem step_apply {opcode : Opcode} {cell callee : Cell} {rest cells : List Cell}
    (hstack : machine.stack = cell :: callee :: rest)
    (hcells : machine.content cell = .tuple cells) :
    step env opcode .apply machine =
      (callCell env opcode callee cells [] >>= fun result => push result >>= fun _ =>
        pure Status.running) { machine with stack := rest } := by
  rw [step, bind_of_eq_ok (popArguments_of_stack hstack hcells), bind_of_eq_ok (pop_of_stack rfl)]

end Exec

namespace Machine

variable {env : Environment} {machine after : Machine}

theorem execute_tuple3 {first second third : Cell} {rest : List Cell}
    (h : machine.stack = third :: second :: first :: rest) :
    Exec.execute env ⟨.tuple3, ()⟩ machine = .ok .running
      { machine with
        stack := .ref machine.slots.size :: rest
        slots := machine.slots.push (.tuple [first, second, third])
        created := machine.created + 1 } := by
  obtain ⟨stack, saved, memo, slots, created, buffers⟩ := machine
  cases h
  rfl

theorem execute_reduce {slot : ℕ} {callee result : Cell} {rest cells : List Cell}
    (hstack : machine.stack = .ref slot :: callee :: rest)
    (hcells : machine.slot slot = .tuple cells)
    (hcall : Exec.callCell env .reduce callee cells []
      { machine with stack := rest, created := machine.created + 1 } = .ok result after) :
    Exec.execute env ⟨.reduce, ()⟩ machine =
      .ok .running { after with stack := result :: after.stack } := by
  let counted : Machine := { machine with created := machine.created + 1 }
  have hstep : Exec.step env .reduce .apply counted = _ := Exec.step_apply hstack hcells
  rw [Exec.bind_of_eq_ok hcall] at hstep
  exact Exec.execute_of_step env ⟨.reduce, ()⟩ hstep

theorem execute_reduce_error {slot : ℕ} {callee : Cell} {rest cells : List Cell} {error : Error}
    (hstack : machine.stack = .ref slot :: callee :: rest)
    (hcells : machine.slot slot = .tuple cells)
    (hcall : Exec.callCell env .reduce callee cells []
      { machine with stack := rest, created := machine.created + 1 } = .error error after) :
    Exec.execute env ⟨.reduce, ()⟩ machine = .error (error.during "REDUCE") after := by
  let counted : Machine := { machine with created := machine.created + 1 }
  have hstep : Exec.step env .reduce .apply counted = _ := Exec.step_apply hstack hcells
  rw [Exec.bind_of_eq_error hcall] at hstep
  exact Exec.execute_of_step_error env ⟨.reduce, ()⟩ hstep

/-- A new instance of items that are not too deep gets a slot when it is taken apart. -/
theorem exists_embed_fresh (name : ClassName) {items : List Value} (hsorted : Value.AllSorted items)
    (hdepth : (Value.tuple items).depth < maxDepth) (machine : Machine) : ∃ slot more,
      Exec.embed (.object (.fresh name items [])) machine = .ok (.ref slot)
        { machine with
          slots := machine.slots ++ more
          created := machine.created + (Value.tuple items).nodes } ∧
      Stands 0 (machine.slots ++ more) (.ref slot) (.object (.fresh name items [])) := by
  have hvalue : (Value.object (.fresh name items [])).IsSorted :=
    ⟨hsorted, ⟨.nil, trivial⟩, ⟨⟨by simp, .nil⟩, trivial⟩, trivial⟩
  have hdepth' := (Value.depth_fresh name items).trans_lt hdepth
  obtain ⟨cell, after, hembed⟩ := Exec.exists_embed_of_depth_lt hdepth' machine
  have hcopy := isCopy_of_embed hvalue hembed
  obtain ⟨new, created, rfl⟩ := hcopy.grows
  obtain rfl : created = machine.created + (Value.tuple items).nodes :=
    (Exec.depth_le_of_embed hembed).2.trans (congrArg _ (Value.nodes_fresh name items))
  have hstands := Exec.stands_of_embed (Nat.zero_le _) hvalue hembed
  cases cell with
  | ref slot => exact ⟨slot, new, hembed, hstands⟩
  | atom value =>
    have hatom := hcopy.value_eq_ok
    rw [value_atom] at hatom
    cases hatom

variable (env) (machine) in
/-- The maker of instances is called with a class and a tuple, and its result becomes the stack
top. -/
theorem exists_runs_reconstruct {slot : ℕ} {rest : List Cell} {callable class_ : QualifiedName}
    {items : List Value}
    (hstack : machine.stack = .ref slot :: .atom (.scalar .none) :: .atom (.class_ class_) ::
      .atom (.callable ⟨callable, .function, .builtin .reconstructor⟩) :: rest)
    (h : Stands 0 machine.slots (.ref slot) (.tuple items)) (hsorted : Value.AllSorted items)
    (hdepth : (Value.tuple items).depth < maxDepth)
    (hnodes : 2 * (Value.tuple items).nodes ≤ machine.nodeLimit) : ∃ top slots,
      RunsAbove env 0 machine [⟨.tuple3, ()⟩, ⟨.reduce, ()⟩]
        { machine with
          stack := .ref top :: rest
          slots
          created := machine.created + 2 + (Value.tuple items).nodes } ∧
      Stands 0 slots (.ref top) (.object (.fresh class_ items [])) := by
  let args : List Cell := [.atom (.class_ class_), .atom (.scalar .none), .ref slot]
  let called : Machine :=
    { machine with
      stack := rest
      slots := machine.slots.push (.tuple args)
      created := machine.created + 1 + 1 }
  obtain ⟨top, more, hembed, hstands⟩ := exists_embed_fresh class_ hsorted hdepth called
  refine ⟨top, called.slots ++ more, ?_, hstands⟩
  have hlimit : machine.nodeLimit ≤ called.nodeLimit :=
    Nat.add_le_add_left (Nat.mul_le_mul_left _ (Nat.le_add_right machine.created 2)) _
  -- The arguments fit their limit with every reference charged twice.
  have hvalues : args.mapM Exec.value called =
      .ok [.atom (.class_ class_), .atom (.scalar .none), .tuple items] called :=
    Exec.mapM_value_of_forall₂ <| .cons (value_atom called _) <| .cons (value_atom called _) <|
      .cons ((h.push _).value_eq_ok (.refl 0 called) hdepth.le (hnodes.trans hlimit)) .nil
  have hrun : (⟨callable, .function, .builtin .reconstructor⟩ : Callable).run env.host
      [.atom (.class_ class_), .atom (.scalar .none), .tuple items] [] =
        .ok (.object (.fresh class_ items [])) := reconstruct_class env.host class_ items
  have hcall : Exec.callCell env .reduce _ args [] called = _ :=
    (Exec.callCell_of_run hvalues hrun).trans hembed
  have hargs : (machine.slots.push (.tuple args)).getD machine.slots.size .none = .tuple args := by
    simp
  exact .cons (execute_tuple3 hstack) (Nat.zero_le _) <|
    .cons (execute_reduce rfl hargs hcall) (Nat.zero_le _) (.nil _)

variable (env) (machine) in
/-- A state is doubled, an instance is made of it and copied, and the copy is doubled in turn.  The
limits have to allow for the state alone. -/
theorem exists_runs_copy {slot : ℕ} {rest : List Cell} {callable class_ : QualifiedName}
    {value : Value} (hstack : machine.stack = .ref slot :: .atom (.scalar .none) ::
      .atom (.class_ class_) :: .atom (.callable ⟨callable, .function, .builtin .reconstructor⟩) ::
      rest)
    (h : Stands 0 machine.slots (.ref slot) value) (hsorted : value.IsSorted) (before after : ℕ)
    (hdepth : value.depth + (before + 1) < maxDepth)
    (hnodes : 2 * (value.doubled (before + 1)).nodes ≤
      minNodes + nodeFactor * (machine.created + 2 * (before + 1))) : ∃ top slots,
      RunsAbove env 0 machine
        (doubling (before + 1) ++ ([⟨.tuple3, ()⟩, ⟨.reduce, ()⟩] ++ doubling after))
        { machine with
          stack := .ref top :: rest
          slots
          created := machine.created + 2 * (before + 1) + 2 +
            (value.doubled (before + 1)).nodes + 2 * after } ∧
      Stands 0 slots (.ref top)
        ((Value.object (.fresh class_ [value.doubled before, value.doubled before] [])).doubled
          after) := by
  let items : List Value := [value.doubled before, value.doubled before]
  have hitems : Value.AllSorted items :=
    ⟨value.isSorted_doubled hsorted before, value.isSorted_doubled hsorted before, trivial⟩
  -- Doubled for a tuple of state, copied into an object, and doubled again.
  obtain ⟨state, slots, hstate, hstands⟩ := exists_runs_doubling env machine hstack h (before + 1)
  let stated : Machine :=
    { machine with
      stack := .ref state :: .atom (.scalar .none) :: .atom (.class_ class_) ::
        .atom (.callable ⟨callable, .function, .builtin .reconstructor⟩) :: rest
      slots
      created := machine.created + 2 * (before + 1) }
  have hstands : Stands 0 stated.slots (.ref state) (.tuple items) := hstands
  obtain ⟨copy, slots, hcopy, hstands⟩ := exists_runs_reconstruct env stated rfl hstands hitems
    ((value.depth_doubled (before + 1)).trans_lt hdepth) hnodes
  obtain ⟨top, slots, htop, hstands⟩ := exists_runs_doubling env
    { stated with
      stack := .ref copy :: rest
      slots
      created := stated.created + 2 + (Value.tuple items).nodes } rfl hstands after
  exact ⟨top, slots, hstate.append (hcopy.append htop), hstands⟩

theorem execute_obj {arg : Cell} {below : List Cell} {saved : List (List Cell)}
    {class_ : QualifiedName} (hstack : machine.stack = [arg, .atom (.class_ class_)])
    (hsaved : machine.saved = below :: saved) :
    Exec.execute env ⟨.obj, ()⟩ machine = .ok .running
      { machine with
        stack := .ref machine.slots.size :: below
        saved
        slots := machine.slots.push (.object (.fresh class_ [arg] []))
        created := machine.created + 1 } := by
  obtain ⟨stack, saved, memo, slots, created, buffers⟩ := machine
  cases hstack
  cases hsaved
  rfl

theorem run_stop {cell : Cell} {rest : List Cell} {value : Value} {program : List Instruction}
    (hstack : machine.stack = cell :: rest)
    (hvalue : ({ machine with
        stack := rest
        created := machine.created + 1 } : Machine).value cell = .ok value) :
    machine.run env (⟨.stop, ()⟩ :: program) = .ok value := by
  rw [run, Exec.execute_stop env hstack hvalue]

/-- The last item of a bracket becomes the argument of an instance, which is the result. -/
theorem run_obj_stop {arg : Cell} {below : List Cell} {saved : List (List Cell)}
    {class_ : QualifiedName} {value : Value}
    (hstack : machine.stack = [arg, .atom (.class_ class_)])
    (hsaved : machine.saved = below :: saved) (h : Stands 0 machine.slots arg value)
    (hdepth : value.depth + 1 < maxDepth)
    (hnodes : 2 * (value.nodes + 1) ≤ minNodes + nodeFactor * (machine.created + 2)) :
    machine.run env [⟨.obj, ()⟩, ⟨.stop, ()⟩] = .ok (.object (.fresh class_ [value] [])) := by
  rw [run, execute_obj hstack hsaved]
  refine run_stop rfl ((Stands.fresh class_ (.cons h .nil) (Nat.zero_le _)).value_eq_ok
    (fun _ _ _ => rfl) ?_ ?_)
  · rw [Value.depth_fresh, Value.depthAll, Value.depthAll, Nat.max_zero]
    exact hdepth.le
  · rw [Value.nodes_fresh, Value.nodesAll, Value.nodesAll, Nat.add_zero]
    exact hnodes

end Machine

end Pickle
