import Mathlib
import Pickle.Proofs.Machine.Calls
import Pickle.Proofs.Machine.Doubling
import Pickle.Proofs.Value.Parts

/-!
# What calls are given

A call is made in two parts.  First what is called and the cells of its arguments are taken off the
stack, and a class becomes an instance of them at once; for a callable the cells are converted, each
with a budget of its own.  Only then the routine of the callable is run.  `Exec.handOver` is the
first part, and `Exec.callCell_eq` puts the second one behind it; `Exec.handsOver` is the same for
whole operations.  An instruction that hands nothing over has nothing to do with the routines of
the host (`Exec.execute_eq_of_host`).

So every single argument is within the limits for what was created by then (`arguments_within`).
The budget is not one for all of them, though: a pickle can name a large value as often as it likes,
and three arguments are enough to go beyond the limit together (`exists_arguments_exceed`).
-/

namespace Pickle

/-- A callable with the values that it is given. -/
structure Call where
  /-- What is called. -/
  callable : Callable
  /-- The positional arguments. -/
  args : List Value
  /-- The keyword arguments. -/
  kwargs : List (String × Value)

namespace Call

/-- The number of arguments. -/
def arity (call : Call) : ℕ := call.args.length + call.kwargs.length

/-- The number of nodes of all arguments together. -/
def nodes (call : Call) : ℕ := Value.nodesAll call.args + Value.nodesKeywords call.kwargs

/-- Whether every argument is within the limits for what was created. -/
structure IsWithin (created : ℕ) (call : Call) : Prop where
  args : ∀ arg ∈ call.args, arg.IsWithin created
  kwargs : ∀ kwarg ∈ call.kwargs, kwarg.2.IsWithin created

/-- Arguments that are within the limits have at most so many times the nodes together. -/
theorem IsWithin.nodes_le {created : ℕ} {call : Call} (h : call.IsWithin created) :
    call.nodes ≤ call.arity * (minNodes + nodeFactor * created) := by
  let limit := minNodes + nodeFactor * created
  have hall : ∀ values : List Value, (∀ value ∈ values, value.nodes ≤ limit) →
      (values.map Value.nodes).sum ≤ values.length * limit := by
    intro values hvalues
    have hsum := List.sum_le_card_nsmul (values.map Value.nodes) limit (by simpa using hvalues)
    rwa [List.length_map, smul_eq_mul] at hsum
  have hargs := hall call.args fun arg harg => (h.args arg harg).2
  have hkwargs := hall (call.kwargs.map Prod.snd) <| List.forall_mem_map.2 fun kwarg hkwarg =>
    (h.kwargs kwarg hkwarg).2
  rw [List.length_map] at hkwargs
  calc call.nodes
      = (call.args.map Value.nodes).sum + ((call.kwargs.map Prod.snd).map Value.nodes).sum := by
        rw [nodes, Value.nodesAll_eq, Value.nodesKeywords_eq]
    _ ≤ call.args.length * limit + call.kwargs.length * limit := Nat.add_le_add hargs hkwargs
    _ = call.arity * limit := (Nat.add_mul _ _ _).symm

end Call

namespace Exec

/-- Hands arguments to what a cell stands for.  A class makes an instance of them; for a callable
they are converted, which leaves a call to be made. -/
def handOver (opcode : Opcode) (callee : Cell) (args : List Cell) (kwargs : List (String × Cell)) :
    Exec (Cell ⊕ Call) := do
  match ← content callee with
  | .atom (.class_ name) => return .inl (← alloc (.object (.fresh name args kwargs)))
  | .atom (.callable callable) =>
    let args ← args.mapM value
    let kwargs ← kwargs.mapM fun (name, cell) => return (name, ← value cell)
    return .inr ⟨callable, args, keywordsOf kwargs⟩
  | other => fail (.notCallable opcode other.kind)

/-- Makes the call that is left to be made, if there is one. -/
def answer (host : Host) : Cell ⊕ Call → Exec Cell
  | .inl cell => return cell
  | .inr call => do embed (← ofExcept (call.callable.run host call.args call.kwargs))

/-- The first part of the operations that call something: what they call, and the arguments, are
taken off the stack, and the arguments are handed over. -/
def handsOver (env : Environment) (opcode : Opcode) : Operation → Option (Exec (Cell ⊕ Call))
  | .apply => some do
    let args ← popArguments
    let callee ← pop
    handOver opcode callee args []
  | .applyKeywords => some do
    let kwargs ← popKeywords
    let args ← popArguments
    let callee ← pop
    handOver opcode callee args kwargs
  | .applyConstant name => some do
    let args ← popMark
    let callee ← constant env name
    handOver opcode callee args []
  | .applyBracket => some do
    match ← popMark with
    | callee :: args => handOver opcode callee args []
    | [] => fail .stackUnderflow
  | _ => none

variable {env : Environment} {opcode : Opcode} {operation : Operation}
  {handing : Exec (Cell ⊕ Call)}

theorem callCell_eq (env : Environment) (opcode : Opcode) (callee : Cell) (args : List Cell)
    (kwargs : List (String × Cell)) :
    callCell env opcode callee args kwargs =
      handOver opcode callee args kwargs >>= answer env.host := by
  unfold callCell handOver
  rw [bind_assoc]
  congr 1
  funext content
  cases content with
  | atom value =>
    cases value with
    | class_ name => simp only [bind_assoc, pure_bind, answer, bind_pure]
    | callable callable => simp only [bind_assoc, pure_bind, answer]
    | _ => rfl
  | _ => rfl

/-- An operation that calls something hands its arguments over, makes the call, and pushes what
comes of it. -/
theorem step_eq_of_handsOver (h : handsOver env opcode operation = some handing) :
    step env opcode operation =
      handing >>= fun handed => answer env.host handed >>= fun cell =>
        push cell >>= fun _ => pure .running := by
  cases operation with
  | apply | applyKeywords | applyConstant =>
    cases h
    simp only [step, callCell_eq, bind_assoc]
  | applyBracket =>
    cases h
    simp only [step, bind_assoc]
    congr 1
    funext cells
    cases cells with
    | nil => rfl
    | cons callee args => simp only [callCell_eq, bind_assoc]
  | _ => cases h

/-- The routines of the host do not matter to operations that call nothing. -/
theorem step_eq_of_host (h : handsOver env opcode operation = none) (host : Host) :
    step { env with host } opcode operation = step env opcode operation := by
  cases operation with
  | apply | applyKeywords | applyConstant | applyBracket => cases h
  | pushEmpty container => cases container <;> rfl
  | collect container => cases container <;> rfl
  | memoize index => cases index <;> rfl
  | _ => rfl

/-! ## Instructions that call -/

/-- A keyword argument is converted with its name left aside. -/
theorem ends_keyword (pair : String × Cell) (machine : Machine) :
    Ends ((do return (pair.1, ← value pair.2) : Exec (String × Value)) machine)
      (fun kwarg after => after = machine ∧ kwarg.2.IsWithin machine.created) fun _ => True := by
  refine Ends.bind ((ends_value pair.2 machine).imp ?_ fun _ h => h)
  rintro value _ ⟨rfl, hvalue⟩
  exact ⟨rfl, hvalue⟩

/-- Handing over leaves the machine as it is if a call is left to be made, and the arguments of the
call are within the limits. -/
theorem ends_handOver (opcode : Opcode) (callee : Cell) (args : List Cell)
    (kwargs : List (String × Cell)) (machine : Machine) :
    Ends (handOver opcode callee args kwargs machine)
      (fun handed after => ∀ call, handed = .inr call →
        after = machine ∧ call.IsWithin machine.created) fun _ => True := by
  have hcontent : content callee machine = .ok (machine.content callee) machine := rfl
  rw [handOver, bind_of_eq_ok hcontent]
  generalize machine.content callee = content
  cases content with
  | atom value =>
    cases value with
    | class_ name =>
      rintro call ⟨⟩
    | callable callable =>
      refine Ends.bind ((ends_mapM (ends_value · machine) args).imp ?_ fun _ h => h)
      rintro args _ ⟨rfl, hargs⟩
      refine Ends.bind ((ends_mapM (ends_keyword · _) kwargs).imp ?_ fun _ h => h)
      rintro kwargs _ ⟨rfl, hkwargs⟩ call ⟨⟩
      exact ⟨rfl, hargs, Value.IsWithin.of_mem_keywordsOf hkwargs⟩
    | _ => trivial
  | _ => trivial

/-- A callable is left to be called with the values of the cells. -/
theorem handOver_of_values {callable : Callable} {cells : List Cell} {values : List Value}
    {machine : Machine} (h : cells.mapM value machine = .ok values machine) :
    handOver opcode (.atom (.callable callable)) cells [] machine =
      .ok (.inr ⟨callable, values, []⟩) machine := by
  show (cells.mapM value >>= fun args =>
    (Pure.pure (.inr ⟨callable, args, []⟩) : Exec (Cell ⊕ Call))) machine = _
  rw [bind_of_eq_ok h]
  rfl

/-- What creates nothing may come before arguments are handed over. -/
theorem ends_bind_handing {α : Type} {action : Exec α} {next : α → Exec (Cell ⊕ Call)}
    {machine : Machine} {created : ℕ} (hfirst : Keeps (Machine.Accounts 0) 0 action)
    (hnext : ∀ value middle, middle.created = machine.created →
      Ends (next value middle) (fun handed moment => ∀ call, handed = .inr call →
        moment.created = created ∧ call.IsWithin moment.created) fun _ => True) :
    Ends ((action >>= next) machine) (fun handed moment => ∀ call, handed = .inr call →
      moment.created = created ∧ call.IsWithin moment.created) fun _ => True :=
  Ends.bind ((hfirst machine).imp (fun value middle h => hnext value middle h.created)
    fun _ _ => trivial)

/-- What an operation hands over is within the limits for what was created by then.  It creates
nothing before, unless the operation names what it calls. -/
theorem ends_handsOver (h : handsOver env opcode operation = some handing) (machine : Machine) :
    Ends (handing machine)
      (fun handed moment => ∀ call, handed = .inr call →
        moment.created = machine.created + env.visitsCallee operation ∧
          call.IsWithin moment.created) fun _ => True := by
  -- Every kind of call ends by handing over, which creates nothing; they differ before that.
  have hlast : ∀ callee args kwargs (middle : Machine), ∀ created, middle.created = created →
      Ends (handOver opcode callee args kwargs middle) (fun handed moment =>
        ∀ call, handed = .inr call → moment.created = created ∧ call.IsWithin moment.created)
        fun _ => True := by
    intro callee args kwargs middle created hcreated
    refine (ends_handOver opcode callee args kwargs middle).imp ?_ fun _ h => h
    intro handed moment hhanded call hcall
    obtain ⟨rfl, hwithin⟩ := hhanded call hcall
    exact ⟨hcreated, hwithin⟩
  cases operation with
  | apply =>
    cases h
    refine ends_bind_handing .popArguments fun args first hfirst => ?_
    refine ends_bind_handing .pop fun callee second hsecond => ?_
    exact hlast callee args [] second _ (hsecond.trans hfirst)
  | applyKeywords =>
    cases h
    refine ends_bind_handing .popKeywords fun kwargs first hfirst => ?_
    refine ends_bind_handing .popArguments fun args second hsecond => ?_
    refine ends_bind_handing .pop fun callee third hthird => ?_
    exact hlast callee args kwargs third _ (hthird.trans (hsecond.trans hfirst))
  | applyConstant name =>
    cases h
    refine ends_bind_handing keepsAccounts_popMark fun args first hfirst => ?_
    refine Ends.bind ((created_embed (env.constants.resolve name) first).imp ?_ fun _ _ => trivial)
    intro callee second hsecond
    exact hlast callee args [] second _ (hsecond.trans (congrArg (· + _) hfirst))
  | applyBracket =>
    cases h
    refine ends_bind_handing keepsAccounts_popMark fun cells first hfirst => ?_
    cases cells with
    | nil => trivial
    | cons callee args => exact hlast callee args [] first _ hfirst
  | _ => cases h

end Exec

namespace Machine

variable (env : Environment) (machine : Machine) (instruction : Instruction)

/-- The machine as it is when it takes the step of an instruction. -/
def counted : Machine := { machine with created := machine.created + 1 }

/-- Whether an instruction makes a call, the machine having become another one by then. -/
def Calls (call : Call) (moment : Machine) : Prop :=
  ∃ handing, Exec.handsOver env instruction.opcode instruction.operation = some handing ∧
    handing machine.counted = .ok (.inr call) moment

variable {env machine instruction} {call : Call} {moment : Machine}

/-- An instruction that makes a call comes to just this call. -/
theorem Calls.execute_eq (h : machine.Calls env instruction call moment) :
    Exec.execute env instruction machine =
      Exec.during instruction.name (Exec.answer env.host (.inr call) >>= fun cell =>
        Exec.push cell >>= fun _ => pure .running) moment := by
  obtain ⟨handing, hhands, hmoment⟩ := h
  have hcount : Exec.count 1 machine = .ok () machine.counted := rfl
  rw [Exec.execute, Exec.bind_of_eq_ok hcount, Exec.during, Exec.step_eq_of_handsOver hhands,
    Exec.bind_of_eq_ok hmoment, ← Exec.during]

/-- The routines of the host do not matter to an instruction that makes no call. -/
theorem execute_eq_of_host (h : ∀ call moment, ¬ machine.Calls env instruction call moment)
    (host : Host) : Exec.execute { env with host } instruction machine =
      Exec.execute env instruction machine := by
  have hstep : Exec.step { env with host } instruction.opcode instruction.operation
      machine.counted = Exec.step env instruction.opcode instruction.operation machine.counted := by
    cases hhands : Exec.handsOver env instruction.opcode instruction.operation with
    | none => rw [Exec.step_eq_of_host hhands host]
    | some handing =>
      have hother : Exec.handsOver { env with host } instruction.opcode instruction.operation =
          some handing := hhands
      have hends : Exec.Ends (handing machine.counted)
          (fun handed moment => handing machine.counted = .ok handed moment) fun _ => True := by
        cases handing machine.counted with
        | ok handed moment => rfl
        | error error moment => trivial
      rw [Exec.step_eq_of_handsOver hhands, Exec.step_eq_of_handsOver hother]
      refine Exec.bind_eq_of_ends hends fun handed moment hmoment => ?_
      cases handed with
      | inl cell => rfl
      | inr call => exact absurd ⟨handing, hhands, hmoment⟩ (h call moment)
  have hcount : Exec.count 1 machine = .ok () machine.counted := rfl
  rw [Exec.execute, Exec.execute, Exec.bind_of_eq_ok hcount, Exec.bind_of_eq_ok hcount, Exec.during,
    Exec.during, hstep]

/-- What calls are given, in any run.

An instruction that makes a call runs the routine of the callable on the arguments of the call, and
one that makes none has nothing to do with the routines of the host.  By the time of the call just
the instruction has been counted, and the nodes of the callable if the instruction names it.  Every
argument is within the limits for what was created by then, and so all arguments together have at
most so many times the nodes that one value may have. -/
theorem arguments_within (options : Options) (program : List Instruction)
    (instruction : Instruction) :
    let env := options.environment
    let machine := options.machine.after env program
    (∀ call moment, machine.Calls env instruction call moment →
      Exec.execute env instruction machine =
          Exec.during instruction.name (Exec.answer env.host (.inr call) >>= fun cell =>
            Exec.push cell >>= fun _ => pure .running) moment ∧
        moment.created = machine.created + 1 + env.visitsCallee instruction.operation ∧
        (∀ arg ∈ call.args, arg.nodes ≤ minNodes + nodeFactor * moment.created) ∧
        (∀ kwarg ∈ call.kwargs, kwarg.2.nodes ≤ minNodes + nodeFactor * moment.created) ∧
        call.nodes ≤ call.arity * (minNodes + nodeFactor * moment.created)) ∧
      ((∀ call moment, ¬ machine.Calls env instruction call moment) →
        ∀ host, Exec.execute { env with host } instruction machine =
          Exec.execute env instruction machine) := by
  intro env machine
  refine ⟨fun call moment h => ?_, execute_eq_of_host⟩
  have hexecute := h.execute_eq
  obtain ⟨handing, hhands, hmoment⟩ := h
  have hends := Exec.ends_handsOver hhands machine.counted
  rw [hmoment] at hends
  obtain ⟨hcreated, hwithin⟩ := hends call rfl
  exact ⟨hexecute, hcreated, fun arg harg => (hwithin.args arg harg).2,
    fun kwarg hkwarg => (hwithin.kwargs kwarg hkwarg).2, hwithin.nodes_le⟩

/-- A positional argument and a keyword argument, both of which are lists. -/
theorem arguments_within_of_keyword :
    let callable : Callable := ⟨⟨"m", "f"⟩, .function, .host "f"⟩
    let options : Options :=
      { constants := Constants.empty.insertCallable callable.name callable.kind callable.routine
        host := fun _ _ _ => .ok (.scalar .none) }
    let program : List Instruction := [⟨.global, ⟨"m", "f"⟩⟩, ⟨.emptyList, ()⟩, ⟨.tuple1, ()⟩,
      ⟨.emptyDict, ()⟩, ⟨.unicode, "key"⟩, ⟨.emptyList, ()⟩, ⟨.setItem, ()⟩]
    let env := options.environment
    let machine := options.machine.after env program
    let call : Call := ⟨callable, [.list []], [("key", .list [])]⟩
    let moment : Machine := { machine.counted with stack := [] }
    machine.Calls env ⟨.newObjEx, ()⟩ call moment ∧ moment.created = 9 ∧
      call.nodes ≤ 2 * (minNodes + nodeFactor * 9) := by
  intro callable options program env machine call moment
  let reached : Machine :=
    { stack := [.ref 2, .ref 1, .atom (.callable callable)]
      saved := []
      memo := {}
      slots := #[.list #[], .tuple [.ref 0],
        .dict #[(.atom (.scalar (.str "key")), .ref 3)], .list #[]]
      created := 8
      buffers := none }
  have hreached : machine = reached := by rfl
  have hmoment : moment = { reached.counted with stack := [] } := by rw [← hreached]
  have hcalls : machine.Calls env ⟨.newObjEx, ()⟩ call moment := by
    refine ⟨_, rfl, ?_⟩
    rw [hmoment, hreached]
    cbv
  have hcreated : moment.created = 9 := congrArg Machine.created hmoment
  have hwithin := (arguments_within options program ⟨.newObjEx, ()⟩).1 call moment hcalls
  rw [hcreated] at hwithin
  exact ⟨hcalls, hcreated, hwithin.2.2.2.2⟩

/-- Three arguments go beyond the limit together: forty-two instructions name a tree of half a
million nodes three times. -/
theorem exists_arguments_exceed :
    let callable : Callable := ⟨⟨"m", "f"⟩, .function, .host "none"⟩
    let options : Options :=
      { constants := Constants.empty.insertCallable callable.name callable.kind callable.routine
        host := fun _ _ _ => .ok (.scalar .none) }
    let program : List Instruction := [⟨.global, ⟨"m", "f"⟩⟩, ⟨.emptyTuple, ()⟩] ++
      (doubling 18 ++ [⟨.dup, ()⟩, ⟨.dup, ()⟩, ⟨.tuple3, ()⟩])
    let env := options.environment
    ∃ call moment, (options.machine.after env program).Calls env ⟨.reduce, ()⟩ call moment ∧
      minNodes + nodeFactor * moment.created < call.nodes := by
  intro callable options program env
  let opened : Machine :=
    { stack := [.ref 0, .atom (.callable callable)]
      saved := []
      memo := {}
      slots := #[.tuple []]
      created := 3
      buffers := none }
  have hopened : RunsAbove env 0 options.machine
      [⟨.global, ⟨"m", "f"⟩⟩, ⟨.emptyTuple, ()⟩] opened :=
    .cons rfl (Nat.zero_le _) <| .cons rfl (Nat.zero_le _) (.nil _)
  have hopen : Stands 0 ((#[] : Array Content).push (.tuple [])) (.ref 0) (.tuple []) :=
    .tuple .nil le_rfl
  -- Eighteen doublings, and then three references to what they come to.
  obtain ⟨top, slots, hdoubled, hstands⟩ := exists_runs_doubling env opened rfl hopen 18
  let cells : List Cell := [.ref top, .ref top, .ref top]
  let reached : Machine :=
    { opened with
      stack := [.ref slots.size, .atom (.callable callable)]
      slots := slots.push (.tuple cells)
      created := 42 }
  have htripled : RunsAbove env 0
      { opened with stack := [.ref top, .atom (.callable callable)], slots, created := 3 + 2 * 18 }
      [⟨.dup, ()⟩, ⟨.dup, ()⟩, ⟨.tuple3, ()⟩] reached :=
    .cons (execute_dup rfl) (Nat.zero_le _) <| .cons (execute_dup rfl) (Nat.zero_le _) <|
      .cons (execute_tuple3 rfl) (Nat.zero_le _) (.nil _)
  have hreached : options.machine.after env program = reached :=
    (hopened.append (hdoubled.append htripled)).after_eq
  let moment : Machine := { reached.counted with stack := [] }
  have hcreated : moment.created = 43 := rfl
  let tree : Value := (Value.tuple []).doubled 18
  have hnodes : tree.nodes = 524287 := Nat.succ.inj ((Value.tuple []).nodes_doubled 18)
  -- One of them is within the limit of its own conversion, which the other two do not count in.
  have htree : moment.value (.ref top) = .ok tree := by
    have hgrown : Stands 0 moment.slots (.ref top) tree := hstands.push _
    refine hgrown.value_eq_ok (.refl 0 moment) ?_ ?_
    · rw [Value.depth_doubled]
      decide
    · rw [hnodes, nodeLimit, hcreated]
      decide
  have hvalues : cells.mapM Exec.value moment = .ok [tree, tree, tree] moment :=
    Exec.mapM_value_of_forall₂ (.cons htree (.cons htree (.cons htree .nil)))
  have hcells : reached.counted.content (.ref slots.size) = .tuple cells := by
    simp [content, slot_eq, counted, reached]
  refine ⟨⟨callable, [tree, tree, tree], []⟩, moment, ⟨_, rfl, ?_⟩, ?_⟩
  · rw [hreached, Exec.bind_of_eq_ok (Exec.popArguments_of_stack rfl hcells),
      Exec.bind_of_eq_ok (Exec.pop_of_stack rfl)]
    exact Exec.handOver_of_values hvalues
  · have hall : Call.nodes ⟨callable, [tree, tree, tree], []⟩ = 1572861 := by
      simp only [Call.nodes, Value.nodesAll, Value.nodesKeywords, hnodes]
    rw [hall, hcreated]
    decide

end Machine

end Pickle
