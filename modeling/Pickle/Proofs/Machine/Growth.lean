import Mathlib
import Pickle.Proofs.Machine.Calls
import Pickle.Proofs.Machine.Doubling

/-!
# How large the result of a run can be

The limit for what leaves a machine grows with what the machine created.  Instructions are not all
of this: a value of the host that is taken apart counts with all of its nodes.  With the default
options such values are constants of a single node and the results of calls, and a result is hardly
larger than the limit at the time of the call, since the arguments were within it.

So `Machine.potential`, the limit plus an allowance for open brackets, grows by a constant with each
instruction, unless the instruction takes a value with parts apart; in that case it grows by the
nodes of the value too, and by a fixed factor at most.  `nodes_le_of_run` adds this up along a run,
and `exists_nodes_gt_of_run` shows that the copies cannot be left out of account.
-/

namespace Pickle

/-! ## What routines make -/

/-- Whether a host has no routines of its own. -/
def Host.IsBare (host : Host) : Prop :=
  ∀ routine args kwargs value, host routine args kwargs ≠ .ok value

namespace Builtin

variable {routine : Builtin} {args : List Value}

theorem nodesAll_keys_le {items : List Value} {set : List Key} (h : keys items = .ok set) :
    Key.nodesAll set ≤ Value.nodesAll items := by
  unfold keys at h
  split at h
  · next keys hkeys =>
    cases h
    rw [← Value.toValues_of_toKeys? items hkeys, Value.nodesAll_toValues]
    exact Key.nodesAll_setOf_le keys
  · cases h

/-- A set has no members, or those of the only argument. -/
theorem nodesAll_members {name : String} {set : List Key} (h : members name args = .ok set) :
    Key.nodesAll set = 0 ∨ ∃ arg, args = [arg] ∧ Key.nodesAll set + 1 ≤ arg.nodes := by
  unfold members at h
  split at h
  · cases h
    exact .inl rfl
  · exact .inr ⟨_, rfl, Nat.succ_le_succ (nodesAll_keys_le h)⟩
  · exact .inr ⟨_, rfl, Nat.succ_le_succ (nodesAll_keys_le h)⟩
  · cases h
    exact .inr ⟨_, rfl, le_rfl⟩
  · cases h
    exact .inr ⟨_, rfl, le_rfl⟩
  · cases h
  · cases h

/-- What a routine makes is a single node, or a set that is no larger than the only argument. -/
theorem nodes_make {value : Value} (h : routine.make args = .ok value) :
    value.nodes = 1 ∨ ∃ arg, args = [arg] ∧ value.nodes ≤ arg.nodes := by
  cases routine with
  | set | frozenSet =>
    obtain ⟨set, hset, hvalue⟩ := exists_of_bind_eq_ok h
    cases hvalue
    rcases nodesAll_members hset with hzero | harg
    · exact .inl (congrArg (· + 1) hzero)
    · exact .inr harg
  | bytes | byteArray =>
    obtain ⟨_, _, hvalue⟩ := exists_of_bind_eq_ok h
    cases hvalue
    exact .inl rfl
  | encode =>
    simp only [make] at h
    split at h
    · cases h
      exact .inl rfl
    · obtain ⟨_, _, hvalue⟩ := exists_of_bind_eq_ok h
      cases hvalue
      exact .inl rfl
    · cases h
  | reconstructor => cases h

end Builtin

namespace Host.IsBare

variable {host : Host} {args : List Value} {value : Value}

theorem nodes_callPlain_le (hhost : host.IsBare) {callee : Value}
    (h : callPlain host callee args = .ok value) : value.nodes ≤ Value.nodesAll args + 1 := by
  unfold callPlain at h
  split at h
  · cases h
    exact (Value.nodes_fresh ..).le
  · rcases Builtin.nodes_make h with hone | ⟨arg, rfl, hle⟩
    · omega
    · rw [Value.nodesAll, Value.nodesAll]
      omega
  · exact absurd h (hhost _ _ _ _)
  · cases h

/-- An instance has the items of its state at most, or the state itself, and is one node more. -/
theorem nodes_reconstruct_le (hhost : host.IsBare) {className state : Value}
    (h : reconstruct host className state = .ok value) : value.nodes ≤ state.nodes + 1 := by
  fun_induction reconstruct host className state with
  | case1 className inner base state hmaker ih =>
    have := ih h
    simp only [Value.nodes, Value.nodesAll]
    omega
  | case3 className inner base state hmaker ih =>
    have := ih h
    simp only [Value.nodes, Value.nodesAll]
    omega
  | case2 | case4 | case5 | case6 => exact (hhost.nodes_callPlain_le h).trans (Nat.le_succ _)
  | case7 => exact (hhost.nodes_callPlain_le h).trans (by simp [Value.nodesAll])
  | case8 => exact (hhost.nodes_callPlain_le h).trans (by simp [Value.nodesAll])

/-- The result of a call is one node larger than the largest argument at most. -/
theorem nodes_run_le (hhost : host.IsBare) {callable : Callable} {kwargs : List (String × Value)}
    (h : callable.run host args kwargs = .ok value) {bound : ℕ}
    (hargs : ∀ arg ∈ args, arg.nodes ≤ bound) : value.nodes ≤ bound + 1 := by
  unfold Callable.run at h
  split at h
  · exact absurd h (hhost _ _ _ _)
  · cases h
  · split at h
    · exact (hhost.nodes_reconstruct_le h).trans (Nat.succ_le_succ (hargs _ (by simp)))
    · cases h
  · rcases Builtin.nodes_make h with hone | ⟨arg, rfl, hle⟩
    · omega
    · exact hle.trans ((hargs arg (by simp)).trans (Nat.le_succ _))

end Host.IsBare

/-! ## What instructions take apart -/

/-- Whether nothing larger than a single node comes from the host, unless a builtin routine makes
it. -/
structure Environment.IsBare (env : Environment) : Prop where
  constants : ∀ name, (env.constants.resolve name).nodes = 1
  extensions : env.extensions = []
  loader : env.loader = none
  host : env.host.IsBare

namespace Value

/-- The values that have parts. -/
def compounds (values : List Value) : List Value := values.filter (1 < ·.nodes)

/-- Whether there are no more than `count` values, one of them with parts at most, and none with
more than `bound` nodes. -/
structure AreFew (count bound : ℕ) (values : List Value) : Prop where
  length : values.length ≤ count
  compounds : (compounds values).length ≤ 1
  nodes : ∀ value ∈ values, value.nodes ≤ bound

theorem visited_le_nodes (value : Value) : value.visited ≤ value.nodes :=
  (List.takeWhile_prefix _).length_le.trans (marks 0 value).length.le

/-- Each value is visited once, unless it has parts. -/
theorem visitedAll_le (values : List Value) :
    visitedAll values + (compounds values).length ≤
      values.length + nodesAll (compounds values) := by
  induction values with
  | nil => exact le_rfl
  | cons value rest ih =>
    have hvisited := value.visited_le_nodes
    have hall : visitedAll (value :: rest) = value.visited + visitedAll rest := by
      simp [visitedAll]
    by_cases hparts : 1 < value.nodes
    · have hcompounds : compounds (value :: rest) = value :: compounds rest := by
        simp [compounds, hparts]
      rw [hall, hcompounds, List.length_cons, List.length_cons, nodesAll]
      omega
    · have hcompounds : compounds (value :: rest) = compounds rest := by
        simp [compounds, hparts]
      rw [hall, hcompounds, List.length_cons]
      omega

namespace AreFew

variable {count bound : ℕ} {value : Value} {values : List Value}

theorem nil : AreFew count bound [] := ⟨Nat.zero_le _, Nat.zero_le _, by simp⟩

theorem single (h : value.nodes ≤ bound) : AreFew 1 bound [value] :=
  ⟨le_rfl, List.length_filter_le .., by simpa using h⟩

/-- A value without parts does not count as one with parts. -/
theorem cons (h : AreFew count bound values) (hone : value.nodes = 1) (hbound : 1 ≤ bound) :
    AreFew (count + 1) bound (value :: values) := by
  refine ⟨Nat.succ_le_succ h.length, ?_, ?_⟩
  · have hcompounds : Value.compounds (value :: values) = Value.compounds values := by
      simp [Value.compounds, hone]
    exact hcompounds ▸ h.compounds
  · simpa [hone, hbound] using h.nodes

end AreFew

end Value

/-- How many values an operation takes apart at most. -/
def Operation.importBound : Operation → ℕ
  | .constant _ | .stackConstant | .apply | .applyKeywords | .applyBracket | .persistent _ |
    .stackPersistent | .extension _ => 1
  | .applyConstant _ => 2
  | _ => 0

namespace Exec

open Machine (Accounts)
open Value (AreFew)

variable {α : Type} {env : Environment} {machine : Machine} {count bound : ℕ}

theorem follow_of_ends {action : Exec α} {next : α → Machine → List Value}
    {done : α → Machine → Prop} (h : Ends (action machine) done fun _ => True)
    (hnext : ∀ value after, done value after → AreFew count bound (next value after)) :
    AreFew count bound (follow action next machine) := by
  unfold follow
  cases hresult : action machine with
  | ok value after =>
    rw [hresult] at h
    exact hnext value after h
  | error error after => exact .nil

/-- What counts nothing leaves the limit for what follows as it is. -/
theorem follow_of_keeps {action : Exec α} {next : α → Machine → List Value}
    (h : Keeps (Accounts 0) 0 action)
    (hnext : ∀ value after, after.nodeLimit = machine.nodeLimit →
      AreFew count bound (next value after)) :
    AreFew count bound (follow action next machine) := by
  have hends : Ends (action machine) (fun _ after => after.nodeLimit = machine.nodeLimit)
      fun _ => True := by
    refine (h machine).imp (fun _ after hafter => ?_) fun _ _ => trivial
    rw [Machine.nodeLimit, Machine.nodeLimit, hafter.created, Nat.add_zero]
  exact follow_of_ends hends hnext

/-- A routine is given values within the limit, and makes a value that is one node larger at
most. -/
theorem areFew_callImports (henv : env.IsBare) (callee : Cell) (args : List Cell)
    (kwargs : List (String × Cell)) (machine : Machine) (hbound : machine.nodeLimit + 1 ≤ bound) :
    AreFew 1 bound (callImports env callee args kwargs machine) := by
  refine follow_of_keeps (.content callee) fun content middle hmiddle => ?_
  split
  · next callable =>
    refine follow_of_ends (ends_mapM (ends_value · middle) args) ?_
    rintro args _ ⟨rfl, hargs⟩
    have hkeyword : ∀ pair : String × Cell,
        Keeps (Accounts 0) 0 (do return (pair.1, ← Exec.value pair.2)) :=
      fun pair => (Keeps.value pair.2).bind_free fun _ => .pure _
    refine follow_of_keeps (.mapM hkeyword kwargs) fun kwargs after _ => ?_
    cases hresult : callable.run env.host args (keywordsOf kwargs) with
    | error error => exact .nil
    | ok result =>
      have hargs' : ∀ arg ∈ args, arg.nodes ≤ machine.nodeLimit :=
        fun arg harg => hmiddle ▸ (hargs arg harg).2
      exact .single ((henv.host.nodes_run_le hresult hargs').trans hbound)
  · exact .nil

theorem areFew_persistentImports (henv : env.IsBare) (id : Value) (machine : Machine) :
    AreFew count bound (persistentImports env id machine) := by
  rw [persistentImports, henv.loader]
  exact .nil

/-- What an operation takes apart: one value with parts at most, the result of a call. -/
theorem areFew_imports (henv : env.IsBare) (operation : Operation) (machine : Machine) :
    AreFew operation.importBound (machine.nodeLimit + nodeFactor + 1)
      (imports env operation machine) := by
  have hconstant : ∀ name, AreFew 1 (machine.nodeLimit + nodeFactor + 1)
      [env.constants.resolve name] := by
    intro name
    refine .single ?_
    rw [henv.constants name]
    exact Nat.le_add_left ..
  have hcall : ∀ callee args kwargs after, after.nodeLimit = machine.nodeLimit →
      AreFew 1 (machine.nodeLimit + nodeFactor + 1) (callImports env callee args kwargs after) := by
    intro callee args kwargs after hafter
    exact areFew_callImports henv callee args kwargs after (by omega)
  cases operation with
  | constant name => exact hconstant name
  | stackConstant =>
    refine follow_of_keeps .popText fun name _ _ => ?_
    exact follow_of_keeps .popText fun namespace_ _ _ => hconstant ⟨namespace_, name⟩
  | apply =>
    refine follow_of_keeps .popArguments fun args middle hmiddle => ?_
    exact follow_of_keeps .pop fun callee after hafter =>
      hcall callee args [] after (hafter.trans hmiddle)
  | applyKeywords =>
    refine follow_of_keeps .popKeywords fun kwargs first hfirst => ?_
    refine follow_of_keeps .popArguments fun args second hsecond => ?_
    exact follow_of_keeps .pop fun callee third hthird =>
      hcall callee args kwargs third (hthird.trans (hsecond.trans hfirst))
  | applyConstant name =>
    refine follow_of_keeps keepsAccounts_popMark fun args middle hmiddle => ?_
    refine AreFew.cons ?_ (henv.constants name) (Nat.le_add_left ..)
    -- Importing the callee raises the limit that the arguments are then converted under.
    have hembed : Ends (constant env name middle)
        (fun _ after => after.nodeLimit ≤ machine.nodeLimit + nodeFactor) fun _ => True := by
      refine (created_embed (env.constants.resolve name) middle).imp (fun _ after hafter => ?_)
        fun _ _ => trivial
      have hvisited := (env.constants.resolve name).visited_le_nodes
      rw [henv.constants name] at hvisited
      rw [← hmiddle, Machine.nodeLimit, Machine.nodeLimit, hafter, nodeFactor]
      omega
    exact follow_of_ends hembed fun callee after hafter =>
      areFew_callImports henv callee args [] after (Nat.succ_le_succ hafter)
  | applyBracket =>
    refine follow_of_keeps keepsAccounts_popMark fun cells after hafter => ?_
    split
    · exact hcall _ _ [] after hafter
    · exact .nil
  | persistent id => exact areFew_persistentImports henv _ machine
  | stackPersistent =>
    refine follow_of_keeps .pop fun cell _ _ => ?_
    exact follow_of_keeps (.value cell) fun id after _ => areFew_persistentImports henv id after
  | extension code =>
    simp only [imports, henv.extensions]
    exact .nil
  | _ => exact .nil

/-- Every value that is taken apart, but for one, takes the place of a stack that was set aside. -/
theorem importBound_add_saved_le {opcode : Opcode} {operation : Operation} {after : Machine}
    {status : Status} (h : step env opcode operation machine = .ok status after) :
    operation.importBound + after.saved.length ≤ machine.saved.length + 1 := by
  by_cases hcloses : operation.Closes
  · have htakes := takes_step env opcode hcloses machine
    rw [h] at htakes
    obtain ⟨below, hsaved⟩ := htakes
    have hbound : operation.importBound ≤ 2 := by
      cases operation <;> simp [Operation.importBound]
    rw [hsaved, List.length_cons]
    omega
  have hshifts := shifts_step env opcode operation machine
  rw [h] at hshifts
  by_cases hmark : operation = .mark ∨ operation = .pop
  · have hbound : operation.importBound = 0 := by
      rcases hmark with rfl | rfl <;> rfl
    cases hshifts with
    | kept hsaved => rw [hsaved, hbound]; omega
    | opened hsaved => rw [hsaved, hbound, List.length_cons]; omega
    | closed below hsaved => rw [hsaved, hbound, List.length_cons]; omega
  · rw [not_or] at hmark
    have hkeeps := keepsSaved_step env opcode hmark.1 hmark.2 hcloses machine
    rw [h] at hkeeps
    have hsaved : after.saved = machine.saved := hkeeps
    have hbound : operation.importBound ≤ 1 := by
      cases operation with
      | applyConstant => exact absurd trivial hcloses
      | _ => simp [Operation.importBound]
    rw [hsaved]
    omega

end Exec

/-! ## The limit along a run -/

namespace Machine

variable (env : Environment)

/-- The limit for what leaves the machine if every open bracket had counted a value more. -/
def potential (machine : Machine) : ℕ :=
  minNodes + nodeFactor * (machine.created + machine.saved.length)

/-- The values with parts that an instruction takes apart. -/
def copies (machine : Machine) (instruction : Instruction) : List Value :=
  Value.compounds (Exec.imports env instruction.operation
    { machine with created := machine.created + 1 })

/-- The values with parts that a run takes apart. -/
def copiesOf : Machine → List Instruction → List Value
  | _, [] => []
  | machine, instruction :: rest =>
    machine.copies env instruction ++
      match Exec.execute env instruction machine with
      | .ok .running after => copiesOf after rest
      | _ => []

variable {env} {machine after : Machine} {instruction : Instruction} {value : Value}

/-- What one instruction does to the potential: it pays for two values, and for all nodes of what it
takes apart. -/
theorem potential_le_of_execute (henv : env.IsBare)
    (h : Exec.execute env instruction machine = .ok .running after) :
    after.potential + nodeFactor * (machine.copies env instruction).length ≤
      machine.potential + 2 * nodeFactor +
        nodeFactor * Value.nodesAll (machine.copies env instruction) := by
  have haccounts := accounts_execute env instruction machine
  rw [Exec.after, h] at haccounts
  have hfew := Exec.areFew_imports henv instruction.operation
    { machine with created := machine.created + 1 }
  have hsaved := Exec.importBound_add_saved_le (Exec.step_of_execute env h)
  have hvisited := Value.visitedAll_le (Exec.imports env instruction.operation
    { machine with created := machine.created + 1 })
  have hcreated := haccounts.created
  have hlength := hfew.length
  simp only [visits, potential, copies, nodeFactor] at *
  omega

/-- Nothing larger than the potential is taken apart. -/
theorem nodes_copies_le (henv : env.IsBare) (hvalue : value ∈ machine.copies env instruction) :
    value.nodes ≤ machine.potential + 2 * nodeFactor + 1 := by
  have hfew := Exec.areFew_imports henv instruction.operation
    { machine with created := machine.created + 1 }
  have hnodes := hfew.nodes value (List.mem_filter.1 hvalue).1
  simp only [nodeLimit, potential, nodeFactor] at *
  omega

/-- One instruction multiplies the potential by a fixed factor at most, and this only if it takes a
value with parts apart. -/
theorem potential_le_mul_of_execute (henv : env.IsBare)
    (h : Exec.execute env instruction machine = .ok .running after) :
    after.potential ≤ (machine.potential + 2 * nodeFactor) *
      (nodeFactor + 1) ^ (machine.copies env instruction).length := by
  have hpotential := potential_le_of_execute henv h
  have hfew := (Exec.areFew_imports henv instruction.operation
    { machine with created := machine.created + 1 }).compounds
  have hnodes : ∀ value ∈ machine.copies env instruction, _ := fun value => nodes_copies_le henv
  change (machine.copies env instruction).length ≤ 1 at hfew
  match hcopies : machine.copies env instruction with
  | [] =>
    rw [hcopies] at hpotential
    simpa [Value.nodesAll] using hpotential
  | [value] =>
    rw [hcopies] at hpotential hnodes
    have := hnodes value (by simp)
    simp only [Value.nodesAll, List.length_singleton, pow_one, nodeFactor] at *
    omega
  | _ :: _ :: rest =>
    rw [hcopies, List.length_cons, List.length_cons] at hfew
    omega

/-- The same for an instruction that others follow. -/
theorem potential_add_le_mul_of_execute (henv : env.IsBare)
    (h : Exec.execute env instruction machine = .ok .running after) (count : ℕ) :
    after.potential + 2 * nodeFactor * count ≤
      (machine.potential + 2 * nodeFactor * (count + 1)) *
        (nodeFactor + 1) ^ (machine.copies env instruction).length := by
  have hpos : 0 < (nodeFactor + 1) ^ (machine.copies env instruction).length :=
    Nat.pow_pos (Nat.succ_pos _)
  calc after.potential + 2 * nodeFactor * count
      ≤ (machine.potential + 2 * nodeFactor) *
            (nodeFactor + 1) ^ (machine.copies env instruction).length +
          2 * nodeFactor * count *
            (nodeFactor + 1) ^ (machine.copies env instruction).length :=
        Nat.add_le_add (potential_le_mul_of_execute henv h) (Nat.le_mul_of_pos_right _ hpos)
    _ = (machine.potential + 2 * nodeFactor * (count + 1)) *
          (nodeFactor + 1) ^ (machine.copies env instruction).length := by ring

theorem nodes_le_of_halted (h : Exec.execute env instruction machine = .ok (.halted value) after) :
    value.nodes ≤ machine.potential + nodeFactor := by
  have hnodes := (Exec.isWithin_of_halted h).2
  simp only [potential, nodeFactor] at *
  omega

/-- The bounds for the result of a run from any machine on. -/
theorem nodes_le_of_run_eq_ok (henv : env.IsBare) {program : List Instruction}
    (h : machine.run env program = .ok value) :
    value.nodes ≤ machine.potential + 2 * nodeFactor * program.length +
        nodeFactor * Value.nodesAll (machine.copiesOf env program) ∧
      value.nodes ≤ (machine.potential + 2 * nodeFactor * program.length) *
        (nodeFactor + 1) ^ (machine.copiesOf env program).length := by
  induction program generalizing machine with
  | nil => cases h
  | cons instruction rest ih =>
    rw [run] at h
    rw [copiesOf, List.length_cons]
    cases hexecute : Exec.execute env instruction machine with
    | error error after =>
      rw [hexecute] at h
      cases h
    | ok status after =>
      rw [hexecute] at h
      cases status with
      | halted result =>
        cases h
        have hnodes := nodes_le_of_halted hexecute
        have hlinear : value.nodes ≤ machine.potential + 2 * nodeFactor * (rest.length + 1) := by
          simp only [nodeFactor] at *
          omega
        exact ⟨hlinear.trans (Nat.le_add_right _ _),
          hlinear.trans (Nat.le_mul_of_pos_right _ (Nat.pow_pos (Nat.succ_pos _)))⟩
      | running =>
        obtain ⟨hsum, hproduct⟩ := ih h
        refine ⟨?_, ?_⟩
        · -- The sum: a step adds the nodes of its copies to the potential.
          have hstep := potential_le_of_execute henv hexecute
          rw [Value.nodesAll_append]
          simp only [nodeFactor] at *
          omega
        · -- The product: a step multiplies the potential once for each of its copies.
          have hstep := potential_add_le_mul_of_execute henv hexecute rest.length
          rw [List.length_append, pow_add, ← Nat.mul_assoc]
          exact hproduct.trans (Nat.mul_le_mul_right _ hstep)

end Machine

/-! ## Default options -/

/-- A name stands for what a table has under it, or for a class. -/
theorem Constants.of_resolve {constants : Constants} (holds : Value → Prop)
    (hentries : ∀ entry ∈ constants.entries, holds entry.2) (name : QualifiedName)
    (hclass : holds (.atom (.class_ name))) : holds (constants.resolve name) := by
  unfold resolve get?
  cases hlookup : constants.entries.lookup name with
  | none => exact hclass
  | some value =>
    obtain ⟨before, after, heq, -⟩ := List.lookup_eq_some_iff.1 hlookup
    exact hentries (name, value) (heq ▸ by simp)

/-- The default constants are classes and routines. -/
theorem Constants.nodes_resolve_default (name : QualifiedName) :
    ((default.overlay empty).resolve name).nodes = 1 :=
  of_resolve (fun value => value.nodes = 1) (by decide) name rfl

theorem Options.isBare_environment (decodesStrings : Bool) (protocol : Option UInt8)
    (allowsTrailing : Bool) :
    ({ decodesStrings, protocol, allowsTrailing } : Options).environment.IsBare where
  constants := Constants.nodes_resolve_default
  extensions := rfl
  loader := rfl
  host := by rintro routine args kwargs value ⟨⟩

/-- How large the result of a run with default constants can be.  The number of instructions tells
it, together with the values with parts that are taken apart on the way, which are results of calls.
These count with their nodes; or else each of them multiplies the bound by a fixed factor. -/
theorem nodes_le_of_run {decodesStrings allowsTrailing : Bool} {protocol : Option UInt8}
    {program : List Instruction} {value : Value} :
    let options : Options := { decodesStrings, protocol, allowsTrailing }
    let copies := options.machine.copiesOf options.environment program
    run program options = .ok value →
      value.nodes ≤ minNodes + 2 * nodeFactor * program.length +
          nodeFactor * Value.nodesAll copies ∧
        value.nodes ≤ (minNodes + 2 * nodeFactor * program.length) *
          (nodeFactor + 1) ^ copies.length := by
  intro options copies h
  exact Machine.nodes_le_of_run_eq_ok (Options.isBare_environment ..) h

/-- An instance is made of a tuple with a tuple in it, and this is the one copy. -/
theorem nodes_le_of_run_of_reconstructor :
    let program : List Instruction :=
      [⟨.global, ⟨"copy_reg", "_reconstructor"⟩⟩, ⟨.global, ⟨"m", "C"⟩⟩, ⟨.pushNone, ()⟩,
        ⟨.emptyTuple, ()⟩, ⟨.tuple1, ()⟩, ⟨.tuple3, ()⟩, ⟨.reduce, ()⟩, ⟨.stop, ()⟩]
    let options : Options := {}
    let instance_ : Value := .object (.fresh ⟨"m", "C"⟩ [.tuple []] [])
    run program options = .ok instance_ ∧
      options.machine.copiesOf options.environment program = [instance_] ∧
      instance_.nodes ≤ minNodes + 2 * nodeFactor * 8 + nodeFactor * 2 ∧
      instance_.nodes ≤ (minNodes + 2 * nodeFactor * 8) * (nodeFactor + 1) := by
  intro program options instance_
  have hrun : run program options = .ok instance_ := by cbv
  have hcopies : options.machine.copiesOf options.environment program = [instance_] := by
    cbv
  have hnodes := nodes_le_of_run hrun
  rw [hcopies] at hnodes
  exact ⟨hrun, hcopies, hnodes⟩

/-- Fifty instructions describe more than the bound for runs without copies: half a million nodes
are copied, and the copy is quadrupled. -/
theorem exists_nodes_gt_of_run :
    let program : List Instruction :=
      [⟨.mark, ()⟩, ⟨.global, ⟨"m", "D"⟩⟩, ⟨.global, ⟨"copy_reg", "_reconstructor"⟩⟩,
        ⟨.global, ⟨"m", "C"⟩⟩, ⟨.pushNone, ()⟩, ⟨.emptyTuple, ()⟩] ++
      (doubling 18 ++ ([⟨.tuple3, ()⟩, ⟨.reduce, ()⟩] ++ doubling 2)) ++
      [⟨.obj, ()⟩, ⟨.stop, ()⟩]
    ∃ value, run program {} = .ok value ∧
      minNodes + 2 * nodeFactor * program.length < value.nodes := by
  intro program
  let env := ({} : Options).environment
  let opened : Machine :=
    { stack := [.ref 0, .atom (.scalar .none), .atom (.class_ ⟨"m", "C"⟩),
        .atom (.callable ⟨⟨"copy_reg", "_reconstructor"⟩, .function, .builtin .reconstructor⟩),
        .atom (.class_ ⟨"m", "D"⟩)]
      saved := [[]]
      memo := {}
      slots := #[.tuple []]
      created := 9
      buffers := none }
  have hopened : Machine.RunsAbove env 0 ({} : Options).machine
      [⟨.mark, ()⟩, ⟨.global, ⟨"m", "D"⟩⟩, ⟨.global, ⟨"copy_reg", "_reconstructor"⟩⟩,
        ⟨.global, ⟨"m", "C"⟩⟩, ⟨.pushNone, ()⟩, ⟨.emptyTuple, ()⟩] opened :=
    .cons rfl (Nat.zero_le _) <| .cons rfl (Nat.zero_le _) <| .cons rfl (Nat.zero_le _) <|
      .cons rfl (Nat.zero_le _) <| .cons rfl (Nat.zero_le _) <| .cons rfl (Nat.zero_le _) (.nil _)
  have hempty : (Value.tuple []).IsSorted := trivial
  have hopen : Machine.Stands 0 ((#[] : Array Content).push (.tuple [])) (.ref 0) (.tuple []) :=
    .tuple .nil le_rfl
  let state : Value := (Value.tuple []).doubled 18
  let copy : Value :=
    .object (.fresh ⟨"m", "C"⟩ [(Value.tuple []).doubled 17, (Value.tuple []).doubled 17] [])
  have hstate : state.nodes = 524287 := Nat.succ.inj ((Value.tuple []).nodes_doubled 18)
  have hcopy : (copy.doubled 2).nodes = 2097151 := by
    have hsame : copy.nodes = 524287 := (Value.nodes_fresh _ _).trans hstate
    have hdoubled := copy.nodes_doubled 2
    rw [hsame] at hdoubled
    exact Nat.succ.inj hdoubled
  obtain ⟨top, slots, hcopied, htop⟩ := Machine.exists_runs_copy env opened rfl hopen hempty 17 2
    (by decide) (by rw [hstate]; decide)
  refine ⟨.object (.fresh ⟨"m", "D"⟩ [copy.doubled 2] []), ?_, ?_⟩
  · show Machine.run env _ program = _
    rw [(hopened.append hcopied).run_append]
    refine Machine.run_obj_stop rfl rfl htop ?_ ?_
    · rw [copy.depth_doubled 2, Value.depth_fresh]
      exact (by decide : 1 + 17 + 1 + 2 + 1 < maxDepth)
    · rw [hcopy]
      change _ ≤ minNodes + nodeFactor * (9 + 2 * 18 + 2 + state.nodes + 2 * 2 + 2)
      rw [hstate]
      decide
  · rw [Value.nodes_fresh, Value.nodesAll, Value.nodesAll, hcopy]
    decide

end Pickle
