import Mathlib
import Pickle.Proofs.Machine.Accounting
import Pickle.Proofs.Machine.Limits

/-!
# Limits on what leaves the machine

Values leave the machine in three ways: as the result of a stop, as persistent ids that the loader is
given, and as arguments that routines of the host are given.  All of them have been converted, so
they are within the limits for what was created by then.

What a routine is given cannot be seen in the machine, and routines that make instances hand on parts
of their arguments.  But whatever no routine is ever given cannot matter: environments that agree on
values within the limits (`Environment.AgreesWithin`) carry out the instruction alike.  That is what
`execute_eq_of_agrees` says.  `resource_limits` puts this together with the count of what was created.
-/

namespace Pickle

/-! ## Values within the limits -/

namespace Value.IsWithin

variable {created : ℕ}

theorem atom (value : Atom) : (Value.atom value).IsWithin created := by
  refine ⟨Nat.zero_le _, ?_⟩
  rw [nodes]
  exact (by decide : 1 ≤ minNodes).trans (Nat.le_add_right _ _)

theorem of_mem_tuple {items : List Value} {item : Value} (h : (Value.tuple items).IsWithin created)
    (hitem : item ∈ items) : item.IsWithin created := by
  obtain ⟨hdepth, hnodes⟩ := h
  rw [depth] at hdepth
  rw [nodes] at hnodes
  have hitems := depthAll_le_iff.1 le_rfl item hitem
  exact ⟨by omega, ((nodes_le_nodesAll hitem).trans (Nat.le_succ _)).trans hnodes⟩

/-- A list is as deep and as large as a tuple of the same items. -/
theorem of_mem_list {items : List Value} {item : Value} (h : (Value.list items).IsWithin created)
    (hitem : item ∈ items) : item.IsWithin created :=
  of_mem_tuple (show (Value.tuple items).IsWithin created from h) hitem

/-- Keyword arguments that are given twice count once, so all values are among those given. -/
theorem of_mem_keywordsOf {kwargs : List (String × Value)}
    (h : ∀ kwarg ∈ kwargs, kwarg.2.IsWithin created) :
    ∀ kwarg ∈ keywordsOf kwargs, kwarg.2.IsWithin created := by
  intro kwarg hkwarg
  have hvalue : kwarg.2 ∈ kwargs.map Prod.snd :=
    (Ordered.subperm_values_ofPairs compare kwargs).subset (List.mem_map_of_mem hkwarg)
  obtain ⟨given, hgiven, heq⟩ := List.mem_map.1 hvalue
  exact heq ▸ h given hgiven

end Value.IsWithin

/-! ## Environments that agree within the limits -/

/-- Whether two hosts agree on all arguments within the limits. -/
def Host.AgreesWithin (created : ℕ) (host other : Host) : Prop :=
  ∀ routine args kwargs, (∀ arg ∈ args, arg.IsWithin created) →
    (∀ kwarg ∈ kwargs, kwarg.2.IsWithin created) → other routine args kwargs = host routine args kwargs

/-- Whether two environments differ at most in what loaders and routines make of values that are not
within the limits. -/
structure Environment.AgreesWithin (created : ℕ) (env other : Environment) : Prop where
  constants : other.constants = env.constants
  extensions : other.extensions = env.extensions
  decodesStrings : other.decodesStrings = env.decodesStrings
  loader : Option.Rel (fun load load' => ∀ id : Value, id.IsWithin created → load' id = load id)
    env.loader other.loader
  host : env.host.AgreesWithin created other.host

/-- The environment with a loader and routines that refuse whatever is not within the limits. -/
def Environment.guarded (created : ℕ) (env : Environment) : Environment :=
  { env with
    loader := env.loader.map fun load id =>
      if id.IsWithin created then load id else invalidArguments (.custom "too large")
    host := fun routine args kwargs =>
      if (∀ arg ∈ args, arg.IsWithin created) ∧ ∀ kwarg ∈ kwargs, kwarg.2.IsWithin created then
        env.host routine args kwargs
      else invalidArguments (.custom "too large") }

theorem Environment.agreesWithin_guarded (created : ℕ) (env : Environment) :
    env.AgreesWithin created (env.guarded created) where
  constants := rfl
  extensions := rfl
  decodesStrings := rfl
  loader := by
    rw [guarded]
    cases env.loader with
    | none => exact .none
    | some load => exact .some fun id hid => if_pos hid
  host := fun _ _ _ hargs hkwargs => if_pos ⟨hargs, hkwargs⟩

namespace Host.AgreesWithin

variable {created : ℕ} {host other : Host} {args : List Value}

theorem callPlain_eq (h : host.AgreesWithin created other) (callee : Value)
    (hargs : ∀ arg ∈ args, arg.IsWithin created) :
    callPlain other callee args = callPlain host callee args := by
  unfold callPlain
  split
  · rfl
  · rfl
  · exact h _ args [] hargs (by simp)
  · rfl

/-- What the maker of instances hands on is part of its own arguments. -/
theorem reconstruct_eq (h : host.AgreesWithin created other) (className state : Value)
    (hclass : className.IsWithin created) (hstate : state.IsWithin created) :
    reconstruct other className state = reconstruct host className state := by
  fun_induction reconstruct host className state with
  | case1 className inner base state hmaker ih =>
    rw [reconstruct, if_pos hmaker]
    exact ih (hstate.of_mem_tuple (by simp)) (hstate.of_mem_tuple (by simp))
  | case2 className inner base state hmaker =>
    rw [reconstruct, if_neg hmaker]
    exact h.callPlain_eq _ fun arg harg => hstate.of_mem_tuple harg
  | case3 className inner base state hmaker ih =>
    rw [reconstruct, if_pos hmaker]
    exact ih (hstate.of_mem_list (by simp)) (hstate.of_mem_list (by simp))
  | case4 className inner base state hmaker =>
    rw [reconstruct, if_neg hmaker]
    exact h.callPlain_eq _ fun arg harg => hstate.of_mem_list harg
  | case5 className args hargs =>
    rw [reconstruct]
    · exact h.callPlain_eq _ fun arg harg => hstate.of_mem_tuple harg
    · exact hargs
  | case6 className args hargs =>
    rw [reconstruct]
    · exact h.callPlain_eq _ fun arg harg => hstate.of_mem_list harg
    · exact hargs
  | case7 className =>
    rw [reconstruct]
    exact h.callPlain_eq _ (by simp)
  | case8 className state =>
    rw [reconstruct]
    · exact h.callPlain_eq _ (by simpa using hstate)
    all_goals assumption

theorem run_eq (h : host.AgreesWithin created other) (callable : Callable)
    {kwargs : List (String × Value)} (hargs : ∀ arg ∈ args, arg.IsWithin created)
    (hkwargs : ∀ kwarg ∈ kwargs, kwarg.2.IsWithin created) :
    callable.run other args kwargs = callable.run host args kwargs := by
  unfold Callable.run
  split
  · exact h _ args _ hargs hkwargs
  · rfl
  · split
    · exact h.reconstruct_eq _ _ (hargs _ (by simp)) (hargs _ (by simp))
    · rfl
  · rfl

end Host.AgreesWithin

/-! ## Actions that are alike -/

namespace Exec

open Machine (Accounts)

variable {α β γ : Type} {created : ℕ}

/-- Whether two actions do the same on machines that have created so much. -/
def SameAt (created : ℕ) (action action' : Exec α) : Prop :=
  ∀ machine : Machine, machine.created = created → action' machine = action machine

/-- Actions that go on alike, wherever the first can lead, are alike. -/
theorem bind_eq_of_ends {action : Exec α} {next next' : α → Exec β} {machine : Machine}
    {done : α → Machine → Prop} {failed : Machine → Prop} (h : Ends (action machine) done failed)
    (hnext : ∀ value after, done value after → next' value after = next value after) :
    (action >>= next') machine = (action >>= next) machine := by
  show EStateM.bind action next' machine = EStateM.bind action next machine
  unfold EStateM.bind
  cases hresult : action machine with
  | ok value after =>
    rw [hresult] at h
    exact hnext value after h
  | error error after => rfl

namespace SameAt

theorem refl (action : Exec α) : SameAt created action action := fun _ _ => rfl

theorem bind_free {action : Exec α} {next next' : α → Exec β} (h : Keeps (Accounts 0) 0 action)
    (hnext : ∀ value, SameAt created (next value) (next' value)) :
    SameAt created (action >>= next) (action >>= next') :=
  fun machine hmachine => bind_eq_of_ends (h machine) fun value after hafter =>
    hnext value after (hafter.created.trans hmachine)

theorem bind {action action' : Exec α} (h : SameAt created action action') (next : α → Exec β) :
    SameAt created (action >>= next) (action' >>= next) := by
  intro machine hmachine
  show EStateM.bind action' next machine = EStateM.bind action next machine
  unfold EStateM.bind
  rw [h machine hmachine]

theorem during {action action' : Exec α} (h : SameAt created action action') (operation : String) :
    SameAt created (Exec.during operation action) (Exec.during operation action') := by
  intro machine hmachine
  unfold Exec.during
  rw [h machine hmachine]

end SameAt

/-- Conversions leave the machine as it is, and give values within its limits. -/
theorem ends_value (cell : Cell) (machine : Machine) :
    Ends (value cell machine) (fun value after => after = machine ∧ value.IsWithin machine.created)
      fun _ => True := by
  unfold value
  cases hvalue : machine.value cell with
  | ok value => exact ⟨rfl, Machine.isWithin_of_value hvalue⟩
  | error failure => trivial

/-- What leaves the machine as it is for each item leaves it as it is for all of them. -/
theorem ends_mapM {action : γ → Exec α} {good : α → Prop} {machine : Machine}
    (h : ∀ item, Ends (action item machine) (fun value after => after = machine ∧ good value)
      fun _ => True) (items : List γ) :
    Ends (items.mapM action machine)
      (fun values after => after = machine ∧ ∀ value ∈ values, good value) fun _ => True := by
  induction items with
  | nil => exact ⟨rfl, by simp⟩
  | cons item rest ih =>
    rw [List.mapM_cons]
    refine Ends.bind ((h item).imp ?_ fun _ h => h)
    rintro value _ ⟨rfl, hvalue⟩
    refine Ends.bind (ih.imp ?_ fun _ h => h)
    rintro values _ ⟨rfl, hvalues⟩
    exact ⟨rfl, by simpa using ⟨hvalue, hvalues⟩⟩

variable {env other : Environment}

theorem sameAt_callCell (h : env.AgreesWithin created other) (opcode : Opcode) (callee : Cell)
    (args : List Cell) (kwargs : List (String × Cell)) :
    SameAt created (callCell env opcode callee args kwargs)
      (callCell other opcode callee args kwargs) := by
  refine .bind_free (.content callee) fun content => ?_
  split
  · exact .refl _
  · next callable =>
    rintro machine rfl
    refine bind_eq_of_ends (ends_mapM (ends_value · machine) args) ?_
    rintro args machine ⟨rfl, hargs⟩
    have hkeyword : ∀ pair : String × Cell,
        Ends ((do return (pair.1, ← value pair.2) : Exec (String × Value)) machine)
          (fun kwarg after => after = machine ∧ kwarg.2.IsWithin machine.created)
          fun _ => True := by
      refine fun pair => Ends.bind ((ends_value pair.2 machine).imp ?_ fun _ h => h)
      rintro value _ ⟨rfl, hvalue⟩
      exact ⟨rfl, hvalue⟩
    refine bind_eq_of_ends (ends_mapM hkeyword kwargs) ?_
    rintro kwargs _ ⟨rfl, hkwargs⟩
    rw [h.host.run_eq callable hargs (Value.IsWithin.of_mem_keywordsOf hkwargs)]
  · exact .refl _

theorem sameAt_persistent (h : env.AgreesWithin created other) {id : Value}
    (hid : id.IsWithin created) :
    SameAt created (persistent env id) (persistent other id) := by
  have hloader := h.loader
  unfold persistent
  generalize env.loader = load, other.loader = load' at hloader
  cases hloader with
  | none => exact .refl _
  | some hload =>
    simp only [hload id hid]
    exact .refl _

end Exec

/-! ## One law for each operation -/

/-- The nodes of the constant that an operation calls, which are visited before the arguments are
converted. -/
def Environment.visitsCallee (env : Environment) : Operation → ℕ
  | .applyConstant name => (env.constants.resolve name).visited
  | _ => 0

namespace Exec

open Machine (Accounts)

variable {env other : Environment} {created : ℕ}

theorem constant_eq (h : other.constants = env.constants) (name : QualifiedName) :
    constant other name = constant env name := by
  rw [constant, constant, h]

/-- Operations are alike in environments that agree within the limits for what was created when the
operation calls something. -/
theorem sameAt_step (opcode : Opcode) (operation : Operation)
    (h : env.AgreesWithin (created + env.visitsCallee operation) other) :
    SameAt created (step env opcode operation) (step other opcode operation) := by
  cases operation with
  | pushString value =>
    simp only [step, h.decodesStrings]
    exact .refl _
  | constant | stackConstant =>
    simp only [step, constant_eq h.constants]
    exact .refl _
  | apply =>
    refine .bind_free .popArguments fun args => .bind_free .pop fun callee => ?_
    exact (sameAt_callCell h opcode callee args []).bind _
  | applyKeywords =>
    refine .bind_free .popKeywords fun kwargs => .bind_free .popArguments fun args => ?_
    refine .bind_free .pop fun callee => ?_
    exact (sameAt_callCell h opcode callee args kwargs).bind _
  | applyConstant name =>
    refine .bind_free keepsAccounts_popMark fun args => ?_
    rintro machine rfl
    rw [constant_eq h.constants]
    -- Importing the callee creates values before the call, which `visitsCallee` has counted.
    refine bind_eq_of_ends (created_embed (env.constants.resolve name) machine) ?_
    rintro callee middle hcreated
    exact (sameAt_callCell h opcode callee args []).bind _ middle hcreated
  | applyBracket =>
    refine .bind_free keepsAccounts_popMark fun cells => ?_
    cases cells with
    | cons callee args => exact (sameAt_callCell h opcode callee args []).bind _
    | nil => exact .refl _
  | persistent id => exact (sameAt_persistent h (.atom _)).bind _
  | stackPersistent =>
    refine .bind_free .pop fun cell => ?_
    rintro machine rfl
    -- The loader is asked about an id that is itself within the limits.
    refine bind_eq_of_ends (ends_value cell machine) ?_
    rintro id machine ⟨rfl, hid⟩
    exact (sameAt_persistent h hid).bind _ machine rfl
  | extension code =>
    simp only [step, h.extensions]
    exact .refl _
  | pushEmpty container => cases container <;> exact .refl _
  | collect container => cases container <;> exact .refl _
  | memoize index => cases index <;> exact .refl _
  | _ => exact .refl _

/-- An instruction is carried out alike in environments that agree on values within the limits. -/
theorem execute_eq_of_agrees {machine : Machine} {instruction : Instruction}
    (h : env.AgreesWithin (machine.created + 1 + env.visitsCallee instruction.operation) other) :
    execute other instruction machine = execute env instruction machine :=
  ((sameAt_step instruction.opcode instruction.operation h).during instruction.name)
    { machine with created := machine.created + 1 } rfl

/-! ## Stops -/

/-- Whether an action lets the machine go on if it succeeds. -/
def GoesOn (action : Exec Status) : Prop :=
  ∀ machine, Ends (action machine) (fun status _ => status = .running) fun _ => True

namespace GoesOn

variable {α : Type}

theorem running : GoesOn (pure .running) := fun _ => rfl

theorem bind {action : Exec α} {next : α → Exec Status} (h : ∀ value, GoesOn (next value)) :
    GoesOn (action >>= next) := by
  refine fun machine => Ends.bind ?_
  cases action machine with
  | ok value middle => exact h value middle
  | error error middle => trivial

theorem then_running {action : Exec α} : GoesOn (action >>= fun _ => pure .running) :=
  bind fun _ => running

end GoesOn

/-- Only a stop halts the machine. -/
theorem goesOn_step (env : Environment) (opcode : Opcode) {operation : Operation}
    (h : operation ≠ .stop) : GoesOn (step env opcode operation) := by
  cases operation with
  | stop => exact absurd rfl h
  | skip => exact .running
  | mark | popMark | fetch | push => exact .then_running
  | dup | tupleOf | constant | persistent => exact .bind fun _ => .then_running
  | pushEmpty container => cases container <;> exact .then_running
  | collect container => cases container <;> exact .bind fun _ => .then_running
  | memoize index =>
    cases index with
    | some index => exact .then_running
    | none => exact .bind fun _ => .then_running
  | stackConstant | apply | applyConstant | stackPersistent =>
    exact .bind fun _ => .bind fun _ => .bind fun _ => .then_running
  | applyKeywords =>
    exact .bind fun _ => .bind fun _ => .bind fun _ => .bind fun _ => .then_running
  | pop =>
    refine .bind fun machine => ?_
    split <;> exact .then_running
  | pushString value =>
    simp only [step]
    split
    · split <;> exact .then_running
    · exact .then_running
  | append =>
    refine .bind fun cell => .bind fun kind => ?_
    split
    · exact .then_running
    · exact .bind fun _ => .then_running
  | appends | addItems =>
    refine .bind fun cells => .bind fun kind => ?_
    split <;> exact .then_running
  | setItem =>
    refine .bind fun value => .bind fun key => .bind fun kind => ?_
    split
    · exact .then_running
    · exact .then_running
    · exact .bind fun _ => .then_running
  | setItems =>
    refine .bind fun cells => .bind fun kind => ?_
    split <;> exact .then_running
  | applyBracket =>
    refine .bind fun cells => ?_
    split
    · exact .bind fun _ => .then_running
    · exact .then_running
  | build =>
    refine .bind fun state => .bind fun machine => .bind fun kind => ?_
    split
    · exact .then_running
    · exact .then_running
    · exact .then_running
    · exact .bind fun _ => .then_running
  | extension code =>
    simp only [step]
    split
    · exact .bind fun _ => .then_running
    · exact .then_running
  | nextBuffer =>
    refine .bind fun machine => ?_
    split
    · exact .then_running
    · exact .then_running
    · exact .bind fun _ => .then_running
  | makeReadonly =>
    refine .bind fun kind => ?_
    split
    · exact .then_running
    · exact .running
    · exact .then_running

theorem ends_stop (env : Environment) (opcode : Opcode) (machine : Machine) :
    Ends (step env opcode .stop machine)
      (fun status _ => ∃ value, status = .halted value ∧ value.IsWithin machine.created)
      fun _ => True := by
  have hpop : Keeps (Accounts 0) 0 pop := .pop
  refine Ends.bind ((hpop machine).imp (fun cell middle hmiddle => ?_) fun _ _ => trivial)
  refine Ends.bind ((ends_value cell middle).imp ?_ fun _ _ => trivial)
  rintro value middle ⟨rfl, hvalue⟩
  rw [hmiddle.created] at hvalue
  exact ⟨value, rfl, hvalue⟩

section Halting

variable {env : Environment} {instruction : Instruction} {machine after : Machine} {status : Status}

theorem running_of_execute (hstop : instruction.operation ≠ .stop)
    (h : execute env instruction machine = .ok status after) : status = .running := by
  have hends := goesOn_step env instruction.opcode hstop
    { machine with created := machine.created + 1 }
  rw [step_of_execute env h] at hends
  exact hends

/-- The result of a stop is within the limits, which allow for the stop itself. -/
theorem halted_of_execute (hstop : instruction.operation = .stop)
    (h : execute env instruction machine = .ok status after) :
    ∃ value, status = .halted value ∧ value.IsWithin (machine.created + 1) := by
  have hends := ends_stop env instruction.opcode { machine with created := machine.created + 1 }
  rw [← hstop, step_of_execute env h] at hends
  exact hends

theorem isWithin_of_halted {value : Value}
    (h : execute env instruction machine = .ok (.halted value) after) :
    value.IsWithin (machine.created + 1) := by
  by_cases hstop : instruction.operation = .stop
  · obtain ⟨_, ⟨⟩, hwithin⟩ := halted_of_execute hstop h
    exact hwithin
  · cases running_of_execute hstop h

end Halting

end Exec

namespace Machine

/-- Limits hold for everything that leaves the machine, in any run, and for the number of slots.

What was created is told from outside: every instruction counts, whatever comes of it, and so does
every node of a value of the host that was visited when the value was taken apart; for a value that
is not too deep these are all of its nodes.  Whatever can be converted is within the limits for this
count, and so is the result of a stop; and it does not matter to an instruction what the loader and
the routines of the host make of values that are not within the limits. -/
theorem resource_limits (options : Options) (program : List Instruction) :
    let env := options.environment
    let machine := options.machine.after env program
    let created := program.length + options.machine.visitsOf env program
    (machine.created = created ∧ machine.slots.size ≤ created) ∧
      (∀ value : Value, value.depth < maxDepth → value.visited = value.nodes) ∧
      (∀ cell value, machine.value cell = .ok value → value.IsWithin created) ∧
      (∀ instruction value after, Exec.execute env instruction machine = .ok (.halted value) after →
        value.IsWithin (created + 1)) ∧
      ∀ instruction other,
        env.AgreesWithin (created + 1 + env.visitsCallee instruction.operation) other →
          Exec.execute other instruction machine = Exec.execute env instruction machine := by
  intro env machine created
  have haccounts := accounts_after env options.machine program
  have hcreated : machine.created = created := haccounts.created.trans (Nat.zero_add _)
  refine ⟨⟨hcreated, ?_⟩, fun value => Value.visited_of_depth_lt, ?_, ?_, ?_⟩
  · exact haccounts.slots.trans (Nat.zero_add _).le
  · exact fun cell value hvalue => hcreated ▸ isWithin_of_value hvalue
  · exact fun instruction value after hexecute =>
      hcreated ▸ Exec.isWithin_of_halted hexecute
  · intro instruction other hother
    exact Exec.execute_eq_of_agrees (hcreated ▸ hother)

/-- A routine is given a tuple, which is converted for it, and makes a list of it.  If it refuses what
is too large, it makes the same list, and so do its limits hold for what the machine stops with. -/
theorem resource_limits_of_call :
    let callable : Callable := ⟨⟨"host", "listed"⟩, .function, .host "listed"⟩
    let options : Options :=
      { extensions := [(5, .atom (.callable callable))], host := fun _ args _ => .ok (.list args) }
    let env := options.environment
    let program : List Instruction :=
      [⟨.ext1, (5 : UInt8)⟩, ⟨.binInt1, (7 : UInt8)⟩, ⟨.tuple1, ()⟩, ⟨.tuple1, ()⟩]
    let machine := options.machine.after env program
    let called := options.machine.after env (program ++ [⟨.reduce, ()⟩])
    let result : Value := .list [.tuple [.scalar (.short 7)]]
    Exec.execute (env.guarded 6) ⟨.reduce, ()⟩ machine = .ok .running called ∧
      called.created = 9 ∧
      ∃ stopped, Exec.execute env ⟨.stop, ()⟩ called = .ok (.halted result) stopped ∧
        result.IsWithin 10 := by
  intro callable options env program machine called result
  have hguarded := (resource_limits options program).2.2.2.2 ⟨.reduce, ()⟩ (env.guarded 6)
    (env.agreesWithin_guarded 6)
  have hcalled : Exec.execute env ⟨.reduce, ()⟩ machine = .ok .running called := rfl
  have hcreated : called.created = 9 := rfl
  have hcells : called.stack = [.ref 3] := rfl
  have hslots : called.slots = #[.tuple [.atom (.scalar (.short 7))], .tuple [.ref 0],
      .tuple [.atom (.scalar (.short 7))], .list #[.ref 2]] := by cbv
  have hvalue : ({ called with stack := [], created := 10 } : Machine).value (.ref 3) = .ok result := by
    rw [hslots]
    clear_value called
    cbv
  have hstop := Exec.execute_stop env hcells hvalue
  obtain ⟨⟨hcount, -⟩, -, -, hhalted, -⟩ := resource_limits options (program ++ [⟨.reduce, ()⟩])
  have hwithin := hhalted ⟨.stop, ()⟩ result _ hstop
  rw [← hcount] at hwithin
  exact ⟨hguarded.trans hcalled, hcreated, _, hstop, hwithin⟩

end Machine

end Pickle
