import Pickle.Proofs.Machine.Concurrence
import Pickle.Proofs.Machine.Doubling
import Pickle.Proofs.Machine.Insertions
import Pickle.Proofs.Machine.Sequences

/-!
# Spellings of a call

A call of what a name stands for can be spelled in five ways, with the name in an instruction or on
the stack, and with arguments that are in a bracket, are put together to a tuple, or are in a tuple
that exists.  A `Spelling` is one of all these ways, and `Spelling.run` carries it out.

Each spelling copies the constant into new slots, then leaves some contents in slots that are of no
more use (`Spelling.spare`), a tuple of arguments or an empty dict, and then does the same call on
the machine that it was given (`Spelling.isCall`).  If the constant cannot be copied, all spellings
fail alike.  So it is left to see that what is in slots that nothing refers to makes no difference,
nor how much was created: with the spare contents of both, two spellings come to machines that a
third one mirrors (`Machine.mirrors_between`).

That is what `spellings_agree` says, for errors up to the opcode and the operation that they name.
-/

namespace Pickle

/-! ## Errors without names -/

/-- A failure without the opcode, if it can go without. -/
def Failure.anonymous : Failure → Failure
  | .notCallable _ found => .notCallable none found
  | failure => failure

/-- An error that does not tell which opcode could not be carried out. -/
def Error.anonymous : Error → Error
  | .execution failure _ => .execution failure.anonymous none
  | error => error

namespace Error

theorem anonymous_during (error : Error) (operation : String) :
    (error.during operation).anonymous = error.anonymous := by
  unfold during
  split <;> rfl

theorem isNodeLimit_anonymous {error : Error} (h : error.IsNodeLimit) :
    error.anonymous.IsNodeLimit := by
  obtain ⟨limit, operation, rfl⟩ := h.eq
  trivial

end Error

namespace Exec

variable {α β : Type} {env : Environment} {machine start middle : Machine}

/-- What comes of an action, with an error that does not tell which opcode could not be carried
out. -/
def anonymous (action : Exec α) (machine : Machine) : Except Error (α × Machine) :=
  (outcome action machine).mapError Error.anonymous

theorem anonymous_of_eq_ok {action : Exec α} {after : Machine} {value : α}
    (h : action machine = .ok value after) : anonymous action machine = .ok (value, after) := by
  rw [anonymous, outcome_of_eq_ok h]
  rfl

theorem anonymous_of_eq_error {action : Exec α} {after : Machine} {error : Error}
    (h : action machine = .error error after) :
    anonymous action machine = .error error.anonymous := by
  rw [anonymous, outcome_of_eq_error h]
  rfl

theorem anonymous_bind (action : Exec α) (next : α → Exec β) (machine : Machine) :
    anonymous (action >>= next) machine =
      anonymous action machine >>= fun done => anonymous (next done.1) done.2 := by
  rw [anonymous, anonymous, outcome_bind]
  cases outcome action machine <;> rfl

theorem anonymous_bind_of_eq_ok {action : Exec α} {next : α → Exec β} {after : Machine} {value : α}
    (h : action machine = .ok value after) :
    anonymous (action >>= next) machine = anonymous (next value) after := by
  rw [anonymous_bind, anonymous_of_eq_ok h]
  rfl

theorem anonymous_bind_of_eq_error {action : Exec α} {next : α → Exec β} {after : Machine}
    {error : Error} (h : action machine = .error error after) :
    anonymous (action >>= next) machine = .error error.anonymous :=
  anonymous_of_eq_error (bind_of_eq_error h)

/-- What comes of an instruction is what comes of its step. -/
theorem anonymous_perform {instruction : Instruction} {action : Exec Unit}
    (h : step env instruction.opcode instruction.operation
      { machine with created := machine.created + 1 } =
        (action >>= fun _ => Pure.pure Status.running) start) :
    anonymous (perform env instruction) machine = anonymous action start := by
  cases haction : action start with
  | ok value after =>
    rw [bind_of_eq_ok haction] at h
    rw [anonymous_of_eq_ok haction]
    exact anonymous_of_eq_ok (bind_of_eq_ok (execute_of_step env instruction h))
  | error error after =>
    rw [bind_of_eq_error haction] at h
    rw [anonymous_of_eq_error haction, ← error.anonymous_during instruction.name]
    exact anonymous_bind_of_eq_error (execute_of_step_error env instruction h)

end Exec

/-! ## How a call can be spelled -/

/-- How a name is given. -/
inductive Naming where
  /-- In the instruction. -/
  | inline
  /-- As two texts on the stack. -/
  | stacked (namespace_ name : Cell)

/-- How a tuple of arguments comes on top of the stack. -/
inductive Packing where
  /-- It is made of a bracket. -/
  | bracketed
  /-- It is made by an instruction that says how many they are. -/
  | counted (closing : Instruction)
  /-- It exists. -/
  | kept (tuple : Cell)

/-- How no keyword arguments come on top of the stack. -/
inductive Keywords where
  /-- As an empty dict that is made. -/
  | emptyDict
  /-- As `None`. -/
  | none
  /-- As an empty dict or `None` that exists. -/
  | kept (keywords : Cell)

/-- How a call of what a name stands for is spelled. -/
inductive Spelling where
  /-- Arguments in a bracket, with the name in the instruction that closes it. -/
  | inst
  /-- Callee and arguments in a bracket. -/
  | obj (naming : Naming)
  /-- A callee and a tuple. -/
  | reduce (naming : Naming) (packing : Packing)
  /-- A callee and a tuple, as a class makes an instance. -/
  | newObj (naming : Naming) (packing : Packing)
  /-- A callee, a tuple and keyword arguments. -/
  | newObjEx (naming : Naming) (packing : Packing) (keywords : Keywords)

section Runs

open Exec

variable (env : Environment)

/-- Pushes what a name stands for. -/
def Naming.run (name : QualifiedName) : Naming → Exec Unit
  | .inline => perform env ⟨.global, name⟩
  | .stacked namespace_ name => do
    push namespace_
    push name
    perform env ⟨.stackGlobal, ()⟩

/-- Pushes a tuple of arguments. -/
def Packing.run (args : List Cell) : Packing → Exec Unit
  | .bracketed => Exec.bracketed env args ⟨.tuple, ()⟩
  | .counted closing => do
    args.forM push
    perform env closing
  | .kept tuple => push tuple

/-- Pushes no keyword arguments. -/
def Keywords.run : Keywords → Exec Unit
  | .emptyDict => perform env ⟨.emptyDict, ()⟩
  | .none => perform env ⟨.pushNone, ()⟩
  | .kept keywords => push keywords

/-- Calls what a name stands for with arguments. -/
def Spelling.run (name : QualifiedName) (args : List Cell) : Spelling → Exec Unit
  | .inst => bracketed env args ⟨.inst, name⟩
  | .obj naming => do
    perform env ⟨.mark, ()⟩
    naming.run env name
    args.forM push
    perform env ⟨.obj, ()⟩
  | .reduce naming packing => do
    naming.run env name
    packing.run env args
    perform env ⟨.reduce, ()⟩
  | .newObj naming packing => do
    naming.run env name
    packing.run env args
    perform env ⟨.newObj, ()⟩
  | .newObjEx naming packing keywords => do
    naming.run env name
    packing.run env args
    keywords.run env
    perform env ⟨.newObjEx, ()⟩

end Runs

section Fits

variable (machine : Machine)

/-- Whether cells on the stack spell a name. -/
def Naming.Fits (name : QualifiedName) : Naming → Prop
  | .inline => True
  | .stacked namespace_ text =>
    machine.content namespace_ = .atom (.scalar (.str name.namespace_)) ∧
      machine.content text = .atom (.scalar (.str name.name))

/-- Whether what is pushed is a tuple of just the arguments. -/
def Packing.Fits (args : List Cell) : Packing → Prop
  | .bracketed => True
  | .counted closing => closing.operation = .tupleOf args.length
  | .kept tuple => tuple.IsBelow machine.slots.size ∧ machine.content tuple = .tuple args

/-- Whether what is pushed are no keyword arguments. -/
def Keywords.Fits : Keywords → Prop
  | .emptyDict | .none => True
  | .kept keywords => keywords.IsBelow machine.slots.size ∧
      (machine.content keywords = .dict #[] ∨ machine.content keywords = .none)

/-- Whether cells of a machine spell a call of a name with arguments. -/
def Spelling.Fits (name : QualifiedName) (args : List Cell) : Spelling → Prop
  | .inst => True
  | .obj naming => naming.Fits machine name
  | .reduce naming packing | .newObj naming packing =>
    naming.Fits machine name ∧ packing.Fits machine args
  | .newObjEx naming packing keywords =>
    naming.Fits machine name ∧ packing.Fits machine args ∧ keywords.Fits machine

end Fits

/-- What is left in a slot when arguments have been put together. -/
def Packing.spare (args : List Cell) : Packing → Array Content
  | .kept _ => #[]
  | .bracketed | .counted _ => #[.tuple args]

/-- What is left in a slot when there are no keyword arguments. -/
def Keywords.spare : Keywords → Array Content
  | .emptyDict => #[.dict #[]]
  | .none | .kept _ => #[]

/-- What is left in slots when a call has been spelled. -/
def Spelling.spare (args : List Cell) : Spelling → Array Content
  | .inst | .obj _ => #[]
  | .reduce _ packing | .newObj _ packing => packing.spare args
  | .newObjEx _ packing keywords => packing.spare args ++ keywords.spare

theorem Packing.spare_below {args : List Cell} {count : ℕ} (hargs : AllBelow count args)
    (packing : Packing) : ∀ content ∈ packing.spare args, AllBelow count content.cells := by
  cases packing <;> simp [spare, Content.cells, hargs]

theorem Keywords.spare_below (count : ℕ) (keywords : Keywords) :
    ∀ content ∈ keywords.spare, AllBelow count content.cells := by
  cases keywords <;> simp [spare, Content.cells]

/-- Spare contents refer to the arguments alone. -/
theorem Spelling.spare_below {args : List Cell} {count : ℕ} (hargs : AllBelow count args)
    (spelling : Spelling) : ∀ content ∈ spelling.spare args, AllBelow count content.cells := by
  intro content hcontent
  cases spelling with
  | inst | obj naming => simp [spare] at hcontent
  | reduce naming packing | newObj naming packing =>
    exact packing.spare_below hargs content hcontent
  | newObjEx naming packing keywords =>
    rcases Array.mem_append.1 hcontent with h | h
    · exact packing.spare_below hargs content h
    · exact keywords.spare_below count content h

/-! ## What comes of a spelling -/

namespace Exec

variable {env : Environment} {machine start : Machine} {name : QualifiedName}

/-- Calls what a cell stands for, and pushes the result. -/
def call (env : Environment) (opcode : Opcode) (callee : Cell) (args : List Cell) : Exec Unit := do
  push (← callCell env opcode callee args [])

/-- The opcode of a call matters to nothing but the errors. -/
theorem anonymous_call (opcode opcode' : Opcode) (callee : Cell) (args : List Cell)
    (machine : Machine) : anonymous (call env opcode callee args) machine =
      anonymous (call env opcode' callee args) machine := by
  have hcontent : content callee machine = .ok (machine.content callee) machine := rfl
  rw [call, call, callCell, callCell, bind_assoc, bind_assoc, anonymous_bind_of_eq_ok hcontent,
    anonymous_bind_of_eq_ok hcontent]
  split <;> rfl

/-- Whether a constant has this copy in all machines with so many slots: a cell and new slots, or an
error. -/
def Copies (env : Environment) (name : QualifiedName) (count : ℕ) :
    Except Error (Cell × Array Content) → Prop
  | .ok (callee, new) => ∀ machine : Machine, machine.slots.size = count → ∃ created,
      constant env name machine =
        .ok callee { machine with slots := machine.slots ++ new, created }
  | .error error => ∀ machine : Machine, machine.slots.size = count → ∃ after,
      constant env name machine = .error error after

/-- Copies depend on the number of slots alone. -/
theorem exists_copies (env : Environment) (name : QualifiedName) (count : ℕ) :
    ∃ copy, Copies env name count copy := by
  let machine : Machine := { Machine.initial none with slots := Array.replicate count .none }
  have hsame : ∀ other : Machine, other.slots.size = count → _ := fun other hother =>
    parallel_embed (f := .ref) (env.constants.resolve name) machine other fun number => by
      rw [hother, Array.size_replicate]
  obtain ⟨callee, new, created, hcopy, -⟩ | ⟨error, after, -, hcopy, -⟩ :=
    hsame machine Array.size_replicate
  · refine ⟨.ok (callee, new), fun other hother => ?_⟩
    obtain ⟨callee', new', created', h, h'⟩ | ⟨error, after, after', h, -⟩ := hsame other hother
    · rw [hcopy] at h
      injection h with hcallee hmachine
      obtain rfl : new = new' :=
        (Array.append_right_inj machine.slots).1 (congrArg Machine.slots hmachine)
      rw [← hcallee, Cell.rename_ref, funext Content.rename_ref, Array.map_id'] at h'
      exact ⟨_, h'⟩
    · rw [hcopy] at h
      cases h
  · refine ⟨.error error, fun other hother => ?_⟩
    obtain ⟨callee', new', created', h, -⟩ | ⟨error', after, after', h, h'⟩ := hsame other hother
    · rw [hcopy] at h
      cases h
    · rw [hcopy] at h
      injection h with herror
      exact ⟨after', herror ▸ h'⟩

/-- The machine with a copy is well-formed, and so is the cell. -/
theorem Copies.wellFormed {callee : Cell} {new : Array Content} (hwell : machine.WellFormed)
    (h : Copies env name machine.slots.size (.ok (callee, new))) :
    ∃ created, Machine.WellFormed { machine with slots := machine.slots ++ new, created } ∧
      callee.IsBelow (machine.slots ++ new).size := by
  obtain ⟨created, hcopy⟩ := h machine rfl
  have hgrows := allocates_constant env machine.slots.size name machine le_rfl
  rw [hcopy] at hgrows
  exact ⟨created, hgrows.1.wellFormed hwell, hgrows.2⟩

/-- Whether something came of a call: the error of the copy, or what comes of the call of the copy
once the spare contents are in slots as well. -/
def IsCall (env : Environment) (args : List Cell) (machine : Machine) (spare : Array Content) :
    Except Error (Cell × Array Content) → Except Error (Unit × Machine) → Prop
  | .ok (callee, new), result => ∃ opcode created, result = anonymous (call env opcode callee args)
      { machine with slots := machine.slots ++ new ++ spare, created }
  | .error error, result => result = .error error.anonymous

theorem anonymous_bind_of_leadsTo {action : Exec Unit} {middle : Machine}
    (h : LeadsTo action start middle) (next : Unit → Exec Unit) :
    ∃ created, anonymous (action >>= next) start = anonymous (next ()) { middle with created } := by
  obtain ⟨created, haction⟩ := h
  exact ⟨created, anonymous_bind_of_eq_ok haction⟩

section Steps

variable {callee : Cell} {args below : List Cell} {saved : List (List Cell)}
  {instruction : Instruction}

/-! ### Last instructions -/

theorem popKeywords_of_stack {cell : Cell} (hstack : start.stack = cell :: below)
    (hcontent : start.content cell = .dict #[] ∨ start.content cell = .none) :
    popKeywords start = .ok [] { start with stack := below } := by
  have hnow : content cell { start with stack := below } =
      .ok (start.content cell) { start with stack := below } := rfl
  rw [popKeywords, bind_of_eq_ok (pop_of_stack hstack), bind_of_eq_ok hnow]
  rcases hcontent with hcontent | hcontent <;> rw [hcontent] <;> rfl

/-- An instruction that calls with a tuple of arguments. -/
theorem anonymous_apply (hoperation : instruction.operation = .apply) {cell : Cell}
    (hstack : start.stack = cell :: callee :: below)
    (hcontent : start.content cell = .tuple args) :
    anonymous (perform env instruction) start = anonymous (call env instruction.opcode callee args)
      { start with stack := below, created := start.created + 1 } := by
  refine anonymous_perform ?_
  have hargs : popArguments { start with created := start.created + 1 } =
      .ok args { start with stack := callee :: below, created := start.created + 1 } :=
    popArguments_of_stack hstack hcontent
  rw [hoperation, step, bind_of_eq_ok hargs, bind_of_eq_ok (pop_of_stack rfl), call, bind_assoc]

/-- An instruction that calls with a tuple of arguments and no keyword arguments. -/
theorem anonymous_applyKeywords (hoperation : instruction.operation = .applyKeywords)
    {cell keywords : Cell} (hstack : start.stack = keywords :: cell :: callee :: below)
    (hkeywords : start.content keywords = .dict #[] ∨ start.content keywords = .none)
    (hcontent : start.content cell = .tuple args) :
    anonymous (perform env instruction) start = anonymous (call env instruction.opcode callee args)
      { start with stack := below, created := start.created + 1 } := by
  refine anonymous_perform ?_
  have hnone : popKeywords { start with created := start.created + 1 } =
      .ok [] { start with stack := cell :: callee :: below, created := start.created + 1 } :=
    popKeywords_of_stack hstack hkeywords
  have hargs : popArguments
      { start with stack := cell :: callee :: below, created := start.created + 1 } =
        .ok args { start with stack := callee :: below, created := start.created + 1 } :=
    popArguments_of_stack rfl hcontent
  rw [hoperation, step, bind_of_eq_ok hnone, bind_of_eq_ok hargs, bind_of_eq_ok (pop_of_stack rfl),
    call, bind_assoc]

/-- An instruction that closes a bracket of the callee and its arguments. -/
theorem anonymous_applyBracket (hoperation : instruction.operation = .applyBracket)
    (hstack : start.stack = args.reverse ++ [callee]) (hsaved : start.saved = below :: saved) :
    anonymous (perform env instruction) start = anonymous (call env instruction.opcode callee args)
      { start with stack := below, saved, created := start.created + 1 } := by
  refine anonymous_perform ?_
  have hcells : popMark { start with created := start.created + 1 } = .ok (callee :: args)
      { start with stack := below, saved, created := start.created + 1 } := by
    have hreverse : start.stack.reverse = callee :: args := by simp [hstack]
    rw [← hreverse]
    exact popMark_of_saved hsaved
  rw [hoperation, step, bind_of_eq_ok hcells, call, bind_assoc]

/-- An instruction that closes a bracket of arguments and names the callee. -/
theorem anonymous_applyConstant (hoperation : instruction.operation = .applyConstant name)
    (hstack : start.stack = args.reverse) (hsaved : start.saved = below :: saved) :
    anonymous (perform env instruction) start =
      anonymous (constant env name >>= fun callee => call env instruction.opcode callee args)
        { start with stack := below, saved, created := start.created + 1 } := by
  refine anonymous_perform ?_
  have hcells : popMark { start with created := start.created + 1 } = .ok args
      { start with stack := below, saved, created := start.created + 1 } := by
    have hreverse : start.stack.reverse = args := by rw [hstack, List.reverse_reverse]
    rw [← hreverse]
    exact popMark_of_saved hsaved
  rw [hoperation, step, bind_of_eq_ok hcells, bind_assoc]
  simp only [call, bind_assoc]

/-! ### Instructions before the last -/

theorem popText_of_stack {cell : Cell} {text : String} (hstack : start.stack = cell :: below)
    (hcontent : start.content cell = .atom (.scalar (.str text))) :
    popText start = .ok text { start with stack := below } := by
  have hnow : content cell { start with stack := below } =
      .ok (.atom (.scalar (.str text))) { start with stack := below } := hcontent ▸ rfl
  rw [popText, bind_of_eq_ok (pop_of_stack hstack), bind_of_eq_ok hnow]
  rfl

/-- A name in the instruction and a name on the stack are the same constant. -/
theorem anonymous_naming_run {naming : Naming} (hfits : naming.Fits start name) :
    ∃ created, anonymous (naming.run env name) start =
      anonymous (constant env name >>= push) { start with created } := by
  refine ⟨start.created + 1, ?_⟩
  cases naming with
  | inline =>
    refine anonymous_perform ?_
    rw [bind_assoc]
    rfl
  | stacked namespace_ text =>
    obtain ⟨hnamespace, htext⟩ := hfits
    have hpush : ∀ cell machine, push cell machine =
      .ok () { machine with stack := cell :: machine.stack } := fun _ _ => rfl
    rw [Naming.run, anonymous_bind_of_eq_ok (hpush _ _), anonymous_bind_of_eq_ok (hpush _ _)]
    refine anonymous_perform ?_
    show step env .stackGlobal .stackConstant _ = _
    have hname : popText { start with
        stack := text :: namespace_ :: start.stack, created := start.created + 1 } = .ok name.name
          { start with stack := namespace_ :: start.stack, created := start.created + 1 } :=
      popText_of_stack rfl htext
    have hmodule : popText
        { start with stack := namespace_ :: start.stack, created := start.created + 1 } =
          .ok name.namespace_ { start with created := start.created + 1 } :=
      popText_of_stack rfl hnamespace
    rw [step, bind_of_eq_ok hname, bind_of_eq_ok hmodule, bind_assoc]

/-- Cells that were pushed one after the other are taken together. -/
theorem popMany_of_stack (hstack : start.stack = args.reverse ++ below) :
    popMany args.length start = .ok args { start with stack := below } := by
  induction args using List.reverseRecOn generalizing start with
  | nil =>
    rw [← show start.stack = below from hstack]
    rfl
  | append_singleton first last ih =>
    rw [List.reverse_append] at hstack
    rw [List.length_append, List.length_singleton, popMany, bind_of_eq_ok (pop_of_stack hstack),
      bind_of_eq_ok (ih rfl)]
    rfl

end Steps

/-- A tuple of the arguments comes on top of the stack. -/
theorem leadsTo_packing_run {args : List Cell} {packing : Packing} {new : Array Content}
    (hfits : packing.Fits machine args) (hslots : start.slots = machine.slots ++ new) :
    ∃ top, LeadsTo (packing.run env args) start { start with
        stack := top :: start.stack, slots := start.slots ++ packing.spare args } ∧
      ∀ (more : Array Content) (after : Machine),
        after.slots = start.slots ++ packing.spare args ++ more →
          after.content top = .tuple args := by
  cases packing with
  | bracketed =>
    refine ⟨.ref start.slots.size, leadsTo_bracketed fun created => ?_, fun more after hafter =>
      after.slot_append_append hafter Nat.one_pos⟩
    refine (step_collect rfl (.inl ⟨rfl, rfl⟩)).trans ?_
    rw [List.reverse_reverse, Array.push_eq_append]
    rfl
  | counted closing =>
    refine ⟨.ref start.slots.size, (leadsTo_forM_push args start).bind fun _ =>
      leadsTo_perform fun created => ?_, fun more after hafter =>
      after.slot_append_append hafter Nat.one_pos⟩
    rw [show closing.operation = _ from hfits, step, bind_of_eq_ok (popMany_of_stack rfl),
      Packing.spare, ← Array.push_eq_append]
    rfl
  | kept tuple =>
    obtain ⟨hbelow, hcontent⟩ := hfits
    refine ⟨tuple, ?_, fun more after hafter => ?_⟩
    · rw [Packing.spare, Array.append_empty]
      exact leadsTo_push tuple start
    · rw [Packing.spare, Array.append_empty, hslots, Array.append_assoc] at hafter
      exact (Machine.content_of_append hbelow hafter).trans hcontent

/-- An empty dict or `None` comes on top of the stack. -/
theorem leadsTo_keywords_run {keywords : Keywords} {new : Array Content}
    (hfits : keywords.Fits machine) (hslots : start.slots = machine.slots ++ new) :
    ∃ top, LeadsTo (keywords.run env) start { start with
        stack := top :: start.stack, slots := start.slots ++ keywords.spare } ∧
      ∀ after : Machine, after.slots = start.slots ++ keywords.spare →
        after.content top = .dict #[] ∨ after.content top = .none := by
  cases keywords with
  | emptyDict =>
    refine ⟨.ref start.slots.size, leadsTo_perform fun created => ?_, fun after hafter => .inl ?_⟩
    · rw [Keywords.spare, ← Array.push_eq_append]
      rfl
    · have hlast : after.slots = start.slots ++ #[.dict #[]] ++ #[] := by
        rw [hafter, Array.append_empty, Keywords.spare]
      exact after.slot_append_append hlast Nat.one_pos
  | none =>
    refine ⟨.atom (.scalar .none), leadsTo_perform fun created => ?_, fun after hafter => .inr rfl⟩
    rw [Keywords.spare, Array.append_empty]
    rfl
  | kept keywords =>
    obtain ⟨hbelow, hcontent⟩ := hfits
    refine ⟨keywords, ?_, fun after hafter => ?_⟩
    · rw [Keywords.spare, Array.append_empty]
      exact leadsTo_push keywords start
    · rw [Keywords.spare, Array.append_empty, hslots] at hafter
      rwa [Machine.content_of_append hbelow hafter]

/-! ### Spellings -/

section Calls

variable {args : List Cell} {spare : Array Content} {copy : Except Error (Cell × Array Content)}
  (hcopies : Copies env name machine.slots.size copy) (hslots : start.slots = machine.slots)
include hcopies hslots

/-- It is left to look at the machine with a copy. -/
theorem isCall_of_constant {next : Cell → Exec Unit}
    (hnext : ∀ callee new created, copy = .ok (callee, new) → IsCall env args machine spare copy
      (anonymous (next callee) { start with slots := machine.slots ++ new, created })) :
    IsCall env args machine spare copy (anonymous (constant env name >>= next) start) := by
  cases copy with
  | ok copy =>
    obtain ⟨callee, new⟩ := copy
    obtain ⟨created, hcopy⟩ := hcopies start (by rw [hslots])
    rw [anonymous_bind_of_eq_ok hcopy, hslots]
    exact hnext callee new created rfl
  | error error =>
    obtain ⟨after, hcopy⟩ := hcopies start (by rw [hslots])
    exact anonymous_bind_of_eq_error hcopy

theorem isCall_of_naming {naming : Naming} (hfits : naming.Fits start name)
    {next : Unit → Exec Unit}
    (hnext : ∀ callee new created, copy = .ok (callee, new) → IsCall env args machine spare copy
      (anonymous (next ()) { start with
        stack := callee :: start.stack, slots := machine.slots ++ new, created })) :
    IsCall env args machine spare copy (anonymous (naming.run env name >>= next) start) := by
  obtain ⟨created, hrun⟩ := anonymous_naming_run hfits
  rw [anonymous_bind, hrun, ← anonymous_bind, bind_assoc]
  have hcreated : ({ start with created } : Machine).slots = machine.slots := hslots
  refine isCall_of_constant hcopies hcreated fun callee new created hcopy => ?_
  have hpush : push callee { start with slots := machine.slots ++ new, created } = .ok ()
      { start with stack := callee :: start.stack, slots := machine.slots ++ new, created } := rfl
  rw [anonymous_bind_of_eq_ok hpush]
  exact hnext callee new created hcopy

end Calls

section Forms

variable {args : List Cell} {naming : Naming} {copy : Except Error (Cell × Array Content)}
  (hcopies : Copies env name machine.slots.size copy)
include hcopies

theorem isCall_inst : IsCall env args machine #[] copy
    (anonymous (bracketed env args ⟨.inst, name⟩) machine) := by
  obtain ⟨marked, hmark⟩ := anonymous_bind_of_leadsTo (leadsTo_mark env machine) fun _ =>
    args.forM push >>= fun _ => perform env ⟨.inst, name⟩
  obtain ⟨pushed, hpush⟩ := anonymous_bind_of_leadsTo (leadsTo_forM_push args
    { machine with stack := [], saved := machine.stack :: machine.saved, created := marked })
    fun _ => perform env ⟨.inst, name⟩
  rw [bracketed, hmark, hpush, anonymous_applyConstant rfl (List.append_nil _) rfl]
  have hcounted : ({ machine with created := pushed + 1 } : Machine).slots = machine.slots := rfl
  refine isCall_of_constant hcopies hcounted fun callee new created hcopy => ?_
  rw [hcopy]
  exact ⟨_, _, by rw [Array.append_empty]⟩

theorem isCall_obj (hnaming : naming.Fits machine name) : IsCall env args machine #[] copy
    (anonymous ((Spelling.obj naming).run env name args) machine) := by
  obtain ⟨marked, hmark⟩ := anonymous_bind_of_leadsTo (leadsTo_mark env machine) fun _ =>
    naming.run env name >>= fun _ => args.forM push >>= fun _ => perform env ⟨.obj, ()⟩
  let start : Machine :=
    { machine with stack := [], saved := machine.stack :: machine.saved, created := marked }
  have hslots : start.slots = machine.slots := rfl
  rw [Spelling.run, hmark]
  refine isCall_of_naming hcopies hslots hnaming fun callee new created hcopy => ?_
  obtain ⟨pushed, hpush⟩ := anonymous_bind_of_leadsTo (leadsTo_forM_push args
    { start with stack := [callee], slots := machine.slots ++ new, created })
    fun _ => perform env ⟨.obj, ()⟩
  rw [hpush, anonymous_applyBracket rfl rfl rfl, hcopy]
  exact ⟨_, _, by rw [Array.append_empty]⟩

variable {packing : Packing} (hnaming : naming.Fits machine name)
  (hpacking : packing.Fits machine args)
include hnaming hpacking

/-- It is left to look at the machine with a copy and a tuple of the arguments. -/
theorem isCall_of_packing {spare : Array Content} {next : Unit → Exec Unit}
    (hnext : ∀ callee new top created, copy = .ok (callee, new) →
      (∀ (more : Array Content) (after : Machine),
        after.slots = machine.slots ++ new ++ packing.spare args ++ more →
          after.content top = .tuple args) →
      IsCall env args machine spare copy (anonymous (next ()) { machine with
        stack := top :: callee :: machine.stack,
        slots := machine.slots ++ new ++ packing.spare args, created })) :
    IsCall env args machine spare copy
      (anonymous (naming.run env name >>= fun _ => packing.run env args >>= next) machine) := by
  refine isCall_of_naming hcopies rfl hnaming fun callee new created hcopy => ?_
  let start : Machine :=
    { machine with stack := callee :: machine.stack, slots := machine.slots ++ new, created }
  have hslots : start.slots = machine.slots ++ new := rfl
  obtain ⟨top, hpack, htop⟩ := leadsTo_packing_run hpacking hslots
  obtain ⟨packed, hpack⟩ := anonymous_bind_of_leadsTo hpack next
  rw [hpack]
  exact hnext callee new top packed hcopy htop

theorem isCall_apply {instruction : Instruction} (hoperation : instruction.operation = .apply) :
    IsCall env args machine (packing.spare args) copy
      (anonymous (naming.run env name >>= fun _ => packing.run env args >>= fun _ =>
        perform env instruction) machine) := by
  refine isCall_of_packing hcopies hnaming hpacking fun callee new top created hcopy htop => ?_
  rw [anonymous_apply hoperation rfl (htop #[] _ (Array.append_empty).symm), hcopy]
  exact ⟨_, _, rfl⟩

theorem isCall_applyKeywords {keywords : Keywords} (hkeywords : keywords.Fits machine)
    {instruction : Instruction} (hoperation : instruction.operation = .applyKeywords) :
    IsCall env args machine (packing.spare args ++ keywords.spare) copy
      (anonymous (naming.run env name >>= fun _ => packing.run env args >>= fun _ =>
        keywords.run env >>= fun _ => perform env instruction) machine) := by
  refine isCall_of_packing hcopies hnaming hpacking fun callee new top created hcopy htop => ?_
  let start : Machine := { machine with
    stack := top :: callee :: machine.stack,
    slots := machine.slots ++ new ++ packing.spare args, created }
  have hslots : start.slots = machine.slots ++ (new ++ packing.spare args) :=
    Array.append_assoc
  obtain ⟨none, hpush, hnone⟩ := leadsTo_keywords_run hkeywords hslots
  obtain ⟨pushed, hpush⟩ := anonymous_bind_of_leadsTo hpush fun _ => perform env instruction
  rw [hpush, anonymous_applyKeywords hoperation rfl (hnone _ rfl) (htop keywords.spare _ rfl),
    hcopy]
  exact ⟨instruction.opcode, pushed + 1, by rw [← Array.append_assoc]⟩

end Forms

end Exec

open Exec in
/-- Every spelling is a call, once its spare contents are in slots. -/
theorem Spelling.isCall {env : Environment} {machine : Machine} {name : QualifiedName}
    {args : List Cell} {spelling : Spelling} {copy : Except Error (Cell × Array Content)}
    (hfits : spelling.Fits machine name args) (hcopies : Copies env name machine.slots.size copy) :
    IsCall env args machine (spelling.spare args) copy
      (anonymous (spelling.run env name args) machine) := by
  cases spelling with
  | inst => exact isCall_inst hcopies
  | obj naming => exact isCall_obj hcopies hfits
  | reduce naming packing => exact isCall_apply hcopies hfits.1 hfits.2 rfl
  | newObj naming packing => exact isCall_apply hcopies hfits.1 hfits.2 rfl
  | newObjEx naming packing keywords =>
    exact isCall_applyKeywords hcopies hfits.1 hfits.2.1 hfits.2.2 rfl

/-! ## All spellings agree -/

namespace Machine

/-- Whether a machine is another one with a cell more on its stack, and maybe new slots. -/
def Pushes (machine : Machine) (cell : Cell) (after : Machine) : Prop :=
  ∃ new created, after = { machine with
    stack := cell :: machine.stack, slots := machine.slots ++ new, created }

theorem Pushes.of_append {machine after : Machine} {cell : Cell} {new : Array Content}
    {created : ℕ} (h : Pushes { machine with slots := machine.slots ++ new, created } cell after) :
    machine.Pushes cell after := by
  obtain ⟨newer, more, rfl⟩ := h
  exact ⟨new ++ newer, more, by simp only [Array.append_assoc]⟩

/-- Whether two actions push the same on a machine or fail alike.  What they push stands for the same
trees and has the same value, and the errors are the same but for the opcode that could not be
carried out; only where there are too many nodes, they may differ. -/
def PushAlike (machine : Machine) (first second : Exec Unit) : Prop :=
  Concur Error.IsNodeLimit
    (fun done done' => ∃ cell cell', machine.Pushes cell done.2 ∧ machine.Pushes cell' done'.2 ∧
      done.2.SameValue cell done'.2 cell')
    (Exec.anonymous first machine) (Exec.anonymous second machine)

end Machine

section Call

open Exec Machine

variable {env : Environment} {machine : Machine} {callee : Cell} {args : List Cell}

/-- A call that succeeds pushes a cell. -/
theorem Exec.exists_pushes_of_call {opcode : Opcode} {after : Machine}
    (hargs : AllBelow machine.slots.size args)
    (h : call env opcode callee args machine = .ok () after) :
    ∃ cell, machine.Pushes cell after := by
  have hnone : AllBelow machine.slots.size (([] : List (String × Cell)).map Prod.snd) := .nil
  have hgrows := allocates_callCell env opcode callee hargs hnone machine le_rfl
  cases hcall : callCell env opcode callee args [] machine with
  | ok cell middle =>
    rw [hcall] at hgrows
    obtain ⟨⟨new, created, rfl, -⟩, -⟩ := hgrows
    rw [call, bind_of_eq_ok hcall] at h
    cases h
    exact ⟨cell, new, created, rfl⟩
  | error error middle =>
    rw [call, bind_of_eq_error hcall] at h
    cases h

/-- A call agrees with the same call where there are more contents that nothing refers to, and where
more was created. -/
theorem Exec.agree_call (env : Environment) (hwell : machine.WellFormed)
    (hcallee : callee.IsBelow machine.slots.size) (hargs : AllBelow machine.slots.size args)
    {own : Array Content} (hown : ∀ content ∈ own, AllBelow machine.slots.size content.cells)
    (before after : Array Content) {created created' : ℕ} (hcreated : created ≤ created')
    (opcode opcode' : Opcode) :
    Agree True Error.IsNodeLimit
      (fun done done' => ∃ cell, machine.Pushes cell done.2 ∧ ∃ f,
        done.2.Mirrors True f ∅ done'.2 ∧ done'.2.stack.head? = some (cell.rename f))
      (anonymous (call env opcode callee args)
        { machine with slots := machine.slots ++ own, created })
      (anonymous (call env opcode' callee args)
        { machine with
          slots := machine.slots ++ before ++ own ++ after
          created := created' }) := by
  have hmirrors := mirrors_between hwell hown before after hcreated
  let f := between machine.slots.size own.size before.size after.size
  have hcall : Mirrored True f ∅ id (call env opcode callee args)
      (call env opcode callee args) := by
    have hrenamed : Mirrored True f ∅ (Cell.rename f) (callCell env opcode callee args [])
        (callCell env opcode (callee.rename f) (args.map (Cell.rename f)) []) :=
      .callCell env opcode callee args []
    rw [rename_between hcallee, map_rename_between hargs] at hrenamed
    exact hrenamed.bind .push
  rw [anonymous_call opcode' opcode]
  refine Agree.mapError (((hcall _ _ hmirrors).with_left fun _ _ h => exists_pushes_of_call
    (hargs.mono ?_) h).imp ?_) fun error => Error.isNodeLimit_anonymous
  · exact Array.size_append ▸ Nat.le_add_right _ _
  · rintro ⟨_, done⟩ ⟨_, done'⟩ ⟨⟨cell, hpushes⟩, -, hdone⟩
    refine ⟨cell, hpushes.of_append, _, hdone, ?_⟩
    obtain ⟨new, created, rfl⟩ := hpushes
    rw [hdone.stack]
    rfl

end Call

open Exec in
/-- Spellings of a call push the same on a well-formed machine or fail alike. -/
theorem Spelling.pushAlike_run {env : Environment} {machine : Machine} (hwell : machine.WellFormed)
    {name : QualifiedName} {args : List Cell} (hargs : AllBelow machine.slots.size args)
    {first second : Spelling} (hfirst : first.Fits machine name args)
    (hsecond : second.Fits machine name args) :
    machine.PushAlike (first.run env name args) (second.run env name args) := by
  obtain ⟨copy, hcopies⟩ := exists_copies env name machine.slots.size
  have hcall := Spelling.isCall hfirst hcopies
  have hcall' := Spelling.isCall hsecond hcopies
  unfold Machine.PushAlike
  cases copy with
  | error error =>
    rw [show anonymous (first.run env name args) machine = _ from hcall,
      show anonymous (second.run env name args) machine = _ from hcall']
    exact .inr (.inr rfl)
  | ok copy =>
    obtain ⟨callee, new⟩ := copy
    obtain ⟨opcode, created, hcall⟩ := hcall
    obtain ⟨opcode', created', hcall'⟩ := hcall'
    obtain ⟨copied, hgrown, hcallee⟩ := hcopies.wellFormed hwell
    rw [hcall, hcall']
    -- Both calls are compared with the call where there are the spare contents of both.
    have hbelow : AllBelow (machine.slots ++ new).size args := hargs.mono (by simp)
    have hagree := agree_call env hgrown hcallee hbelow (first.spare_below hbelow) #[]
      (second.spare args) (le_max_left created created') opcode opcode
    have hagree' := agree_call env hgrown hcallee hbelow (second.spare_below hbelow)
      (first.spare args) #[] (le_max_right created created') opcode' opcode
    rw [Array.append_empty] at hagree hagree'
    refine (Concur.of_agree hagree hagree').imp ?_
    rintro done done' ⟨common, ⟨cell, hpushes, f, hmirrors, htop⟩, cell', hpushes', f', hmirrors',
      htop'⟩
    exact ⟨cell, cell', hpushes.of_append, hpushes'.of_append,
      .of_mirrors hmirrors hmirrors' (Option.some.inj (htop.symm.trans htop'))⟩

namespace Machine

/-- All spellings of a call agree, in every state that a program can lead to.

A name stands for what the constants of the user have under it, or else for what the default
constants have, or else for a class of this name that is not known; and a copy of that is called.
Whatever it is, and whatever arguments it is called with, all spellings push the same or fail alike:
the name in the instruction or as two texts on the stack, the arguments in a bracket, in a new tuple
or in one that exists, and without keyword arguments or with none of them. -/
theorem spellings_agree (options : Options) (program : List Instruction) (name : QualifiedName)
    (args : List Cell) :
    let env := options.environment
    let machine := options.machine.after env program
    Exec.constant env name = Exec.embed (((options.constants.get? name).or
        (Constants.default.get? name)).getD (.atom (.class_ name))) ∧
      (AllBelow machine.slots.size args → ∀ first second : Spelling,
        first.Fits machine name args → second.Fits machine name args →
          machine.PushAlike (first.run env name args) (second.run env name args)) := by
  intro env machine
  refine ⟨?_, fun hargs first second hfirst hsecond => ?_⟩
  · rw [Exec.constant, Constants.resolve, ← Constants.get?_overlay]
    rfl
  · have hwell : machine.WellFormed :=
      wellFormed_of_program env (wellFormed_initial options.buffers) program
    exact Spelling.pushAlike_run hwell hargs hfirst hsecond

/-- A list as the only argument of a routine of the host: in a bracket, or in a tuple that exists,
with the name of the routine on the stack. -/
theorem spellings_agree_routine :
    let name : QualifiedName := ⟨"m", "f"⟩
    let text (content : String) : Cell := .atom (.scalar (.str content))
    let options : Options :=
      { constants := Constants.empty.insertCallable name .function (.host "f")
        host := fun _ args _ => .ok (.list args) }
    let machine := options.machine.after options.environment [⟨.emptyList, ()⟩, ⟨.tuple1, ()⟩]
    let second : Spelling := .newObjEx (.stacked (text "m") (text "f")) (.kept (.ref 1)) .none
    AllBelow machine.slots.size [.ref 0] ∧ Spelling.inst.Fits machine name [.ref 0] ∧
      second.Fits machine name [.ref 0] ∧
      machine.PushAlike (Spelling.inst.run options.environment name [.ref 0])
        (second.run options.environment name [.ref 0]) := by
  intro name text options machine second
  have hargs : AllBelow machine.slots.size [.ref 0] := by
    rw [AllBelow.cons]
    exact ⟨Nat.two_pos, .nil⟩
  have hsecond : second.Fits machine name [.ref 0] :=
    ⟨⟨rfl, rfl⟩, ⟨Nat.one_lt_two, rfl⟩, trivial⟩
  obtain ⟨-, hagree⟩ := spellings_agree options [⟨.emptyList, ()⟩, ⟨.tuple1, ()⟩] name [.ref 0]
  exact ⟨hargs, trivial, hsecond, hagree hargs .inst second trivial hsecond⟩

end Machine

end Pickle
