import Pickle.Proofs.Machine.Aliasing
import Pickle.Proofs.Machine.Keeping

/-!
# Brackets

A mark sets the stack aside, and what follows builds up a new one until an instruction closes the
bracket.  In between anything may happen: inner brackets, calls, traffic with the memo, even
instructions that drop what the stack no longer has and so close an inner bracket.  Still, every
instruction that succeeds keeps the stacks that are set aside, adds the current one to them, or
takes the latest of them back (`shifts_execute`).  So as long as there are no fewer of them than
right after the mark, those are the last ones of them, cell for cell (`RunsAbove.suffix`).

`IsBracket` tells what comes of closing: the items are those of the current stack in the order in
which they were pushed, and the stack that they are added to is just the one before the mark.
-/

namespace Pickle

/-! ## What instructions do to stacks set aside -/

/-- Whether the stacks that are set aside are kept, or the current one is added to them, or the
latest of them is taken back. -/
inductive Machine.Shifts (before after : Machine) : Prop
  | kept (h : after.saved = before.saved)
  | opened (h : after.saved = before.stack :: before.saved)
  | closed (below : List Cell) (h : before.saved = below :: after.saved)

/-- Whether the stacks that are set aside are the same, however many slots are new. -/
def Machine.SameSaved (_debt : ℕ) (before after : Machine) : Prop := after.saved = before.saved

instance : Machine.IsApart Machine.SameSaved := ⟨fun h _ _ => h, fun h h' => h'.trans h⟩

/-- Whether an operation takes the bracket on top as a whole, whatever is in it. -/
def Operation.Closes : Operation → Prop
  | .popMark | .collect _ | .appends | .addItems | .setItems | .applyConstant _ |
    .applyBracket => True
  | _ => False

namespace Exec

open Machine (SameSaved)

variable {α : Type}

/-- Growth is a matter of slots. -/
theorem Allocates.keepsSaved {debt more : ℕ} {good : ℕ → α → Prop} {action : Exec α}
    (h : Allocates 0 debt action good) : Keeps SameSaved more action := by
  have hgrows : ∀ {before after : Machine}, before.GrowsTo debt after →
      SameSaved more before after := by
    rintro before after ⟨new, created, rfl, -, -, -⟩
    rfl
  exact fun machine => (h machine (Nat.zero_le _)).imp (fun _ _ h => hgrows h.1) fun _ => hgrows

theorem keepsSaved_callCell (env : Environment) (opcode : Opcode) (callee : Cell) (args : List Cell)
    (kwargs : List (String × Cell)) :
    Keeps SameSaved 1 (callCell env opcode callee args kwargs) := by
  refine (Keeps.content callee).bind_free fun content => ?_
  split
  · exact .alloc _
  · refine (Keeps.mapM Keeps.value args).bind_free fun args => ?_
    have hkeyword : ∀ pair : String × Cell,
        Keeps SameSaved 0 (do return (pair.1, ← value pair.2)) :=
      fun pair => (Keeps.value pair.2).bind_free fun _ => .pure _
    refine (Keeps.mapM hkeyword kwargs).bind_free fun kwargs => ?_
    exact (Keeps.ofExcept _).bind_free fun value => (allocates_embed 0 value).keepsSaved
  · exact .fail _

theorem Keeps.push_running {action : Exec Cell} (h : Keeps SameSaved 1 action) :
    Keeps SameSaved 1
      (action >>= fun cell => Exec.push cell >>= fun _ => Pure.pure Status.running) :=
  h.then_free fun cell => (Keeps.push cell).then_running

/-- Whether the latest of the stacks that are set aside is taken back. -/
def Takes (before after : Machine) : Prop := ∃ below, before.saved = below :: after.saved

/-- What follows the end of a bracket leaves the other stacks alone. -/
theorem takes_of_popMark {next : List Cell → Exec α}
    (h : ∀ cells, Keeps SameSaved 1 (next cells)) (machine : Machine) :
    Ends ((popMark >>= next) machine) (fun _ => Takes machine) fun _ => True := by
  refine ends_popMark trivial fun below saved hsaved => ?_
  refine (h _ _).imp (fun _ after hafter => ?_) fun _ _ => trivial
  have hsame : after.saved = saved := hafter
  exact ⟨below, by rw [hsaved, hsame]⟩

theorem takes_of_popPairs {next : List (Cell × Cell) → Exec α}
    (h : ∀ pairs, Keeps SameSaved 1 (next pairs)) (machine : Machine) :
    Ends ((popPairs >>= next) machine) (fun _ => Takes machine) fun _ => True := by
  rw [popPairs, bind_assoc]
  refine takes_of_popMark (fun cells => ?_) machine
  split
  · exact h _
  · exact (Keeps.fail _).bind_free h

variable (env : Environment)

/-- An operation that closes a bracket takes the stack before the mark back if it succeeds. -/
theorem takes_step (opcode : Opcode) {operation : Operation} (h : operation.Closes)
    (machine : Machine) :
    Ends (step env opcode operation machine) (fun _ => Takes machine) fun _ => True := by
  cases operation with
  | popMark => exact takes_of_popMark (fun _ => .pure _) machine
  | collect container =>
    cases container with
    | dict => exact takes_of_popPairs (fun pairs => (Keeps.pushNew _).then_running) machine
    | tuple | list | frozenSet =>
      exact takes_of_popMark (fun cells => (Keeps.pushNew _).then_running) machine
  | appends | addItems =>
    refine takes_of_popMark (fun cells => Keeps.topKind.bind_free fun kind => ?_) machine
    split
    · exact (Keeps.changeTop _).bind_free fun _ => .pure _
    · exact Keeps.then_running (.fail _)
  | setItems =>
    refine takes_of_popPairs (fun pairs => Keeps.topKind.bind_free fun kind => ?_) machine
    split
    · exact (Keeps.changeTop _).bind_free fun _ => .pure _
    · exact (Keeps.changeTop _).bind_free fun _ => .pure _
    · exact Keeps.then_running (.fail _)
  | applyConstant name =>
    refine takes_of_popMark (fun args => ?_) machine
    refine (allocates_constant env 0 name).keepsSaved.bind_free fun callee => ?_
    exact (keepsSaved_callCell env opcode callee args []).push_running
  | applyBracket =>
    refine takes_of_popMark (fun cells => ?_) machine
    split
    · exact (keepsSaved_callCell env opcode _ _ []).push_running
    · exact Keeps.then_running (.fail _)
  | _ => exact h.elim

/-- An operation that has nothing to do with brackets leaves the stacks set aside as they are. -/
theorem keepsSaved_step (opcode : Opcode) {operation : Operation} (hmark : operation ≠ .mark)
    (hpop : operation ≠ .pop) (hcloses : ¬ operation.Closes) :
    Keeps SameSaved 1 (step env opcode operation) := by
  cases operation with
  | mark => exact absurd rfl hmark
  | pop => exact absurd rfl hpop
  | popMark | collect | appends | addItems | setItems | applyConstant | applyBracket =>
    exact absurd trivial hcloses
  | constant name => exact (allocates_constant env 0 name).keepsSaved.push_running
  | stackConstant =>
    refine Keeps.popText.bind_free fun name => Keeps.popText.bind_free fun namespace_ => ?_
    exact (allocates_constant env 0 ⟨namespace_, name⟩).keepsSaved.push_running
  | apply =>
    refine Keeps.popArguments.bind_free fun args => Keeps.pop.bind_free fun callee => ?_
    exact (keepsSaved_callCell env opcode callee args []).push_running
  | applyKeywords =>
    refine Keeps.popKeywords.bind_free fun kwargs => Keeps.popArguments.bind_free fun args =>
      Keeps.pop.bind_free fun callee => ?_
    exact (keepsSaved_callCell env opcode callee args kwargs).push_running
  | persistent id => exact (allocates_persistent env 0 _).keepsSaved.push_running
  | stackPersistent =>
    refine Keeps.pop.bind_free fun cell => (Keeps.value cell).bind_free fun id => ?_
    exact (allocates_persistent env 0 id).keepsSaved.push_running
  | extension code =>
    simp only [step]
    split
    · exact (allocates_embed 0 _).keepsSaved.push_running
    · exact Keeps.then_running (.fail _)
  | _ => exact keeps_step env opcode (by trivial)

/-- What an operation does to the stacks that are set aside if it succeeds. -/
theorem shifts_step (opcode : Opcode) (operation : Operation) (machine : Machine) :
    Ends (step env opcode operation machine) (fun _ after => machine.Shifts after)
      fun _ => True := by
  have htakes : ∀ {after : Machine}, Takes machine after → machine.Shifts after :=
    fun ⟨below, h⟩ => .closed below h
  by_cases hmark : operation = .mark
  · subst hmark
    exact .opened rfl
  by_cases hpop : operation = .pop
  · subst hpop
    refine ends_get ?_
    split
    · exact (takes_of_popMark (fun _ => .pure _) machine).imp (fun _ _ => htakes) fun _ h => h
    · have hkeeps : Keeps SameSaved 1 (pop >>= fun _ => pure Status.running) :=
        Keeps.pop.bind_free fun _ => .pure _
      exact (hkeeps machine).imp (fun _ _ => .kept) fun _ _ => trivial
  by_cases hcloses : operation.Closes
  · exact (takes_step env opcode hcloses machine).imp (fun _ _ => htakes) fun _ h => h
  · exact (keepsSaved_step env opcode hmark hpop hcloses machine).imp (fun _ _ => .kept)
      fun _ _ => trivial

theorem shifts_execute {instruction : Instruction} {machine after : Machine} {status : Status}
    (h : execute env instruction machine = .ok status after) : machine.Shifts after := by
  have hstep := shifts_step env instruction.opcode instruction.operation
    { machine with created := machine.created + 1 }
  rw [step_of_execute env h] at hstep
  cases hstep with
  | kept h => exact .kept h
  | opened h => exact .opened h
  | closed below h => exact .closed below h

end Exec

/-! ## Runs inside a bracket -/

namespace Machine

variable {env : Environment} {machine after : Machine}

/-- The last of the stacks that are set aside stay as they are while there are enough of them. -/
theorem Shifts.suffix {base : List (List Cell)} (h : machine.Shifts after)
    (hbase : base <:+ machine.saved) (hfloor : base.length ≤ after.saved.length) :
    base <:+ after.saved := by
  cases h with
  | kept hsaved => rwa [hsaved]
  | opened hsaved =>
    rw [hsaved]
    exact hbase.trans (List.suffix_cons ..)
  | closed below hsaved =>
    rw [hsaved] at hbase
    rcases List.suffix_cons_iff.1 hbase with rfl | hsuffix
    · rw [List.length_cons] at hfloor
      omega
    · exact hsuffix

/-- Whether some instructions all succeed without an end of the program, and never leave fewer than
`floor` stacks set aside. -/
inductive RunsAbove (env : Environment) (floor : ℕ) :
    Machine → List Instruction → Machine → Prop
  | nil (machine : Machine) : RunsAbove env floor machine [] machine
  | cons {machine middle after : Machine} {instruction : Instruction} {rest : List Instruction}
      (h : Exec.execute env instruction machine = .ok .running middle)
      (hfloor : floor ≤ middle.saved.length) (hrest : RunsAbove env floor middle rest after) :
      RunsAbove env floor machine (instruction :: rest) after

theorem RunsAbove.suffix {base : List (List Cell)} {body : List Instruction}
    (h : RunsAbove env base.length machine body after) (hbase : base <:+ machine.saved) :
    base <:+ after.saved := by
  induction h with
  | nil => exact hbase
  | cons h hfloor _ ih => exact ih ((Exec.shifts_execute env h).suffix hbase hfloor)

/-- A slot that was there before is there still, and holds the same kind of content. -/
theorem RunsAbove.kind_slot {floor slot : ℕ} {body : List Instruction}
    (h : RunsAbove env floor machine body after) (hslot : slot < machine.slots.size) :
    slot < after.slots.size ∧ (after.slot slot).kind = (machine.slot slot).kind := by
  induction h with
  | nil => exact ⟨hslot, rfl⟩
  | @cons machine middle after instruction rest h _ _ ih =>
    have hends := Exec.mutatesTo_execute env instruction machine
    rw [h] at hends
    obtain ⟨hafter, hkind⟩ := ih (hslot.trans_le hends.size)
    refine ⟨hafter, hkind.trans ?_⟩
    by_cases htarget : ∃ mutation, machine.mutation? instruction.operation = some (.ref slot, mutation)
    · obtain ⟨mutation, hmutation⟩ := htarget
      exact (hends.changed slot mutation hmutation).2.kind_eq
    · rw [hends.kept slot hslot fun mutation hmutation => htarget ⟨mutation, hmutation⟩]

end Machine

/-! ## Closing a bracket -/

theorem length_pairCells (pairs : List (Cell × Cell)) :
    (pairCells pairs).length = 2 * pairs.length := by
  induction pairs with
  | nil => rfl
  | cons pair rest ih =>
    rw [pairCells_cons, List.length_cons, List.length_cons, ih, List.length_cons]
    omega

/-- An even number of cells can be paired up. -/
theorem exists_pairCells (cells : List Cell) (h : cells.length % 2 = 0) :
    ∃ pairs, pairCells pairs = cells := by
  fun_induction pairUp cells with
  | case1 => exact ⟨[], rfl⟩
  | case2 cell => cases h
  | case3 key value rest ih =>
    rw [List.length_cons, List.length_cons] at h
    obtain ⟨pairs, rfl⟩ := ih (by omega)
    exact ⟨(key, value) :: pairs, rfl⟩

theorem pairUp_of_odd {cells : List Cell} (h : cells.length % 2 = 1) : pairUp cells = none := by
  cases hpairs : pairUp cells with
  | none => rfl
  | some pairs =>
    rw [← pairCells_of_pairUp hpairs, length_pairCells] at h
    omega

namespace Machine

/-- The machine after a bracket was made a new container, on top of the stack before the mark. -/
def collected (start inside : Machine) (content : Content) : Machine :=
  { inside with
    stack := .ref inside.slots.size :: start.stack
    saved := start.saved
    slots := inside.slots.push content
    created := inside.created + 1 }

/-- The machine after a bracket was added to what a slot holds, which is now something else, with
the stack before the mark. -/
def replaced (start inside : Machine) (slot : ℕ) (content : Content) : Machine :=
  { inside with
    stack := start.stack
    saved := start.saved
    slots := inside.slots.setIfInBounds slot content
    created := inside.created + 1 }

/-- What becomes of a bracket that was opened in one machine and stands open in another, whichever
instruction closes it. -/
structure IsBracket (env : Environment) (start inside : Machine) : Prop where
  /-- The stack before the mark and those below it are as they were. -/
  saved : inside.saved = start.stack :: start.saved
  /-- What the stack top before the mark refers to is still of its kind. -/
  target : ∀ slot rest, start.stack = .ref slot :: rest →
    slot < inside.slots.size ∧ (inside.slot slot).kind = (start.slot slot).kind
  tuple : Exec.execute env ⟨.tuple, ()⟩ inside =
    .ok .running (start.collected inside (.tuple inside.stack.reverse))
  list : Exec.execute env ⟨.list, ()⟩ inside =
    .ok .running (start.collected inside (.list inside.stack.reverse.toArray))
  frozenSet : Exec.execute env ⟨.frozenSet, ()⟩ inside =
    .ok .running (start.collected inside (.frozenSet inside.stack.reverse))
  dict : inside.stack.length % 2 = 0 → ∃ pairs, pairCells pairs = inside.stack.reverse ∧
    Exec.execute env ⟨.dict, ()⟩ inside =
      .ok .running (start.collected inside (.dict pairs.toArray))
  /-- A key without a value is as if something lacked on the stack. -/
  dict_odd : inside.stack.length % 2 = 1 → ∃ after, Exec.execute env ⟨.dict, ()⟩ inside =
    .error (.execution .stackUnderflow (some "DICT")) after
  appends : ∀ slot rest, start.stack = .ref slot :: rest → (start.slot slot).kind = .list →
    ∃ items, inside.slot slot = .list items ∧
      Exec.execute env ⟨.appends, ()⟩ inside =
        .ok .running (start.replaced inside slot (.list (items ++ inside.stack.reverse)))
  addItems : ∀ slot rest, start.stack = .ref slot :: rest → (start.slot slot).kind = .set →
    ∃ items, inside.slot slot = .set items ∧
      Exec.execute env ⟨.addItems, ()⟩ inside =
        .ok .running (start.replaced inside slot (.set (items ++ inside.stack.reverse)))
  setItems : ∀ slot rest, start.stack = .ref slot :: rest → (start.slot slot).kind = .dict →
    inside.stack.length % 2 = 0 → ∃ old pairs, inside.slot slot = .dict old ∧
      pairCells pairs = inside.stack.reverse ∧
        Exec.execute env ⟨.setItems, ()⟩ inside =
          .ok .running (start.replaced inside slot (.dict (old ++ pairs)))
  /-- Pairs that are set on an instance are attributes. -/
  setItems_object : ∀ slot rest, start.stack = .ref slot :: rest →
    (start.slot slot).kind = .object → inside.stack.length % 2 = 0 →
      ∃ value pairs, inside.slot slot = .object value ∧ pairCells pairs = inside.stack.reverse ∧
        Exec.execute env ⟨.setItems, ()⟩ inside = .ok .running (start.replaced inside slot
          (.object { value with attributes := value.attributes ++ pairs }))
  setItems_odd : inside.stack.length % 2 = 1 → ∃ after,
    Exec.execute env ⟨.setItems, ()⟩ inside =
      .error (.execution .stackUnderflow (some "SETITEMS")) after
  popMark : Exec.execute env ⟨.popMark, ()⟩ inside = .ok .running
    { inside with stack := start.stack, saved := start.saved, created := inside.created + 1 }

end Machine

namespace Exec

variable {env : Environment} {opcode : Opcode} {machine : Machine} {below : List Cell}
  {saved : List (List Cell)}

theorem popMark_of_saved (h : machine.saved = below :: saved) :
    popMark machine = .ok machine.stack.reverse { machine with stack := below, saved } := by
  simp only [popMark, h]

theorem popPairs_of_saved (h : machine.saved = below :: saved) {pairs : List (Cell × Cell)}
    (hpairs : pairUp machine.stack.reverse = some pairs) :
    popPairs machine = .ok pairs { machine with stack := below, saved } := by
  rw [popPairs, bind_of_eq_ok (popMark_of_saved h), hpairs]
  rfl

theorem popPairs_of_odd (h : machine.saved = below :: saved)
    (hpairs : pairUp machine.stack.reverse = none) :
    popPairs machine =
      .error (.ofFailure .stackUnderflow) { machine with stack := below, saved } := by
  rw [popPairs, bind_of_eq_ok (popMark_of_saved h), hpairs]
  rfl

theorem topKind_of_ref {slot : ℕ} {rest : List Cell} {kind : Kind}
    (h : machine.stack = .ref slot :: rest) (hkind : (machine.slot slot).kind = kind) :
    topKind machine = .ok kind machine := by
  simp only [topKind, h, ← hkind]
  rfl

theorem changeTop_of_ref {slot : ℕ} {rest : List Cell} (h : machine.stack = .ref slot :: rest)
    (change : Content → Content) :
    changeTop change machine =
      .ok () { machine with slots := machine.slots.modify slot change } := by
  simp only [changeTop, h]

theorem step_popMark (h : machine.saved = below :: saved) :
    step env opcode .popMark machine =
      .ok .running { machine with stack := below, saved } := by
  rw [step, bind_of_eq_ok (popMark_of_saved h)]
  rfl

/-- Tuples, lists and frozen sets are made of brackets in the same way. -/
theorem step_collect (h : machine.saved = below :: saved) {container : Bracketed}
    {content : Content}
    (hcontent : container = .tuple ∧ content = .tuple machine.stack.reverse ∨
      container = .list ∧ content = .list machine.stack.reverse.toArray ∨
        container = .frozenSet ∧ content = .frozenSet machine.stack.reverse) :
    step env opcode (.collect container) machine = .ok .running
      { machine with
        stack := .ref machine.slots.size :: below
        saved
        slots := machine.slots.push content } := by
  rcases hcontent with ⟨rfl, rfl⟩ | ⟨rfl, rfl⟩ | ⟨rfl, rfl⟩
  all_goals
    rw [step, bind_of_eq_ok (popMark_of_saved h)]
    rfl

theorem step_collect_dict (h : machine.saved = below :: saved) {pairs : List (Cell × Cell)}
    (hpairs : pairUp machine.stack.reverse = some pairs) :
    step env opcode (.collect .dict) machine = .ok .running
      { machine with
        stack := .ref machine.slots.size :: below
        saved
        slots := machine.slots.push (.dict pairs.toArray) } := by
  rw [step, bind_of_eq_ok (popPairs_of_saved h hpairs)]
  rfl

/-- Lists and sets get the items of a bracket in the same way. -/
theorem step_extend {slot : ℕ} {rest : List Cell} (h : machine.saved = (.ref slot :: rest) :: saved)
    {operation : Operation}
    (hkind : operation = .appends ∧ (machine.slot slot).kind = .list ∨
      operation = .addItems ∧ (machine.slot slot).kind = .set) :
    step env opcode operation machine = .ok .running
      { machine with
        stack := .ref slot :: rest
        saved
        slots := machine.slots.modify slot (.extend machine.stack.reverse) } := by
  let inside : Machine := { machine with stack := .ref slot :: rest, saved }
  have hstack : inside.stack = .ref slot :: rest := rfl
  rcases hkind with ⟨rfl, hkind⟩ | ⟨rfl, hkind⟩
  all_goals
    have htop := topKind_of_ref hstack hkind
    rw [step, bind_of_eq_ok (popMark_of_saved h), bind_of_eq_ok htop]
    exact bind_of_eq_ok (changeTop_of_ref hstack (.extend machine.stack.reverse))

theorem step_setItems {slot : ℕ} {rest : List Cell}
    (h : machine.saved = (.ref slot :: rest) :: saved) {pairs : List (Cell × Cell)}
    (hpairs : pairUp machine.stack.reverse = some pairs)
    (hkind : (machine.slot slot).kind = .dict ∨ (machine.slot slot).kind = .object) :
    step env opcode .setItems machine = .ok .running
      { machine with
        stack := .ref slot :: rest
        saved
        slots := machine.slots.modify slot (.extendPairs pairs) } := by
  let inside : Machine := { machine with stack := .ref slot :: rest, saved }
  have hstack : inside.stack = .ref slot :: rest := rfl
  rcases hkind with hkind | hkind
  all_goals
    have htop := topKind_of_ref hstack hkind
    rw [step, bind_of_eq_ok (popPairs_of_saved h hpairs), bind_of_eq_ok htop]
    exact bind_of_eq_ok (changeTop_of_ref hstack (.extendPairs pairs))

/-- A key without a value is found before the target is looked at. -/
theorem step_of_odd (h : machine.saved = below :: saved)
    (hpairs : pairUp machine.stack.reverse = none) {operation : Operation}
    (hoperation : operation = .collect .dict ∨ operation = .setItems) :
    step env opcode operation machine =
      .error (.ofFailure .stackUnderflow) { machine with stack := below, saved } := by
  rcases hoperation with rfl | rfl
  all_goals
    rw [step, bind_of_eq_error (popPairs_of_odd h hpairs)]

end Exec

namespace Machine

open Exec

variable {env : Environment} {start inside : Machine}

/-- What a slot holds is replaced by what some change makes of it. -/
theorem replaced_eq {slot : ℕ} {rest : List Cell} (hstack : start.stack = .ref slot :: rest)
    (change : Content → Content) {content : Content} (hchange : change (inside.slot slot) = content) :
    start.replaced inside slot content =
      { inside with
        stack := .ref slot :: rest
        saved := start.saved
        slots := inside.slots.modify slot change
        created := inside.created + 1 } := by
  have hslots : inside.slots.setIfInBounds slot content = inside.slots.modify slot change := by
    apply Array.ext_getElem?
    intro index
    rw [Array.getElem?_setIfInBounds, Array.getElem?_modify, ← hchange, slot_eq]
    by_cases heq : slot = index
    · subst heq
      by_cases hslot : slot < inside.slots.size <;> simp [hslot]
    · simp [heq]
  rw [replaced, hstack, hslots]

/-- An instruction that closes a bracket and changes the slot below leaves there what the change makes
of it. -/
theorem execute_replaces (instruction : Instruction) {slot : ℕ} {rest : List Cell}
    (hstack : start.stack = .ref slot :: rest) (change : Content → Content) {content : Content}
    (hchange : change (inside.slot slot) = content)
    (hstep : step env instruction.opcode instruction.operation
        { inside with created := inside.created + 1 } = .ok .running
      { inside with
        stack := .ref slot :: rest
        saved := start.saved
        slots := inside.slots.modify slot change
        created := inside.created + 1 }) :
    execute env instruction inside = .ok .running (start.replaced inside slot content) := by
  rw [replaced_eq hstack change hchange]
  exact execute_of_step env instruction hstep

theorem isBracket (hsaved : inside.saved = start.stack :: start.saved)
    (htarget : ∀ slot rest, start.stack = .ref slot :: rest →
      slot < inside.slots.size ∧ (inside.slot slot).kind = (start.slot slot).kind) :
    start.IsBracket env inside := by
  -- Cells come in key and value pairs exactly if there are evenly many of them.
  have heven : inside.stack.length % 2 = 0 → ∃ pairs, pairCells pairs = inside.stack.reverse ∧
      pairUp inside.stack.reverse = some pairs := by
    intro h
    obtain ⟨pairs, hpairs⟩ := exists_pairCells inside.stack.reverse (by simpa using h)
    exact ⟨pairs, hpairs, hpairs ▸ pairUp_pairCells pairs⟩
  have hodd : inside.stack.length % 2 = 1 → pairUp inside.stack.reverse = none :=
    fun h => pairUp_of_odd (by simpa using h)
  -- An instruction counts itself before its step, which does not matter to brackets.
  have hcounted : ({ inside with created := inside.created + 1 } : Machine).saved =
    start.stack :: start.saved := hsaved
  exact {
    saved := hsaved
    target := htarget
    tuple := execute_of_step env ⟨.tuple, ()⟩ (step_collect hcounted (.inl ⟨rfl, rfl⟩))
    list := execute_of_step env ⟨.list, ()⟩ (step_collect hcounted (.inr (.inl ⟨rfl, rfl⟩)))
    frozenSet :=
      execute_of_step env ⟨.frozenSet, ()⟩ (step_collect hcounted (.inr (.inr ⟨rfl, rfl⟩)))
    dict := by
      intro h
      obtain ⟨pairs, hpairs, hup⟩ := heven h
      exact ⟨pairs, hpairs, execute_of_step env ⟨.dict, ()⟩ (step_collect_dict hcounted hup)⟩
    dict_odd := fun h =>
      ⟨_, execute_of_step_error env ⟨.dict, ()⟩ (step_of_odd hcounted (hodd h) (.inl rfl))⟩
    appends := by
      intro slot rest hstack hkind
      have hinside := (htarget slot rest hstack).2.trans hkind
      obtain ⟨items, hitems⟩ := Content.eq_list_of_kind hinside
      refine ⟨items, hitems, ?_⟩
      refine execute_replaces ⟨.appends, ()⟩ hstack (.extend inside.stack.reverse)
        (by rw [hitems]; rfl) ?_
      exact step_extend (hstack ▸ hcounted) (.inl ⟨rfl, hinside⟩)
    addItems := by
      intro slot rest hstack hkind
      have hinside := (htarget slot rest hstack).2.trans hkind
      obtain ⟨items, hitems⟩ := Content.eq_set_of_kind hinside
      refine ⟨items, hitems, ?_⟩
      refine execute_replaces ⟨.addItems, ()⟩ hstack (.extend inside.stack.reverse)
        (by rw [hitems]; rfl) ?_
      exact step_extend (hstack ▸ hcounted) (.inr ⟨rfl, hinside⟩)
    setItems := by
      intro slot rest hstack hkind heven'
      have hinside := (htarget slot rest hstack).2.trans hkind
      obtain ⟨old, hold⟩ := Content.eq_dict_of_kind hinside
      obtain ⟨pairs, hpairs, hup⟩ := heven heven'
      refine ⟨old, pairs, hold, hpairs, ?_⟩
      refine execute_replaces ⟨.setItems, ()⟩ hstack (.extendPairs pairs) (by rw [hold]; rfl) ?_
      exact step_setItems (hstack ▸ hcounted) hup (.inl hinside)
    setItems_object := by
      intro slot rest hstack hkind heven'
      have hinside := (htarget slot rest hstack).2.trans hkind
      obtain ⟨value, hvalue⟩ := Content.eq_object_of_kind hinside
      obtain ⟨pairs, hpairs, hup⟩ := heven heven'
      refine ⟨value, pairs, hvalue, hpairs, ?_⟩
      refine execute_replaces ⟨.setItems, ()⟩ hstack (.extendPairs pairs) (by rw [hvalue]; rfl) ?_
      exact step_setItems (hstack ▸ hcounted) hup (.inr hinside)
    setItems_odd := fun h =>
      ⟨_, execute_of_step_error env ⟨.setItems, ()⟩ (step_of_odd hcounted (hodd h) (.inr rfl))⟩
    popMark := execute_of_step env ⟨.popMark, ()⟩ (step_popMark hcounted) }

/-- Brackets keep to themselves, in the middle of any run.

A mark sets the stack aside.  Whatever succeeds from there on and leaves the bracket open, together
with all brackets around it, has no hold on the stacks that were set aside: when it is done and just
as many of them are left, they are the same, cell for cell.  So a bracket can be closed as if nothing
had happened in between: its items, in the order in which they were pushed, become one new container
on top of the stack before the mark, or are added to the container there, or are dropped. -/
theorem brackets_isolated (options : Options) (before : List Instruction) :
    let env := options.environment
    let start := options.machine.after env before
    ∃ opened, Exec.execute env ⟨.mark, ()⟩ start = .ok .running opened ∧
      ∀ body inside, opened.RunsAbove env (start.saved.length + 1) body inside →
        inside.saved.length = start.saved.length + 1 → start.IsBracket env inside := by
  intro env start
  have hstart : start.WellFormed :=
    wellFormed_of_program env (wellFormed_initial options.buffers) before
  refine ⟨_, execute_of_step env ⟨.mark, ()⟩ rfl, fun body inside hruns hlength => ?_⟩
  refine isBracket ?_ ?_
  · have hsuffix : start.stack :: start.saved <:+ inside.saved := hruns.suffix List.suffix_rfl
    exact (hsuffix.eq_of_length (by rw [hlength, List.length_cons])).symm
  · intro slot rest hstack
    have hslot : slot < start.slots.size := hstart.stack (.ref slot) (by simp [hstack])
    exact hruns.kind_slot hslot

/-- Inside the bracket another one is opened, and closed by an instruction that finds nothing else to
drop. -/
theorem brackets_isolated_inner_pop :
    let options : Options := {}
    let env := options.environment
    let start := options.machine.after env [⟨.emptyList, ()⟩]
    let body : List Instruction :=
      [⟨.pushNone, ()⟩, ⟨.mark, ()⟩, ⟨.newTrue, ()⟩, ⟨.pop, ()⟩, ⟨.pop, ()⟩]
    ∃ opened inside, Exec.execute env ⟨.mark, ()⟩ start = .ok .running opened ∧
      opened.RunsAbove env (start.saved.length + 1) body inside ∧
      inside.saved.length = start.saved.length + 1 ∧
      inside.stack = [.atom (.scalar .none)] ∧ start.IsBracket env inside := by
  intro options env start body
  obtain ⟨opened, hopened, hbracket⟩ := brackets_isolated options [⟨.emptyList, ()⟩]
  obtain rfl : { start with stack := [], saved := [start.stack], created := 2 } = opened := by
    cases hopened
    rfl
  let inside : Machine :=
    { start with stack := [.atom (.scalar .none)], saved := [start.stack], created := 7 }
  have hruns : RunsAbove env (start.saved.length + 1)
      { start with stack := [], saved := [start.stack], created := 2 } body inside :=
    .cons rfl le_rfl <| .cons rfl (by decide) <| .cons rfl (by decide) <| .cons rfl (by decide) <|
      .cons rfl le_rfl (.nil inside)
  exact ⟨_, inside, hopened, hruns, rfl, rfl, hbracket body inside hruns rfl⟩

end Machine

end Pickle
