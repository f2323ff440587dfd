import Pickle.Proofs.Machine.Embedding
import Pickle.Proofs.Machine.Expansion
import Pickle.Proofs.Machine.Growth

/-!
# Where atoms come from

Atoms are pushed by instructions, and from then on they are moved about: to the memo, into containers,
out of the machine to a routine and back again.  A routine that every host has makes new byte strings
and byte arrays, and otherwise hands on the atoms that it was given; the default constants are classes
and routines.  So whatever is good about all integers that a program pushes is good about all integers
that a machine has at any time and about those in the result (`Machine.allAtoms_of_run`).

`Exec.Carries` is this for actions, with what is good about their results, and `carries_step` goes
through the operations.  Taking apart and putting together are no different, since the parts of a tree
are the trees of cells.
-/

namespace Pickle

/-- The integer that an atom is, in either form. -/
def Atom.integer? : Atom → Option ℤ
  | .scalar (.short value) => some value.toInt
  | .scalar (.long value) => some value
  | _ => none

/-- Whether all atoms of a machine are good, on the stack, set aside or in slots. -/
structure Machine.AllAtoms (good : Atom → Prop) (machine : Machine) : Prop where
  stack : ∀ cell ∈ machine.stack, cell.All good
  saved : ∀ stack ∈ machine.saved, ∀ cell ∈ stack, cell.All good
  slots : ∀ content ∈ machine.slots, content.All good

/-- Whether everything but integers is good. -/
def Atom.AllOthers (good : Atom → Prop) : Prop := ∀ atom : Atom, atom.integer? = none → good atom

variable {good : Atom → Prop}

/-! ## Out of the machine -/

namespace Machine

variable {machine : Machine} {cell : Cell} {value : Value}

/-- The machine before its first instruction has no atoms. -/
theorem allAtoms_initial (good : Atom → Prop) (buffers : Option (List Bytes)) :
    (initial buffers).AllAtoms good where
  stack := by simp [initial]
  saved := by simp [initial]
  slots := by simp [initial]

theorem AllAtoms.content (h : machine.AllAtoms good) (hgood : Atom.AllOthers good)
    (hcell : cell.All good) : (machine.content cell).All good := by
  cases cell with
  | atom value => exact .ofAtom hcell
  | ref slot =>
    rcases Nat.lt_or_ge slot machine.slots.size with hslot | hslot
    · have hcontent : machine.content (.ref slot) = machine.slots[slot] := by
        simp [Machine.content, slot_eq, hslot]
      rw [hcontent]
      exact h.slots _ (Array.getElem_mem hslot)
    · have hcontent : machine.content (.ref slot) = .none := by
        simp [Machine.content, slot_eq, hslot]
      rw [hcontent]
      exact .ofAtom (hgood _ rfl)

theorem AllAtoms.of_stateAttributes (h : machine.AllAtoms good) (hgood : Atom.AllOthers good)
    {state : Cell} {pairs : List (Cell × Cell)} (hpairs : machine.stateAttributes state = some pairs) :
    ∀ cell ∈ pairCells pairs, cell.All good := by
  intro cell hcell
  obtain ⟨holder, hholder⟩ := exists_holder_of_stateAttributes hpairs cell hcell
  cases holder with
  | atom value => cases hholder
  | ref slot =>
    have hcontent : (machine.content (.ref slot)).All good := h.content hgood trivial
    exact hcontent.cells cell hholder

/-- A content that has an atom for a tree is this atom. -/
theorem eq_of_contentTree?_atom {tree? : Cell → Option Value} {content : Content} {atom : Atom}
    (h : contentTree? tree? content = some (.atom atom)) : content = .atom atom := by
  by_contra hne
  refine (isContainer_of_contentTree? h ?_ : (Value.atom atom).IsContainer)
  cases content with
  | atom value =>
    cases h
    exact hne rfl
  | _ => trivial

/-- The atoms of a tree are atoms of the machine. -/
theorem AllAtoms.tree {height : ℕ} (h : machine.AllAtoms good) (hgood : Atom.AllOthers good)
    (hcell : cell.All good) (htree : machine.tree? height cell = some value) :
    value.AllAtoms good := by
  induction height generalizing cell value with
  | zero =>
    cases cell with
    | atom atom =>
      cases htree
      exact Value.allAtoms_atom_iff.2 hcell
    | ref slot => cases htree
  | succ height ih =>
    cases cell with
    | atom atom =>
      cases htree
      exact Value.allAtoms_atom_iff.2 hcell
    | ref slot =>
      have hcontent : (machine.slot slot).All good := h.content hgood hcell
      refine .of_parts (fun part hpart => ?_) ?_
      · obtain ⟨trees, htrees, hsub⟩ := exists_trees_of_contentTree? htree
        obtain ⟨inner, hinner, hpart⟩ := htrees.exists_cell _ (hsub.subset hpart)
        exact ih (hcontent.cells inner hinner) hpart
      · rintro atom rfl
        exact hcontent.atom atom (eq_of_contentTree?_atom htree)

theorem AllAtoms.of_value (h : machine.AllAtoms good) (hgood : Atom.AllOthers good)
    (hcell : cell.All good) (hvalue : machine.value cell = .ok value) : value.AllAtoms good := by
  obtain ⟨height, htree⟩ := unfolds_of_value hvalue
  exact h.tree hgood hcell htree

end Machine

/-! ## Routines -/

section Routines

open Value (AllAtoms)

variable {value : Value} {args : List Value}

theorem allAtoms_of_other (hgood : Atom.AllOthers good) {atom : Atom} (h : atom.integer? = none) :
    (Value.atom atom).AllAtoms good := Value.allAtoms_atom_iff.2 (hgood atom h)

/-- The members of a set that is made of something are among its items. -/
theorem allAtoms_of_keys {items : List Value} {set : List Key}
    (h : Builtin.keys items = .ok set) (hitems : ∀ item ∈ items, item.AllAtoms good) :
    ∀ part ∈ Key.toValues set, part.AllAtoms good := by
  unfold Builtin.keys at h
  split at h
  · next keys hkeys =>
    cases h
    intro part hpart
    have hmem := (Value.subperm_toValues_setOf keys).subset hpart
    rw [Value.toValues_of_toKeys? items hkeys] at hmem
    exact hitems part hmem
  · cases h

theorem allAtoms_of_members {name : String} {set : List Key}
    (h : Builtin.members name args = .ok set) (hargs : ∀ arg ∈ args, arg.AllAtoms good) :
    ∀ part ∈ Key.toValues set, part.AllAtoms good := by
  unfold Builtin.members at h
  split at h
  · cases h
    simp [Key.toValues]
  · exact allAtoms_of_keys h fun _ => (hargs _ List.mem_cons_self).of_mem
  · exact allAtoms_of_keys h fun _ => (hargs _ List.mem_cons_self).of_mem
  · cases h
    exact fun _ => (hargs _ List.mem_cons_self).of_mem
  · cases h
    exact fun _ => (hargs _ List.mem_cons_self).of_mem
  · cases h
  · cases h

theorem allAtoms_of_make (hgood : Atom.AllOthers good) {routine : Builtin}
    (h : routine.make args = .ok value) (hargs : ∀ arg ∈ args, arg.AllAtoms good) :
    value.AllAtoms good := by
  cases routine with
  | set | frozenSet =>
    obtain ⟨set, hset, hvalue⟩ := exists_of_bind_eq_ok h
    cases hvalue
    exact .of_parts (allAtoms_of_members hset hargs) (by simp)
  | bytes | byteArray =>
    obtain ⟨_, _, hvalue⟩ := exists_of_bind_eq_ok h
    cases hvalue
    exact allAtoms_of_other hgood rfl
  | encode =>
    simp only [Builtin.make] at h
    split at h
    · cases h
      exact allAtoms_of_other hgood rfl
    · obtain ⟨_, _, hvalue⟩ := exists_of_bind_eq_ok h
      cases hvalue
      exact allAtoms_of_other hgood rfl
    · cases h
  | reconstructor => cases h

theorem allAtoms_fresh (name : ClassName) (hargs : ∀ arg ∈ args, arg.AllAtoms good) :
    (Value.object (.fresh name args [])).AllAtoms good := by
  refine .of_parts (fun part hpart => hargs part ?_) (by simp)
  simpa [Instance.fresh, Value.parts, Value.pairParts] using hpart

variable {host : Host}

theorem allAtoms_of_callPlain (hgood : Atom.AllOthers good) (hhost : host.IsBare) {callee : Value}
    (h : callPlain host callee args = .ok value) (hargs : ∀ arg ∈ args, arg.AllAtoms good) :
    value.AllAtoms good := by
  unfold callPlain at h
  split at h
  · cases h
    exact allAtoms_fresh _ hargs
  · exact allAtoms_of_make hgood h hargs
  · exact absurd h (hhost _ _ _ _)
  · cases h

theorem allAtoms_of_reconstruct (hgood : Atom.AllOthers good) (hhost : host.IsBare)
    {className state : Value} (h : reconstruct host className state = .ok value)
    (hstate : state.AllAtoms good) : value.AllAtoms good := by
  fun_induction reconstruct host className state with
  | case1 className inner base state hmaker ih =>
    exact ih h (hstate.of_mem (by simp [Value.parts]))
  | case3 className inner base state hmaker ih =>
    exact ih h (hstate.of_mem (by simp [Value.parts]))
  | case2 | case4 | case5 | case6 =>
    exact allAtoms_of_callPlain hgood hhost h fun _ => hstate.of_mem
  | case7 => exact allAtoms_of_callPlain hgood hhost h (by simp)
  | case8 => exact allAtoms_of_callPlain hgood hhost h (by simpa using hstate)

/-- What a routine makes has the atoms of its arguments, and others that are no integers. -/
theorem allAtoms_of_callable (hgood : Atom.AllOthers good) (hhost : host.IsBare)
    {callable : Callable} {kwargs : List (String × Value)}
    (h : callable.run host args kwargs = .ok value) (hargs : ∀ arg ∈ args, arg.AllAtoms good) :
    value.AllAtoms good := by
  unfold Callable.run at h
  split at h
  · exact absurd h (hhost _ _ _ _)
  · cases h
  · split at h
    · exact allAtoms_of_reconstruct hgood hhost h (hargs _ (by simp))
    · cases h
  · exact allAtoms_of_make hgood h hargs

end Routines

/-! ## Contents -/

namespace Content.All

variable {content : Content}

/-- A container is good if its cells are. -/
theorem of_cells (h : ∀ cell ∈ content.cells, cell.All good)
    (hcontent : ∀ value, content ≠ .atom value) : content.All good :=
  ⟨h, fun value heq => absurd heq (hcontent value)⟩

theorem extend {cells : List Cell} (h : content.All good) (hcells : ∀ cell ∈ cells, cell.All good) :
    (content.extend cells).All good := by
  refine ⟨fun cell hcell => ?_, fun value heq => h.atom value ?_⟩
  · exact (Content.mem_or_mem_of_extend hcell).elim (h.cells cell) (hcells cell)
  · cases content <;> first | exact heq | cases heq

theorem extendPairs {pairs : List (Cell × Cell)} (h : content.All good)
    (hpairs : ∀ cell ∈ pairCells pairs, cell.All good) : (content.extendPairs pairs).All good := by
  refine ⟨fun cell hcell => ?_, fun value heq => h.atom value ?_⟩
  · exact (Content.mem_or_mem_of_extendPairs hcell).elim (h.cells cell) (hpairs cell)
  · cases content <;> first | exact heq | cases heq

theorem setState {state : Cell} (h : content.All good) (hstate : state.All good) :
    (content.setState state).All good := by
  refine ⟨fun cell hcell => ?_, fun value heq => h.atom value ?_⟩
  · rcases Content.mem_or_eq_of_setState hcell with hcell | rfl
    · exact h.cells cell hcell
    · exact hstate
  · cases content <;> first | exact heq | cases heq

theorem makeReadonly (hgood : Atom.AllOthers good) (h : content.All good) :
    content.makeReadonly.All good := by
  unfold Content.makeReadonly
  split
  · exact .ofAtom (hgood _ rfl)
  · exact h

end Content.All

/-! ## Actions -/

/-- Whether an operation that stops does so with good atoms. -/
def Status.All (good : Atom → Prop) : Status → Prop
  | .running => True
  | .halted value => value.AllAtoms good

namespace Exec

variable {α β : Type} {fine : α → Prop}

/-- Whether an action that succeeds keeps all atoms good and has a good result. -/
def Carries (good : Atom → Prop) (action : Exec α) (fine : α → Prop) : Prop :=
  ∀ machine, machine.AllAtoms good →
    Ends (action machine) (fun value after => after.AllAtoms good ∧ fine value) fun _ => True

namespace Carries

theorem pure {value : α} (h : fine value) : Carries good (Pure.pure value) fine :=
  fun _ hmachine => ⟨hmachine, h⟩

theorem fail (failure : Failure) : Carries good (Exec.fail failure) fine := fun _ _ => trivial

theorem ofExcept {result : Except Error α} (h : ∀ value, result = .ok value → fine value) :
    Carries good (Exec.ofExcept result) fine := by
  cases result with
  | ok value => exact pure (h value rfl)
  | error error => exact fun _ _ => trivial

theorem bind {action : Exec α} {next : α → Exec β} {done : β → Prop}
    (hfirst : Carries good action fine) (hsecond : ∀ value, fine value →
      Carries good (next value) done) : Carries good (action >>= next) done := by
  refine fun machine hmachine => ((hfirst machine hmachine).imp ?_ fun _ h => h).bind
  exact fun value middle ⟨hmiddle, hfine⟩ => hsecond value hfine middle hmiddle

theorem then_running {action : Exec Unit} (h : Carries good action fun _ => True)
    {status : Status → Prop} (hstatus : status .running) :
    Carries good (action >>= fun _ => Pure.pure Status.running) status :=
  h.bind fun _ _ => pure hstatus

theorem get : Carries good (MonadStateOf.get : Exec Machine) fun machine =>
    machine.AllAtoms good := fun _ hmachine => ⟨hmachine, hmachine⟩

theorem mapM {γ : Type} {action : γ → Exec α} {items : List γ}
    (h : ∀ item ∈ items, Carries good (action item) fine) :
    Carries good (items.mapM action) fun values => ∀ value ∈ values, fine value := by
  induction items with
  | nil => exact pure (by simp)
  | cons item rest ih =>
    obtain ⟨hitem, hrest⟩ := List.forall_mem_cons.1 h
    rw [List.mapM_cons]
    refine hitem.bind fun value hvalue => (ih hrest).bind fun values hvalues => pure ?_
    exact List.forall_mem_cons.2 ⟨hvalue, hvalues⟩

/-! ### The stack -/

theorem push {cell : Cell} (h : cell.All good) : Carries good (Exec.push cell) fun _ => True :=
  fun _ hmachine =>
    ⟨⟨List.forall_mem_cons.2 ⟨h, hmachine.stack⟩, hmachine.saved, hmachine.slots⟩, trivial⟩

theorem pushRef (slot : ℕ) : Carries good (Exec.push (.ref slot)) fun _ => True := push trivial

theorem pushAtom {atom : Atom} (h : good atom) :
    Carries good (Exec.push (.atom atom)) fun _ => True := push h

theorem pop : Carries good Exec.pop (Cell.All good) := by
  intro machine hmachine
  unfold Exec.pop
  split
  · next cell rest hstack =>
    obtain ⟨hcell, hrest⟩ := List.forall_mem_cons.1 (hstack ▸ hmachine.stack)
    exact ⟨⟨hrest, hmachine.saved, hmachine.slots⟩, hcell⟩
  · trivial

theorem popMany (count : ℕ) :
    Carries good (Exec.popMany count) fun cells => ∀ cell ∈ cells, cell.All good := by
  induction count with
  | zero => exact pure (by simp)
  | succ count ih =>
    refine pop.bind fun last hlast => ih.bind fun cells hcells => pure ?_
    simpa [or_imp, forall_and] using ⟨hcells, hlast⟩

theorem mark : Carries good Exec.mark fun _ => True := fun _ hmachine =>
  ⟨⟨by simp, List.forall_mem_cons.2 ⟨hmachine.stack, hmachine.saved⟩, hmachine.slots⟩, trivial⟩

theorem popMark : Carries good Exec.popMark fun cells => ∀ cell ∈ cells, cell.All good := by
  intro machine hmachine
  unfold Exec.popMark
  split
  · next below saved hsaved =>
    obtain ⟨hbelow, hrest⟩ := List.forall_mem_cons.1 (hsaved ▸ hmachine.saved)
    refine ⟨⟨hbelow, hrest, hmachine.slots⟩, fun cell hcell => ?_⟩
    exact hmachine.stack cell (List.mem_reverse.1 hcell)
  · trivial

theorem kind (cell : Cell) : Carries good (Exec.kind cell) fun _ => True :=
  fun _ hmachine => ⟨hmachine, trivial⟩

theorem topKind : Carries good Exec.topKind fun _ => True := by
  intro machine hmachine
  unfold Exec.topKind
  split
  · exact ⟨hmachine, trivial⟩
  · trivial

/-! ### Slots -/

theorem alloc {content : Content} (h : content.All good) :
    Carries good (Exec.alloc content) (Cell.All good) := by
  intro machine hmachine
  refine ⟨⟨hmachine.stack, hmachine.saved, fun other hother => ?_⟩, trivial⟩
  rcases Array.mem_push.1 hother with hother | rfl
  · exact hmachine.slots other hother
  · exact h

theorem pushNew {content : Content} (h : content.All good) :
    Carries good (Exec.pushNew content) fun _ => True :=
  (alloc h).bind fun _ hcell => push hcell

theorem changeTop {change : Content → Content}
    (h : ∀ content : Content, content.All good → (change content).All good) :
    Carries good (Exec.changeTop change) fun _ => True := by
  intro machine hmachine
  unfold Exec.changeTop
  split
  · next slot rest hstack =>
    refine ⟨⟨hmachine.stack, hmachine.saved, fun content hcontent => ?_⟩, trivial⟩
    obtain ⟨i, hi, rfl⟩ := Array.mem_iff_getElem.1 hcontent
    rw [Array.getElem_modify]
    simp only [Array.size_modify] at hi ⊢
    have hold : machine.slots[i].All good := hmachine.slots _ (Array.getElem_mem _)
    split
    · exact h _ hold
    · exact hold
  · next value rest hstack =>
    obtain ⟨hvalue, hrest⟩ := List.forall_mem_cons.1 (hstack ▸ hmachine.stack)
    split
    · next changed heq =>
      have hcontent : (Content.atom value).All good := .ofAtom hvalue
      refine ⟨⟨List.forall_mem_cons.2 ⟨?_, hrest⟩, hmachine.saved, hmachine.slots⟩, trivial⟩
      exact (h _ hcontent).atom changed heq
    · exact ⟨hmachine, trivial⟩
  · trivial

theorem shareTop : Carries good Exec.shareTop fun _ => True := by
  intro machine hmachine
  unfold Exec.shareTop
  split
  · exact ⟨hmachine, trivial⟩
  · next value rest hstack =>
    obtain ⟨hvalue, hrest⟩ := List.forall_mem_cons.1 (hstack ▸ hmachine.stack)
    refine ⟨⟨List.forall_mem_cons.2 ⟨trivial, hrest⟩, hmachine.saved, fun other hother => ?_⟩,
      trivial⟩
    rcases Array.mem_push.1 hother with hother | rfl
    · exact hmachine.slots other hother
    · exact .ofAtom hvalue
  · trivial

theorem fetch (index : ℕ) : Carries good (Exec.fetch index) fun _ => True := by
  refine get.bind fun machine _ => ?_
  split
  · exact push trivial
  · exact fail _

theorem memoize (index : ℕ) : Carries good (Exec.memoize index) fun _ => True :=
  shareTop.bind fun _ _ _ hmachine =>
    ⟨⟨hmachine.stack, hmachine.saved, hmachine.slots⟩, trivial⟩

/-- Taking values apart is one of the actions that carry atoms. -/
theorem isLaw : EmbeddingLaw good (Carries good) where
  pure := pure
  bind := bind
  enter levels := by
    intro machine hmachine
    cases levels with
    | zero => trivial
    | succ levels => exact ⟨⟨hmachine.stack, hmachine.saved, hmachine.slots⟩, trivial⟩
  alloc := alloc

theorem push_running {action : Exec Cell} (h : Carries good action (Cell.All good))
    {status : Status → Prop} (hstatus : status .running) :
    Carries good (action >>= fun cell => Exec.push cell >>= fun _ => Pure.pure Status.running)
      status := h.bind fun _ hcell => (push hcell).then_running hstatus

end Carries

/-! ### Operands -/

theorem carries_content (hgood : Atom.AllOthers good) {cell : Cell} (h : cell.All good) :
    Carries good (content cell) (Content.All good) :=
  fun _ hmachine => ⟨hmachine, hmachine.content hgood h⟩

theorem carries_value (hgood : Atom.AllOthers good) {cell : Cell} (h : cell.All good) :
    Carries good (value cell) (Value.AllAtoms good) := by
  intro machine hmachine
  unfold Exec.value
  cases hvalue : machine.value cell with
  | ok value => exact ⟨hmachine, hmachine.of_value hgood h hvalue⟩
  | error failure => trivial

theorem carries_popText (hgood : Atom.AllOthers good) : Carries good popText fun _ => True := by
  refine Carries.pop.bind fun cell hcell => (carries_content hgood hcell).bind fun content _ => ?_
  split
  · exact .pure trivial
  · exact .fail _

theorem carries_popArguments (hgood : Atom.AllOthers good) :
    Carries good popArguments fun cells => ∀ cell ∈ cells, cell.All good := by
  refine Carries.pop.bind fun cell hcell => (carries_content hgood hcell).bind fun content h => ?_
  split
  · exact .pure h.cells
  · exact .fail _

theorem carries_popKeywords (hgood : Atom.AllOthers good) :
    Carries good popKeywords fun kwargs => ∀ cell ∈ kwargs.map Prod.snd, cell.All good := by
  refine Carries.pop.bind fun cell hcell => (carries_content hgood hcell).bind fun content h => ?_
  split
  · refine Carries.get.bind fun machine _ => .ofExcept fun kwargs hkwargs => ?_
    rw [Machine.snd_of_keywords hkwargs]
    exact fun cell hcell => h.cells cell (snd_mem_pairCells hcell)
  · exact .pure (by simp)
  · exact .fail _

theorem carries_popPairs :
    Carries good popPairs fun pairs => ∀ cell ∈ pairCells pairs, cell.All good := by
  refine Carries.popMark.bind fun cells hcells => ?_
  split
  · next pairs hpairs =>
    refine .pure ?_
    rw [pairCells_of_pairUp hpairs]
    exact hcells
  · exact .fail _

/-! ### Operations -/

variable {env : Environment}

theorem carries_constant (hconstants : ∀ name, (env.constants.resolve name).AllAtoms good)
    (name : QualifiedName) : Carries good (constant env name) (Cell.All good) :=
  Carries.isLaw.embed (hconstants name)

/-- A call carries the atoms of its arguments, to an instance or to what a routine makes of them. -/
theorem carries_callCell (hgood : Atom.AllOthers good) (henv : env.IsBare) (opcode : Opcode)
    {callee : Cell} {args : List Cell} {kwargs : List (String × Cell)} (hcallee : callee.All good)
    (hargs : ∀ cell ∈ args, cell.All good) (hkwargs : ∀ cell ∈ kwargs.map Prod.snd, cell.All good) :
    Carries good (callCell env opcode callee args kwargs) (Cell.All good) := by
  refine (carries_content hgood hcallee).bind fun content _ => ?_
  split
  · refine .alloc (.of_cells (fun cell hcell => ?_) (by simp))
    simp only [Content.cells, Instance.fresh, pairCells, List.flatMap_nil, Option.toList_none,
      List.append_nil, List.mem_append] at hcell
    exact hcell.elim (hargs cell) (hkwargs cell)
  · refine (Carries.mapM fun cell hcell => carries_value hgood (hargs cell hcell)).bind
      fun values hvalues => ?_
    have hkeyword : ∀ pair ∈ kwargs,
        Carries good (do return (pair.1, ← value pair.2)) fun _ => True := fun pair hpair =>
      (carries_value hgood (hkwargs _ (List.mem_map_of_mem hpair))).bind fun _ _ => .pure trivial
    refine (Carries.mapM hkeyword).bind fun keywords _ => ?_
    refine (Carries.ofExcept fun result hresult => ?_).bind fun result => Carries.isLaw.embed
    exact allAtoms_of_callable hgood henv.host hresult hvalues
  · exact .fail _

theorem carries_persistent (henv : env.IsBare) (id : Value) :
    Carries good (persistent env id) (Cell.All good) := by
  unfold persistent
  rw [henv.loader]
  exact .fail _

/-- Every operation keeps atoms good, if it pushes none that is not. -/
theorem carries_step (hgood : Atom.AllOthers good) (henv : env.IsBare)
    (hconstants : ∀ name, (env.constants.resolve name).AllAtoms good) (opcode : Opcode)
    {operation : Operation} (hpush : ∀ value, operation = .push value → good value) :
    Carries good (step env opcode operation) (Status.All good) := by
  cases operation with
  | stop =>
    simp only [step]
    exact Carries.pop.bind fun cell hcell => (carries_value hgood hcell).bind fun _ => .pure
  | skip => exact .pure trivial
  | mark => exact Carries.mark.then_running trivial
  | popMark =>
    simp only [step]
    exact Carries.popMark.bind fun _ _ => .pure trivial
  | pop =>
    simp only [step]
    refine Carries.get.bind fun machine _ => ?_
    split
    · exact Carries.popMark.bind fun _ _ => .pure trivial
    · exact Carries.pop.bind fun _ _ => .pure trivial
  | dup =>
    simp only [step]
    exact Carries.shareTop.bind fun slot _ =>
      (Carries.pushRef slot).then_running trivial
  | fetch index => exact (Carries.fetch index).then_running trivial
  | memoize index =>
    cases index with
    | some index => exact (Carries.memoize index).then_running trivial
    | none =>
      simp only [step]
      exact Carries.get.bind fun machine _ =>
        (Carries.memoize machine.nextIndex).then_running trivial
  | push value => exact (Carries.pushAtom (hpush value rfl)).then_running trivial
  | pushString value =>
    -- A string is pushed as text or as bytes, and neither is an integer.
    have hpushOther : ∀ atom : Atom, atom.integer? = none →
        Carries good (push (.atom atom)) fun _ => True :=
      fun atom hatom => .pushAtom (hgood atom hatom)
    simp only [step]
    split
    · split
      · exact (hpushOther _ rfl).then_running trivial
      · exact Carries.then_running (.fail _) trivial
    · exact (hpushOther _ rfl).then_running trivial
  | tupleOf count =>
    simp only [step]
    refine (Carries.popMany count).bind fun cells hcells => ?_
    have htuple : (Content.tuple cells).All good := .of_cells hcells (by simp)
    exact (Carries.pushNew htuple).then_running trivial
  | pushEmpty container =>
    cases container <;>
      exact (Carries.pushNew
        (.of_cells (by simp [Content.cells, pairCells]) (by simp))).then_running trivial
  | collect container =>
    cases container with
    | dict =>
      simp only [step]
      refine carries_popPairs.bind fun pairs hpairs => ?_
      exact (Carries.pushNew
        (.of_cells (by simpa [Content.cells] using hpairs) (by simp))).then_running trivial
    | tuple | list | frozenSet =>
      simp only [step]
      refine Carries.popMark.bind fun cells hcells => ?_
      exact (Carries.pushNew
        (.of_cells (by simpa [Content.cells] using hcells) (by simp))).then_running trivial
  | append =>
    simp only [step]
    refine Carries.pop.bind fun cell hcell => Carries.topKind.bind fun kind _ => ?_
    split
    · exact (Carries.changeTop fun content h =>
        h.extend (List.forall_mem_singleton.2 hcell)).then_running trivial
    · exact (Carries.kind cell).bind fun _ _ => Carries.then_running (.fail _) trivial
  | appends | addItems =>
    simp only [step]
    refine Carries.popMark.bind fun cells hcells => Carries.topKind.bind fun kind _ => ?_
    split
    · exact (Carries.changeTop fun content h => h.extend hcells).then_running trivial
    · exact Carries.then_running (.fail _) trivial
  | setItem =>
    simp only [step]
    refine Carries.pop.bind fun value hvalue => Carries.pop.bind fun key hkey => ?_
    refine Carries.topKind.bind fun kind _ => ?_
    have hpair : ∀ cell ∈ pairCells [(key, value)], cell.All good := by
      simpa [pairCells] using ⟨hkey, hvalue⟩
    split
    · exact (Carries.changeTop fun content h => h.extendPairs hpair).then_running trivial
    · exact (Carries.changeTop fun content h => h.extendPairs hpair).then_running trivial
    · exact (Carries.kind key).bind fun _ _ => Carries.then_running (.fail _) trivial
  | setItems =>
    simp only [step]
    refine carries_popPairs.bind fun pairs hpairs => Carries.topKind.bind fun kind _ => ?_
    split
    · exact (Carries.changeTop fun content h => h.extendPairs hpairs).then_running trivial
    · exact (Carries.changeTop fun content h => h.extendPairs hpairs).then_running trivial
    · exact Carries.then_running (.fail _) trivial
  | constant name => exact (carries_constant hconstants name).push_running trivial
  | stackConstant =>
    simp only [step]
    refine (carries_popText hgood).bind fun name _ => (carries_popText hgood).bind
      fun namespace_ _ => ?_
    exact (carries_constant hconstants ⟨namespace_, name⟩).push_running trivial
  | apply =>
    simp only [step]
    refine (carries_popArguments hgood).bind fun args hargs => Carries.pop.bind
      fun callee hcallee => ?_
    exact (carries_callCell hgood henv opcode hcallee hargs (by simp)).push_running trivial
  | applyKeywords =>
    simp only [step]
    refine (carries_popKeywords hgood).bind fun kwargs hkwargs => ?_
    refine (carries_popArguments hgood).bind fun args hargs => Carries.pop.bind
      fun callee hcallee => ?_
    exact (carries_callCell hgood henv opcode hcallee hargs hkwargs).push_running trivial
  | applyConstant name =>
    simp only [step]
    refine Carries.popMark.bind fun args hargs => (carries_constant hconstants name).bind
      fun callee hcallee => ?_
    exact (carries_callCell hgood henv opcode hcallee hargs (by simp)).push_running trivial
  | applyBracket =>
    simp only [step]
    refine Carries.popMark.bind fun cells hcells => ?_
    split
    · obtain ⟨hcallee, hargs⟩ := List.forall_mem_cons.1 hcells
      exact (carries_callCell hgood henv opcode hcallee hargs (by simp)).push_running trivial
    · exact Carries.then_running (.fail _) trivial
  | build =>
    simp only [step]
    refine Carries.pop.bind fun state hstate => Carries.get.bind fun machine hmachine => ?_
    refine Carries.topKind.bind fun kind _ => ?_
    have hattributes : ∀ pairs, machine.stateAttributes state = some pairs →
        ∀ cell ∈ pairCells pairs, cell.All good :=
      fun pairs => hmachine.of_stateAttributes hgood
    split
    · next hpairs =>
      exact (Carries.changeTop fun content h =>
        h.extendPairs (hattributes _ hpairs)).then_running trivial
    · exact (Carries.changeTop fun content h => h.setState hstate).then_running trivial
    · next hpairs =>
      exact (Carries.changeTop fun content h =>
        h.extendPairs (hattributes _ hpairs)).then_running trivial
    · exact (Carries.kind state).bind fun _ _ => Carries.then_running (.fail _) trivial
  | persistent id => exact (carries_persistent henv (.str id)).push_running trivial
  | stackPersistent =>
    simp only [step]
    refine Carries.pop.bind fun cell hcell => (carries_value hgood hcell).bind fun id _ => ?_
    exact (carries_persistent henv id).push_running trivial
  | extension code =>
    simp only [step, henv.extensions]
    exact Carries.then_running (.fail _) trivial
  | nextBuffer =>
    simp only [step]
    refine Carries.get.bind fun machine _ => ?_
    split
    · exact Carries.then_running (.fail _) trivial
    · exact Carries.then_running (.fail _) trivial
    · next buffer rest _ =>
      have hmodify : Carries good (modify fun machine : Machine =>
          { machine with buffers := some rest }) fun _ => True :=
        fun _ hmachine => ⟨⟨hmachine.stack, hmachine.saved, hmachine.slots⟩, trivial⟩
      exact hmodify.bind fun _ _ =>
        (Carries.pushAtom (hgood (.byteArray { bytes := buffer }) rfl)).then_running trivial
  | makeReadonly =>
    simp only [step]
    refine Carries.topKind.bind fun kind _ => ?_
    split
    · exact (Carries.changeTop fun content h => h.makeReadonly hgood).then_running trivial
    · exact .pure trivial
    · exact Carries.then_running (.fail _) trivial

end Exec

/-! ## Runs -/

namespace Machine

/-- The atoms of a result are good if all atoms are that the program pushes and that the machine has,
and all others but integers. -/
theorem allAtoms_of_run {env : Environment} (hgood : Atom.AllOthers good) (henv : env.IsBare)
    (hconstants : ∀ name, (env.constants.resolve name).AllAtoms good) {program : List Instruction}
    (hprogram : ∀ instruction ∈ program, ∀ value, instruction.operation = .push value → good value)
    {machine : Machine} (hmachine : machine.AllAtoms good) {value : Value}
    (h : machine.run env program = .ok value) : value.AllAtoms good := by
  induction program generalizing machine with
  | nil => cases h
  | cons instruction rest ih =>
    obtain ⟨hpush, hrest⟩ := List.forall_mem_cons.1 hprogram
    have hcounted : ({ machine with created := machine.created + 1 } : Machine).AllAtoms good :=
      ⟨hmachine.stack, hmachine.saved, hmachine.slots⟩
    have hstep := Exec.carries_step hgood henv hconstants instruction.opcode hpush _ hcounted
    rw [run] at h
    cases hexecute : Exec.execute env instruction machine with
    | error error after => simp [hexecute] at h
    | ok status after =>
      rw [Exec.step_of_execute env hexecute] at hstep
      obtain ⟨hafter, hstatus⟩ := hstep
      cases status with
      | running =>
        simp only [hexecute] at h
        exact ih hrest hafter h
      | halted result =>
        simp only [hexecute] at h
        cases h
        exact hstatus

end Machine

end Pickle
