import Pickle.Proofs.Machine.Aliasing
import Pickle.Proofs.Machine.Renaming

/-!
# Slots that one cell refers to

A slot that one cell on the stack refers to, and nothing else that an instruction can get at, stays
such a slot until the reference is copied.  Nothing but a copy of the stack top and a read of the
memo puts a reference on the stack that was somewhere before; what is in a container does not come
back.  So when the one cell goes into a container, no reference to the slot is on the stack any
more, and none will be.

`Machine.IsLone` counts the references on the stack together with those that an action has in its
hands, until one is stored.  `Exec.KeepsLone` is the law for actions, and `IsLone.of_execute` the
one for instructions.
-/

namespace Pickle

namespace Machine

/-- The cells on the stack and on the stacks that marks have set aside. -/
def stacked (machine : Machine) : List Cell := machine.stack ++ machine.saved.flatten

/-- A machine with the atom on top moved into a new slot, above the rest of the stack. -/
def shareAtom (machine : Machine) (value : Atom) (rest : List Cell) : Machine :=
  { machine with
    stack := .ref machine.slots.size :: rest, slots := machine.slots.push (.atom value) }

/-- Whether some slot holds a reference to a slot. -/
def Stores (machine : Machine) (slot : ℕ) : Prop :=
  ∃ content ∈ machine.slots, .ref slot ∈ content.cells

/-- Whether there is a slot to which one cell refers at most, of those on the stack and those in
hand, and none of those on the stack once a reference to it is stored. -/
structure IsLone (machine : Machine) (slot : ℕ) (held : List Cell) : Prop where
  lt : slot < machine.slots.size
  count : machine.Stores slot ∧ machine.stacked.count (.ref slot) = 0 ∨
    ¬ machine.Stores slot ∧ machine.stacked.count (.ref slot) + held.count (.ref slot) ≤ 1

variable {machine after : Machine} {slot : ℕ} {held cells : List Cell}

theorem stores_of_mem_content {cell : Cell} (h : .ref slot ∈ (machine.content cell).cells) :
    machine.Stores slot := by
  cases cell with
  | atom value => cases h
  | ref index =>
    rw [content, slot_eq] at h
    cases hcontent : machine.slots[index]? with
    | none =>
      rw [hcontent] at h
      cases h
    | some content =>
      rw [hcontent] at h
      exact ⟨content, Array.mem_of_getElem? hcontent, h⟩

namespace IsLone

/-- Cells that are taken off the stack are in hand, and may be dropped. -/
theorem move (h : machine.IsLone slot held) (hslots : after.slots = machine.slots)
    (hstacked : after.stacked.count (.ref slot) ≤ machine.stacked.count (.ref slot))
    (hcount : after.stacked.count (.ref slot) + cells.count (.ref slot) ≤
      machine.stacked.count (.ref slot) + held.count (.ref slot)) :
    after.IsLone slot cells := by
  have hstores : after.Stores slot ↔ machine.Stores slot := by rw [Stores, Stores, hslots]
  refine ⟨hslots ▸ h.lt, ?_⟩
  rw [hstores]
  rcases h.count with ⟨hstored, hzero⟩ | ⟨hstored, hone⟩
  · exact .inl ⟨hstored, by omega⟩
  · exact .inr ⟨hstored, by omega⟩

theorem drop (h : machine.IsLone slot held)
    (hcells : cells.count (.ref slot) ≤ held.count (.ref slot)) : machine.IsLone slot cells :=
  h.move rfl le_rfl (Nat.add_le_add_left hcells _)

/-- Copies of cells that are stored may be taken in hand. -/
theorem borrow (h : machine.IsLone slot held) (hcells : .ref slot ∈ cells → machine.Stores slot) :
    machine.IsLone slot (cells ++ held) := by
  refine ⟨h.lt, h.count.imp id fun ⟨hstored, hone⟩ => ⟨hstored, ?_⟩⟩
  rw [List.count_append, List.count_eq_zero.2 fun hmem => hstored (hcells hmem), Nat.zero_add]
  exact hone

/-- Slots that are added may hold what is in hand, and so may slots that are changed. -/
theorem store (h : machine.IsLone slot held) (hsize : machine.slots.size ≤ after.slots.size)
    (hstacked : after.stacked = machine.stacked)
    (hstores : after.Stores slot → machine.Stores slot ∨ .ref slot ∈ held) :
    after.IsLone slot [] := by
  refine ⟨h.lt.trans_le hsize, ?_⟩
  rw [hstacked, List.count_nil]
  by_cases hafter : after.Stores slot
  · refine .inl ⟨hafter, ?_⟩
    rcases h.count with ⟨-, hzero⟩ | ⟨hstored, hone⟩
    · exact hzero
    · have hheld := List.count_pos_iff.2 ((hstores hafter).resolve_left hstored)
      omega
  · exact .inr ⟨hafter, by rcases h.count with ⟨-, hzero⟩ | ⟨-, hone⟩ <;> omega⟩

/-- Slots that are added and do not refer to the slot. -/
theorem grow (h : machine.IsLone slot held) {new : Array Content} {created : ℕ}
    (hnew : ∀ content ∈ new, .ref slot ∉ content.cells) :
    ({ machine with slots := machine.slots ++ new, created } : Machine).IsLone slot held := by
  have hstores : ({ machine with slots := machine.slots ++ new, created } : Machine).Stores slot ↔
      machine.Stores slot := by
    simp only [Stores, Array.mem_append]
    constructor
    · rintro ⟨content, hcontent | hcontent, hmem⟩
      · exact ⟨content, hcontent, hmem⟩
      · exact absurd hmem (hnew content hcontent)
    · rintro ⟨content, hcontent, hmem⟩
      exact ⟨content, .inl hcontent, hmem⟩
  refine ⟨h.lt.trans_le (by simp), ?_⟩
  rw [hstores]
  exact h.count

theorem shareAtom (h : machine.IsLone slot held) {value : Atom} {rest : List Cell}
    (hstack : machine.stack = .atom value :: rest) :
    (machine.shareAtom value rest).IsLone slot held := by
  have hgrow : IsLone { machine with slots := machine.slots.push (.atom value) } slot held := by
    rw [← Array.append_singleton]
    exact h.grow (by simp [Content.cells])
  have hne : Cell.ref machine.slots.size ≠ .ref slot := by
    have hlt := h.lt
    simp only [ne_eq, Cell.ref.injEq]
    omega
  have hcount : (machine.shareAtom value rest).stacked.count (.ref slot) =
      machine.stacked.count (.ref slot) := by
    simp [stacked, Machine.shareAtom, hstack, List.count_cons_of_ne hne]
  exact hgrow.move rfl hcount.le (Nat.add_le_add_right hcount.le _)

end IsLone

end Machine

/-! ## Actions -/

theorem sublist_pairCells (pairs : List (Cell × Cell)) :
    (pairs.map Prod.snd).Sublist (pairCells pairs) := by
  induction pairs with
  | nil => exact .refl _
  | cons pair rest ih => exact (ih.cons_cons _).cons _

namespace Exec

variable {α β : Type} {slot : ℕ} {held cells : List Cell} {after : α → List Cell} {good : α → Prop}
  {later : β → List Cell} {fine : β → Prop}

/-- Whether an action that has some cells in hand, if it succeeds, leaves a slot alone to which one
cell refers; its result is good, and it tells which cells are in hand then. -/
def KeepsLone (slot : ℕ) (held : List Cell) (action : Exec α) (after : α → List Cell)
    (good : α → Prop) : Prop :=
  ∀ machine : Machine, machine.IsLone slot held →
    Ends (action machine) (fun value machine => machine.IsLone slot (after value) ∧ good value)
      fun _ => True

namespace KeepsLone

theorem pure {value : α} (hcells : (after value).Sublist held) (h : good value) :
    KeepsLone slot held (Pure.pure value) after good :=
  fun _ hlone => ⟨hlone.drop (hcells.count_le _), h⟩

theorem fail (failure : Failure) : KeepsLone slot held (Exec.fail failure) after good :=
  fun _ _ => trivial

theorem bind {action : Exec α} {next : α → Exec β} (first : KeepsLone slot held action after good)
    (second : ∀ value, good value → KeepsLone slot (after value) (next value) later fine) :
    KeepsLone slot held (action >>= next) later fine :=
  fun machine hlone => ((first machine hlone).imp
    (fun value middle ⟨hmiddle, hgood⟩ => second value hgood middle hmiddle) fun _ h => h).bind

theorem forget {action : Exec α} (h : KeepsLone slot held action after good) :
    KeepsLone slot held action (fun _ => []) good :=
  fun machine hlone => (h machine hlone).imp
    (fun _ _ ⟨hafter, hgood⟩ => ⟨hafter.drop (Nat.zero_le _), hgood⟩) fun _ h => h

theorem then_running {action : Exec Unit}
    (h : KeepsLone slot held action (fun _ => []) fun _ => True) :
    KeepsLone slot held (action >>= fun _ => Pure.pure Status.running) (fun _ => [])
      fun _ => True :=
  h.bind fun _ _ => pure (.refl _) trivial

/-- What leaves the machine as it is leaves in hand what was in hand. -/
theorem of_same {action : Exec α}
    (h : ∀ machine, Ends (action machine) (fun _ after => after = machine) fun _ => True) :
    KeepsLone slot held action (fun _ => held) fun _ => True :=
  fun machine hlone => (h machine).imp (fun _ _ hafter => ⟨hafter ▸ hlone, trivial⟩) fun _ h => h

theorem ofExcept (result : Except Error α) :
    KeepsLone slot held (Exec.ofExcept result) (fun _ => held) fun _ => True :=
  of_same fun _ => by cases result <;> trivial

theorem topKind : KeepsLone slot held Exec.topKind (fun _ => held) fun _ => True :=
  of_same fun machine => by unfold Exec.topKind; split <;> trivial

theorem kind (cell : Cell) : KeepsLone slot held (Exec.kind cell) (fun _ => held) fun _ => True :=
  of_same fun _ => rfl

theorem value (cell : Cell) : KeepsLone slot held (Exec.value cell) (fun _ => held) fun _ => True :=
  of_same fun machine => by unfold Exec.value; split <;> trivial

theorem mapM {γ : Type} {action : γ → Exec α}
    (h : ∀ item, KeepsLone slot held (action item) (fun _ => held) fun _ => True)
    (items : List γ) : KeepsLone slot held (items.mapM action) (fun _ => held) fun _ => True := by
  induction items with
  | nil => exact pure (.refl _) trivial
  | cons item rest ih =>
    rw [List.mapM_cons]
    exact (h item).bind fun _ _ => ih.bind fun _ _ => pure (.refl _) trivial

/-- What a cell stands for has its cells stored. -/
theorem content (cell : Cell) :
    KeepsLone slot held (Exec.content cell) (fun content => content.cells ++ held) fun _ => True :=
  fun _ hlone => ⟨hlone.borrow Machine.stores_of_mem_content, trivial⟩

/-- Cells that are looked up in the machine are stored. -/
theorem get_bind {next : Machine → Exec α} (cells : Machine → List Cell)
    (hcells : ∀ machine, .ref slot ∈ cells machine → machine.Stores slot)
    (h : ∀ machine, KeepsLone slot (cells machine ++ held) (next machine) after good) :
    KeepsLone slot held ((MonadStateOf.get : Exec Machine) >>= next) after good :=
  fun machine hlone => h machine machine (hlone.borrow (hcells machine))

/-! ### The stack -/

theorem push {cell : Cell} (h : cell ≠ .ref slot) :
    KeepsLone slot held (Exec.push cell) (fun _ => []) fun _ => True := by
  intro machine hlone
  have hcount : (Machine.stacked { machine with stack := cell :: machine.stack }).count
      (.ref slot) = machine.stacked.count (.ref slot) := List.count_cons_of_ne h
  exact ⟨hlone.move rfl hcount.le (by rw [hcount, List.count_nil]; omega), trivial⟩

theorem pop : KeepsLone slot held Exec.pop (fun cell => cell :: held) fun _ => True := by
  intro machine hlone
  unfold Exec.pop
  split
  · next cell rest hstack =>
    have hcount : machine.stacked.count (.ref slot) =
        (Machine.stacked { machine with stack := rest }).count (.ref slot) +
          [cell].count (.ref slot) := by
      rw [Machine.stacked, hstack, List.cons_append, List.count_cons, List.count_singleton]
      rfl
    have hheld : (cell :: held).count (.ref slot) =
        [cell].count (.ref slot) + held.count (.ref slot) := by
      rw [← List.count_append, List.singleton_append]
    exact ⟨hlone.move rfl (by omega) (by rw [hheld]; omega), trivial⟩
  · trivial

theorem popMany (number : ℕ) :
    KeepsLone slot held (Exec.popMany number) (fun cells => cells ++ held) fun _ => True := by
  induction number generalizing held with
  | zero => exact pure (.refl _) trivial
  | succ number ih =>
    refine pop.bind fun last _ => ih.bind fun cells _ => pure ?_ trivial
    simp

theorem mark : KeepsLone slot [] Exec.mark (fun _ => []) fun _ => True := by
  intro machine hlone
  have hstacked : Machine.stacked { machine with
      stack := [], saved := machine.stack :: machine.saved } = machine.stacked := rfl
  exact ⟨hlone.move rfl (by rw [hstacked]) (by rw [hstacked]), trivial⟩

theorem popMark : KeepsLone slot held Exec.popMark (fun cells => cells ++ held) fun _ => True := by
  intro machine hlone
  unfold Exec.popMark
  split
  · next below saved hsaved =>
    have hcount : machine.stacked.count (.ref slot) =
        machine.stack.count (.ref slot) +
          (Machine.stacked { machine with stack := below, saved }).count (.ref slot) := by
      rw [Machine.stacked, hsaved, List.count_append]
      rfl
    refine ⟨hlone.move rfl (by omega) ?_, trivial⟩
    rw [List.count_append, List.count_reverse]
    omega
  · trivial

/-! ### Slots -/

/-- A new slot that is not the slot, and holds what is in hand. -/
theorem alloc {content : Content} (h : .ref slot ∈ content.cells → .ref slot ∈ held) :
    KeepsLone slot held (Exec.alloc content) (fun _ => []) (· ≠ .ref slot) := by
  intro machine hlone
  refine ⟨hlone.store (by simp) rfl ?_, ?_⟩
  · rintro ⟨other, hother, hmem⟩
    rcases Array.mem_push.1 hother with hother | rfl
    · exact .inl ⟨other, hother, hmem⟩
    · exact .inr (h hmem)
  · have hlt := hlone.lt
    simp only [ne_eq, Cell.ref.injEq]
    omega

theorem pushNew {content : Content} (h : .ref slot ∈ content.cells → .ref slot ∈ held) :
    KeepsLone slot held (Exec.pushNew content) (fun _ => []) fun _ => True :=
  (alloc h).bind fun _ hcell => push hcell

/-- A change of a content by what is in hand. -/
theorem changeTop {change : Content → Content}
    (h : ∀ content, .ref slot ∈ (change content).cells →
      .ref slot ∈ content.cells ∨ .ref slot ∈ held) :
    KeepsLone slot held (Exec.changeTop change) (fun _ => []) fun _ => True := by
  intro machine hlone
  unfold Exec.changeTop
  split
  · next index rest hstack =>
    refine ⟨hlone.store (by simp) rfl ?_, trivial⟩
    rintro ⟨content, hcontent, hmem⟩
    obtain ⟨i, hi, rfl⟩ := Array.mem_iff_getElem.1 hcontent
    simp only [Array.size_modify] at hi
    rw [Array.getElem_modify] at hmem
    split at hmem
    · exact (h _ hmem).imp_left fun hold => ⟨_, Array.getElem_mem hi, hold⟩
    · exact .inl ⟨_, Array.getElem_mem hi, hmem⟩
  · next atom rest hstack =>
    split
    · next value _ =>
      have hcount : (Machine.stacked { machine with stack := .atom value :: rest }).count
          (.ref slot) = machine.stacked.count (.ref slot) := by
        simp [Machine.stacked, hstack]
      exact ⟨hlone.move rfl hcount.le (by rw [hcount, List.count_nil]; omega), trivial⟩
    · exact ⟨hlone.drop (by simp), trivial⟩
  · trivial

theorem shareTop : KeepsLone slot held Exec.shareTop (fun _ => held) fun _ => True := by
  intro machine hlone
  unfold Exec.shareTop
  split
  · exact ⟨hlone, trivial⟩
  · next value rest hstack => exact ⟨hlone.shareAtom hstack, trivial⟩
  · trivial

theorem memoize (index : ℕ) :
    KeepsLone slot held (Exec.memoize index) (fun _ => held) fun _ => True :=
  shareTop.bind fun _ _ _ hlone => ⟨hlone.move rfl le_rfl le_rfl, trivial⟩

theorem embed (value : Value) :
    KeepsLone slot held (Exec.embed value) (fun _ => held) (· ≠ .ref slot) := by
  intro machine hlone
  refine (fresh_of_embed value machine).imp ?_ fun _ h => h
  rintro cell after ⟨hcell, new, created, rfl, hnew⟩
  exact ⟨hlone.grow fun content hcontent => hnew content hcontent slot hlone.lt,
    hcell slot hlone.lt⟩

/-! ### What operations call -/

theorem popText : KeepsLone slot held Exec.popText (fun _ => held) fun _ => True := by
  refine pop.bind fun cell _ => (content cell).bind fun content _ => ?_
  split
  · exact pure ((List.sublist_cons_self ..).trans (List.sublist_append_right ..)) trivial
  · exact fail _

theorem popArguments :
    KeepsLone slot held Exec.popArguments (fun cells => cells ++ held) fun _ => True := by
  refine pop.bind fun cell _ => (content cell).bind fun content _ => ?_
  split
  · exact pure ((List.sublist_cons_self ..).append_left _) trivial
  · exact fail _

/-- Keyword arguments are among the cells of the dict that they come from. -/
theorem popKeywords :
    KeepsLone slot held Exec.popKeywords (fun kwargs => kwargs.map Prod.snd ++ held)
      fun _ => True := by
  refine pop.bind fun cell _ => (content cell).bind fun content _ => ?_
  split
  · next pairs =>
    refine get_bind (fun _ => []) (by simp) fun machine => ?_
    cases hkwargs : pairs.toList.mapM machine.keyword with
    | error error => exact fun _ _ => trivial
    | ok kwargs =>
      refine pure ?_ trivial
      rw [Machine.snd_of_keywords hkwargs]
      exact (sublist_pairCells pairs.toList).append (List.sublist_cons_self ..)
  · exact pure ((List.sublist_cons_self ..).trans (List.sublist_append_right ..)) trivial
  · exact fail _

theorem popPairs :
    KeepsLone slot held Exec.popPairs (fun pairs => pairCells pairs ++ held) fun _ => True := by
  refine popMark.bind fun cells _ => ?_
  split
  · next pairs hpairs => exact pure (pairCells_of_pairUp hpairs ▸ .refl _) trivial
  · exact fail _

variable (env : Environment)

theorem constant (name : QualifiedName) :
    KeepsLone slot held (Exec.constant env name) (fun _ => held) (· ≠ .ref slot) := embed _

theorem persistent (id : Value) :
    KeepsLone slot held (Exec.persistent env id) (fun _ => held) (· ≠ .ref slot) := by
  unfold Exec.persistent
  split
  · exact (ofExcept _).bind fun value _ => embed value
  · exact fail _

theorem callCell (opcode : Opcode) (callee : Cell) {args : List Cell}
    {kwargs : List (String × Cell)} (hargs : .ref slot ∈ args → .ref slot ∈ held)
    (hkwargs : .ref slot ∈ kwargs.map Prod.snd → .ref slot ∈ held) :
    KeepsLone slot held (Exec.callCell env opcode callee args kwargs) (fun _ => [])
      (· ≠ .ref slot) := by
  refine (content callee).bind fun content _ => ?_
  split
  · refine alloc fun hmem => List.mem_append_right _ ?_
    simp only [Content.cells, Instance.fresh, List.mem_append] at hmem
    rcases hmem with ((hmem | hmem) | hmem) | hmem
    · exact hargs hmem
    · exact hkwargs hmem
    · cases hmem
    · cases hmem
  · refine (mapM value args).bind fun args _ => ?_
    refine (mapM (fun pair => (value pair.2).bind fun value _ => pure (.refl _) trivial)
      kwargs).bind fun kwargs _ => (ofExcept _).bind fun result _ => ?_
    exact (embed result).forget
  · exact fail _

end KeepsLone

/-! ## Operations -/

variable (env : Environment) (opcode : Opcode)

theorem KeepsLone.push_running {action : Exec Cell} {after : Cell → List Cell}
    (h : KeepsLone slot held action after (· ≠ .ref slot)) :
    KeepsLone slot held
      (action >>= fun cell => Exec.push cell >>= fun _ => Pure.pure Status.running)
      (fun _ => []) fun _ => True :=
  h.bind fun _ hcell => (KeepsLone.push hcell).then_running

theorem KeepsLone.extendTop {cells : List Cell} (h : .ref slot ∈ cells → .ref slot ∈ held) :
    KeepsLone slot held (Exec.changeTop (.extend cells)) (fun _ => []) fun _ => True :=
  changeTop fun _ hmem => (Content.mem_or_mem_of_extend hmem).imp_right h

theorem KeepsLone.extendTopPairs {pairs : List (Cell × Cell)}
    (h : .ref slot ∈ pairCells pairs → .ref slot ∈ held) :
    KeepsLone slot held (Exec.changeTop (.extendPairs pairs)) (fun _ => []) fun _ => True :=
  changeTop fun _ hmem => (Content.mem_or_mem_of_extendPairs hmem).imp_right h

/-- The attributes that a state spells are stored already. -/
theorem keepsLone_build :
    KeepsLone slot [] (step env opcode .build) (fun _ => []) fun _ => True := by
  simp only [step]
  refine KeepsLone.pop.bind fun state _ => ?_
  refine KeepsLone.get_bind (fun machine => pairCells ((machine.stateAttributes state).getD []))
    (fun machine hmem => ?_) fun machine => KeepsLone.topKind.bind fun kind _ => ?_
  · cases hattributes : machine.stateAttributes state with
    | none => simp [hattributes] at hmem
    | some attributes =>
      rw [hattributes] at hmem
      obtain ⟨holder, hholder⟩ := Machine.exists_holder_of_stateAttributes hattributes _ hmem
      exact Machine.stores_of_mem_content hholder
  · cases machine.stateAttributes state with
    | some attributes =>
      cases kind with
      | object | dict =>
        exact (KeepsLone.extendTopPairs fun h => List.mem_append_left _ h).then_running
      | _ => exact (KeepsLone.kind state).bind fun _ _ => KeepsLone.then_running (.fail _)
    | none =>
      cases kind with
      | object =>
        refine (KeepsLone.changeTop fun content hmem => ?_).then_running
        exact (Content.mem_or_eq_of_setState hmem).imp_right fun h => by simp [h]
      | _ => exact (KeepsLone.kind state).bind fun _ _ => KeepsLone.then_running (.fail _)

/-- No operation copies the one reference to a slot, unless it stands on top of the stack or is read
from the memo. -/
theorem keepsLone_step {operation : Operation} (hdup : operation ≠ .dup)
    (hfetch : ∀ index, operation ≠ .fetch index) :
    KeepsLone slot [] (step env opcode operation) (fun _ => []) fun _ => True := by
  cases operation with
  | stop =>
    exact KeepsLone.pop.bind fun cell _ => (KeepsLone.value cell).bind fun _ _ =>
      .pure (List.nil_sublist _) trivial
  | skip => exact .pure (.refl _) trivial
  | mark => exact KeepsLone.mark.then_running
  | popMark => exact KeepsLone.popMark.bind fun _ _ => .pure (List.nil_sublist _) trivial
  | pop =>
    refine KeepsLone.get_bind (fun _ => []) (by simp) fun machine => ?_
    split
    · exact KeepsLone.popMark.bind fun _ _ => .pure (List.nil_sublist _) trivial
    · exact KeepsLone.pop.bind fun _ _ => .pure (List.nil_sublist _) trivial
  -- These two are what a second reference to a slot comes from.
  | dup => exact absurd rfl hdup
  | fetch index => exact absurd rfl (hfetch index)
  | memoize index =>
    cases index with
    | some index => exact (KeepsLone.memoize index).then_running
    | none =>
      exact KeepsLone.get_bind (fun _ => []) (by simp) fun machine =>
        (KeepsLone.memoize _).then_running
  | push value => exact (KeepsLone.push (by simp)).then_running
  | pushString value =>
    simp only [step]
    split
    · split
      · exact (KeepsLone.push (by simp)).then_running
      · exact KeepsLone.then_running (.fail _)
    · exact (KeepsLone.push (by simp)).then_running
  | tupleOf number =>
    exact (KeepsLone.popMany number).bind fun cells _ =>
      (KeepsLone.pushNew (by simp [Content.cells])).then_running
  | pushEmpty container =>
    cases container <;> exact (KeepsLone.pushNew (by simp [Content.cells])).then_running
  | collect container =>
    cases container with
    | tuple | list | frozenSet =>
      exact KeepsLone.popMark.bind fun cells _ =>
        (KeepsLone.pushNew (by simp [Content.cells])).then_running
    | dict =>
      exact KeepsLone.popPairs.bind fun pairs _ =>
        (KeepsLone.pushNew (by simp [Content.cells])).then_running
  | append =>
    refine KeepsLone.pop.bind fun cell _ => KeepsLone.topKind.bind fun kind _ => ?_
    cases kind with
    | list => exact (KeepsLone.extendTop fun h => h).then_running
    | _ => exact (KeepsLone.kind cell).bind fun _ _ => KeepsLone.then_running (.fail _)
  | appends =>
    refine KeepsLone.popMark.bind fun cells _ => KeepsLone.topKind.bind fun kind _ => ?_
    cases kind with
    | list => exact (KeepsLone.extendTop fun h => List.mem_append_left _ h).then_running
    | _ => exact KeepsLone.then_running (.fail _)
  | addItems =>
    refine KeepsLone.popMark.bind fun cells _ => KeepsLone.topKind.bind fun kind _ => ?_
    cases kind with
    | set => exact (KeepsLone.extendTop fun h => List.mem_append_left _ h).then_running
    | _ => exact KeepsLone.then_running (.fail _)
  | setItem =>
    refine KeepsLone.pop.bind fun value _ => KeepsLone.pop.bind fun key _ =>
      KeepsLone.topKind.bind fun kind _ => ?_
    cases kind with
    | dict | object => exact (KeepsLone.extendTopPairs (by simp)).then_running
    | _ => exact (KeepsLone.kind key).bind fun _ _ => KeepsLone.then_running (.fail _)
  | setItems =>
    refine KeepsLone.popPairs.bind fun pairs _ => KeepsLone.topKind.bind fun kind _ => ?_
    cases kind with
    | dict | object =>
      exact (KeepsLone.extendTopPairs fun h => List.mem_append_left _ h).then_running
    | _ => exact KeepsLone.then_running (.fail _)
  | constant name => exact (KeepsLone.constant env name).push_running
  | stackConstant =>
    exact KeepsLone.popText.bind fun name _ => KeepsLone.popText.bind fun namespace_ _ =>
      (KeepsLone.constant env ⟨namespace_, name⟩).push_running
  | apply =>
    exact KeepsLone.popArguments.bind fun args _ => KeepsLone.pop.bind fun callee _ =>
      (KeepsLone.callCell env opcode callee (fun h => by simp [h]) (by simp)).push_running
  | applyKeywords =>
    exact KeepsLone.popKeywords.bind fun kwargs _ => KeepsLone.popArguments.bind fun args _ =>
      KeepsLone.pop.bind fun callee _ =>
        (KeepsLone.callCell env opcode callee (fun h => by simp [h]) fun h => by
          simp only [List.mem_cons, List.mem_append]
          exact .inr (.inr (.inl h))).push_running
  | applyConstant name =>
    exact KeepsLone.popMark.bind fun args _ => (KeepsLone.constant env name).bind fun callee _ =>
      (KeepsLone.callCell env opcode callee (fun h => List.mem_append_left _ h)
        (by simp)).push_running
  | applyBracket =>
    refine KeepsLone.popMark.bind fun cells _ => ?_
    cases cells with
    | nil => exact KeepsLone.then_running (.fail _)
    | cons callee args =>
      exact (KeepsLone.callCell env opcode callee (fun h => by simp [h]) (by simp)).push_running
  | build => exact keepsLone_build env opcode
  | persistent id => exact (KeepsLone.persistent env (.str id)).push_running
  | stackPersistent =>
    exact KeepsLone.pop.bind fun cell _ => (KeepsLone.value cell).bind fun id _ =>
      (KeepsLone.persistent env id).push_running
  | extension code =>
    simp only [step]
    split
    · exact (KeepsLone.embed _).push_running
    · exact KeepsLone.then_running (.fail _)
  | nextBuffer =>
    refine KeepsLone.get_bind (fun _ => []) (by simp) fun machine => ?_
    rcases machine.buffers with _ | _ | ⟨buffer, rest⟩
    · exact KeepsLone.then_running (.fail _)
    · exact KeepsLone.then_running (.fail _)
    · have hbuffers : KeepsLone slot []
          (modify fun machine : Machine => { machine with buffers := some rest } : Exec Unit)
          (fun _ => []) fun _ => True :=
        fun _ hlone => ⟨⟨hlone.lt, hlone.count⟩, trivial⟩
      exact hbuffers.bind fun _ _ => (KeepsLone.push (by simp)).then_running
  | makeReadonly =>
    refine KeepsLone.topKind.bind fun kind _ => ?_
    split
    · exact (KeepsLone.changeTop fun _ h => .inl (Content.mem_of_makeReadonly h)).then_running
    · exact .pure (.refl _) trivial
    · exact KeepsLone.then_running (.fail _)

/-- What becomes shared on top of the stack is another slot if the top does not refer to this one.
-/
theorem ends_shareTop {machine : Machine} (h : machine.IsLone slot held)
    (htop : machine.stack.head? ≠ some (.ref slot)) :
    Ends (shareTop machine) (fun shared after => after.IsLone slot held ∧ shared ≠ slot)
      fun _ => True := by
  refine ((KeepsLone.shareTop machine h).and (sharesTop_shareTop machine)).imp ?_ fun _ _ => trivial
  rintro shared after ⟨⟨hafter, -⟩, below, hshares, -⟩
  refine ⟨hafter, ?_⟩
  rintro rfl
  rcases hshares.top with hstack | ⟨value, -, hsize⟩
  · exact htop (by rw [hstack]; rfl)
  · exact absurd h.lt (by omega)

end Exec

namespace Machine

variable {env : Environment} {machine after : Machine} {instruction : Instruction} {slot : ℕ}
  {status : Status}

/-- An instruction leaves a slot alone to which one cell refers, unless it copies the stack top and
this is the cell, or reads a memo entry that is the slot. -/
theorem IsLone.of_execute (h : machine.IsLone slot [])
    (hdup : instruction.operation = .dup → machine.stack.head? ≠ some (.ref slot))
    (hfetch : ∀ index, instruction.operation = .fetch index → machine.memo[index]? ≠ some slot)
    (hexecute : Exec.execute env instruction machine = .ok status after) :
    after.IsLone slot [] := by
  have hcounted : ({ machine with created := machine.created + 1 } : Machine).IsLone slot [] :=
    h.move rfl le_rfl le_rfl
  have hends : Exec.Ends (Exec.step env instruction.opcode instruction.operation
      { machine with created := machine.created + 1 }) (fun _ after => after.IsLone slot [])
      fun _ => True := by
    cases hoperation : instruction.operation with
    | dup =>
      refine Exec.Ends.bind ((Exec.ends_shareTop hcounted (hdup hoperation)).imp ?_ fun _ h => h)
      rintro shared middle ⟨hmiddle, hne⟩
      exact (Exec.KeepsLone.push (by simpa using hne)).then_running middle hmiddle |>.imp
        (fun _ _ h => h.1) fun _ h => h
    | fetch index =>
      refine Exec.Ends.bind (Exec.ends_get ?_)
      cases hslot : machine.memo[index]? with
      | none => trivial
      | some other =>
        have hne : Cell.ref other ≠ .ref slot := by
          rintro ⟨⟩
          exact hfetch index hoperation hslot
        exact (Exec.KeepsLone.push hne _ hcounted).imp (fun _ _ h => h.1) fun _ h => h
    | _ =>
      exact (Exec.keepsLone_step env instruction.opcode (by simp) (by simp) _ hcounted).imp
        (fun _ _ h => h.1) fun _ h => h
  rw [Exec.step_of_execute env hexecute] at hends
  exact hends

end Machine

end Pickle
