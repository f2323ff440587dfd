import Mathlib.Data.List.Forall2
import Std.Data.TreeMap.Lemmas
import Pickle.Proofs.Machine.Allocation

/-!
# Every reference leads to a slot

A reference is a mere number, and nothing about a number says that there is a slot behind it.  That
there always is one is an invariant, `Machine.WellFormed`, and it holds of a machine after any
program at all, also when instructions failed and what they had half done remains: slots are
never taken away, and every cell that an instruction puts anywhere comes from the machine or
refers to a slot that was just made.

`Exec.IsSound` is the invariant for actions, with what their results refer to; `isSound_step` goes
through the operations, and `wellFormed_of_program` through programs.  `references_resolve` draws
the conclusion for look-ups: whatever is looked up, by an instruction or by the conversion of a cell
that follows references any number of times, is there.
-/

namespace Pickle

namespace Exec

variable {α β : Type} {count : ℕ} {good : ℕ → α → Prop} {fine : ℕ → β → Prop}

/-- Whether an action keeps a machine of `count` slots or more well formed, however it ends, and
never takes slots away.  Its result is good for the number of slots in the end. -/
def IsSound (count : ℕ) (action : Exec α) (good : ℕ → α → Prop) : Prop :=
  ∀ machine, machine.WellFormed → count ≤ machine.slots.size →
    Ends (action machine)
      (fun value after =>
        after.WellFormed ∧ machine.slots.size ≤ after.slots.size ∧ good after.slots.size value)
      (fun after => after.WellFormed ∧ machine.slots.size ≤ after.slots.size)

/-- Actions that allocate are sound, since growth keeps machines well formed. -/
theorem Allocates.isSound {debt : ℕ} {action : Exec α} (h : Allocates count debt action good) :
    IsSound count action good :=
  fun machine hmachine hcount => (h machine hcount).imp
    (fun _ _ ⟨hgrows, hgood⟩ => ⟨hgrows.wellFormed hmachine, hgrows.size_le, hgood⟩)
    fun _ hgrows => ⟨hgrows.wellFormed hmachine, hgrows.size_le⟩

namespace IsSound

theorem pure {value : α} (h : ∀ n, count ≤ n → good n value) :
    IsSound count (Pure.pure value) good :=
  fun _ hmachine hcount => ⟨hmachine, le_rfl, h _ hcount⟩

theorem fail (failure : Failure) : IsSound count (Exec.fail failure) good :=
  fun _ hmachine _ => ⟨hmachine, le_rfl⟩

theorem ofExcept {result : Except Error α} (h : ∀ value, result = .ok value →
    ∀ n, count ≤ n → good n value) : IsSound count (Exec.ofExcept result) good := by
  cases result with
  | ok value => exact pure (h value rfl)
  | error error => exact fun _ hmachine _ => ⟨hmachine, le_rfl⟩

theorem bind {action : Exec α} {next : α → Exec β} (first : IsSound count action good)
    (second : ∀ n value, count ≤ n → good n value → IsSound n (next value) fine) :
    IsSound count (action >>= next) fine := by
  refine fun machine hmachine hcount => (first machine hmachine hcount).imp ?_ ?_ |>.bind
  · intro value middle ⟨hmiddle, hle, hgood⟩
    refine (second _ value (hcount.trans hle) hgood middle hmiddle le_rfl).imp ?_ ?_
    · exact fun result after ⟨hafter, hle', hfine⟩ => ⟨hafter, hle.trans hle', hfine⟩
    · exact fun after ⟨hafter, hle'⟩ => ⟨hafter, hle.trans hle'⟩
  · exact fun middle hmiddle => hmiddle

/-- The result of a sound action may be forgotten. -/
theorem then_running {action : Exec Unit} (h : IsSound count action fun _ _ => True) :
    IsSound count (action >>= fun _ => Pure.pure Status.running) fun _ _ => True :=
  h.bind fun _ _ _ _ => pure fun _ _ => trivial

theorem get : IsSound count (MonadStateOf.get : Exec Machine) fun n machine =>
    machine.WellFormed ∧ machine.slots.size = n :=
  fun _ hmachine _ => ⟨hmachine, le_rfl, hmachine, rfl⟩

/-! ## The stack -/

theorem push {cell : Cell} (h : cell.IsBelow count) :
    IsSound count (Exec.push cell) fun _ _ => True := by
  intro machine hmachine hcount
  refine ⟨⟨?_, hmachine.saved, hmachine.memo, hmachine.slots⟩, le_rfl, trivial⟩
  intro other hother
  rcases List.mem_cons.1 hother with rfl | hother
  · exact h.mono hcount
  · exact hmachine.stack other hother

theorem pushAtom (value : Atom) : IsSound count (Exec.push (.atom value)) fun _ _ => True :=
  push trivial

theorem pushRef {slot : ℕ} (h : slot < count) :
    IsSound count (Exec.push (.ref slot)) fun _ _ => True :=
  push h

theorem pop : IsSound count Exec.pop fun n cell => cell.IsBelow n := by
  intro machine hmachine _
  unfold Exec.pop
  split
  · next cell rest hstack =>
    have hall := hmachine.stack
    rw [hstack] at hall
    exact ⟨⟨fun other h => hall other (List.mem_cons_of_mem _ h), hmachine.saved, hmachine.memo,
      hmachine.slots⟩, le_rfl, hall cell List.mem_cons_self⟩
  · exact ⟨hmachine, le_rfl⟩

theorem popMany (number : ℕ) : IsSound count (Exec.popMany number) AllBelow := by
  induction number generalizing count with
  | zero => exact pure fun _ _ => AllBelow.nil
  | succ number ih =>
    refine pop.bind fun n last _ hlast => ?_
    refine ih.bind fun m cells hle hcells => ?_
    exact pure fun _ hle' => by
      simp [hcells.mono hle', hlast.mono (hle.trans hle')]

theorem mark : IsSound count Exec.mark fun _ _ => True := by
  intro machine hmachine _
  refine ⟨⟨by simp, ?_, hmachine.memo, hmachine.slots⟩, le_rfl, trivial⟩
  intro stack hstack
  rcases List.mem_cons.1 hstack with rfl | hstack
  · exact hmachine.stack
  · exact hmachine.saved stack hstack

theorem popMark : IsSound count Exec.popMark AllBelow := by
  intro machine hmachine _
  unfold Exec.popMark
  split
  · next below saved hsaved =>
    have hall := hmachine.saved
    rw [hsaved] at hall
    refine ⟨⟨hall below List.mem_cons_self, fun stack h => hall stack (List.mem_cons_of_mem _ h),
      hmachine.memo, hmachine.slots⟩, le_rfl, ?_⟩
    exact AllBelow.subset hmachine.stack fun cell hcell => List.mem_reverse.1 hcell
  · exact ⟨hmachine, le_rfl⟩

theorem kind (cell : Cell) : IsSound count (Exec.kind cell) fun _ _ => True :=
  fun _ hmachine _ => ⟨hmachine, le_rfl, trivial⟩

theorem topKind : IsSound count Exec.topKind fun _ _ => True := by
  intro machine hmachine _
  unfold Exec.topKind
  split
  · exact ⟨hmachine, le_rfl, trivial⟩
  · exact ⟨hmachine, le_rfl⟩

/-! ## Slots -/

theorem alloc {content : Content} (h : AllBelow count content.cells) :
    IsSound count (Exec.alloc content) fun n cell => cell.IsBelow n := (Allocates.alloc h).isSound

theorem pushNew {content : Content} (h : AllBelow count content.cells) :
    IsSound count (Exec.pushNew content) fun _ _ => True :=
  (alloc h).bind fun _ _ _ hcell => push hcell

/-- A sound change of a content keeps cells below every number that they were below. -/
theorem changeTop {change : Content → Content}
    (h : ∀ n content, count ≤ n → AllBelow n content.cells → AllBelow n (change content).cells) :
    IsSound count (Exec.changeTop change) fun _ _ => True := by
  intro machine hmachine hcount
  unfold Exec.changeTop
  split
  · next slot rest hstack =>
    refine ⟨⟨?_, ?_, ?_, ?_⟩, by simp, trivial⟩
    · simpa using hmachine.stack
    · simpa using hmachine.saved
    · simpa using hmachine.memo
    · intro content hcontent cell hcell
      obtain ⟨i, hi, rfl⟩ := Array.mem_iff_getElem.1 hcontent
      rw [Array.getElem_modify] at hcell
      simp only [Array.size_modify] at hi ⊢
      have hold : AllBelow machine.slots.size machine.slots[i].cells :=
        hmachine.slots _ (Array.getElem_mem hi)
      split at hcell
      · exact h _ _ hcount hold cell hcell
      · exact hold cell hcell
  · next value rest hstack =>
    split
    · refine ⟨⟨?_, hmachine.saved, hmachine.memo, hmachine.slots⟩, le_rfl, trivial⟩
      intro cell hcell
      rcases List.mem_cons.1 hcell with rfl | hcell
      · trivial
      · exact hmachine.stack cell (by rw [hstack]; exact List.mem_cons_of_mem _ hcell)
    · exact ⟨hmachine, le_rfl, trivial⟩
  · exact ⟨hmachine, le_rfl⟩

theorem shareTop : IsSound count Exec.shareTop fun n slot => slot < n := by
  intro machine hmachine _
  unfold Exec.shareTop
  split
  · next slot rest hstack =>
    exact ⟨hmachine, le_rfl, hmachine.stack (.ref slot) (by simp [hstack])⟩
  · next value rest hstack =>
    have hsize : (machine.slots.push (.atom value)).size = machine.slots.size + 1 :=
      Array.size_push _
    have hgrows : machine.GrowsTo 1 { machine with slots := machine.slots.push (.atom value) } :=
      ⟨#[.atom value], machine.created, by simp, by simp [Content.cells], le_rfl, by simp⟩
    have hafter := hgrows.wellFormed hmachine
    refine ⟨⟨?_, hafter.saved, hafter.memo, hafter.slots⟩, by simp, by simp⟩
    intro cell hcell
    rcases List.mem_cons.1 hcell with rfl | hcell
    · show machine.slots.size < (machine.slots.push (.atom value)).size
      omega
    · exact hafter.stack cell (by
        show cell ∈ machine.stack
        rw [hstack]
        exact List.mem_cons_of_mem _ hcell)
  · exact ⟨hmachine, le_rfl⟩

theorem fetch (index : ℕ) : IsSound count (Exec.fetch index) fun _ _ => True := by
  refine get.bind fun n machine _ ⟨hmachine, hsize⟩ => ?_
  split
  · next slot hslot =>
    exact pushRef (hsize ▸ hmachine.memo index slot hslot)
  · exact fail _

theorem memoize (index : ℕ) : IsSound count (Exec.memoize index) fun _ _ => True := by
  refine shareTop.bind fun n slot _ hslot machine hmachine hcount => ?_
  refine ⟨⟨hmachine.stack, hmachine.saved, ?_, hmachine.slots⟩, le_rfl, trivial⟩
  intro other found hfound
  simp only [Std.TreeMap.getElem?_insert] at hfound
  split at hfound
  · cases hfound
    exact hslot.trans_le hcount
  · exact hmachine.memo other found hfound

end IsSound

end Exec

/-! ## What contents hold -/

/-- What a cell stands for holds references to slots that exist. -/
theorem Machine.WellFormed.content {machine : Machine} (h : machine.WellFormed) (cell : Cell) :
    AllBelow machine.slots.size (machine.content cell).cells := by
  cases cell with
  | atom value => simp [Machine.content, Content.cells]
  | ref slot =>
    rcases Nat.lt_or_ge slot machine.slots.size with hslot | hslot
    · have hcontent : machine.content (.ref slot) = machine.slots[slot] := by
        simp [Machine.content, Machine.slot_eq, hslot]
      rw [hcontent]
      exact h.slots _ (Array.getElem_mem hslot)
    · have hcontent : machine.content (.ref slot) = .none := by
        simp [Machine.content, Machine.slot_eq, hslot]
      simp [hcontent, Content.none, Content.cells]

theorem Content.mem_or_mem_of_extend {cells : List Cell} {content : Content} {cell : Cell}
    (h : cell ∈ (content.extend cells).cells) : cell ∈ content.cells ∨ cell ∈ cells := by
  cases content <;> simp_all [Content.extend, Content.cells]

theorem Content.mem_or_mem_of_extendPairs {pairs : List (Cell × Cell)} {content : Content}
    {cell : Cell} (h : cell ∈ (content.extendPairs pairs).cells) :
    cell ∈ content.cells ∨ cell ∈ pairCells pairs := by
  cases content <;> grind [Content.extendPairs, Content.cells, pairCells_append]

theorem Content.mem_or_eq_of_setState {state : Cell} {content : Content} {cell : Cell}
    (h : cell ∈ (content.setState state).cells) : cell ∈ content.cells ∨ cell = state := by
  cases content <;> grind [Content.setState, Content.cells]

theorem Content.mem_of_makeReadonly {content : Content} {cell : Cell}
    (h : cell ∈ content.makeReadonly.cells) : cell ∈ content.cells := by
  unfold Content.makeReadonly at h
  split at h
  · cases h
  · exact h

/-- Pairing up loses no cell and adds none. -/
theorem pairCells_of_pairUp {cells : List Cell} {pairs : List (Cell × Cell)}
    (h : pairUp cells = some pairs) : pairCells pairs = cells := by
  fun_induction pairUp cells generalizing pairs with
  | case1 => cases h; rfl
  | case2 cell => cases h
  | case3 key value rest ih =>
    obtain ⟨others, hothers, rfl⟩ := Option.map_eq_some_iff.1 h
    simp [ih hothers]

/-- Alternating keys and values are paired up again. -/
theorem pairUp_pairCells (pairs : List (Cell × Cell)) : pairUp (pairCells pairs) = some pairs := by
  induction pairs with
  | nil => rfl
  | cons pair rest ih =>
    rw [pairCells_cons, pairUp, ih]
    rfl

theorem pairUp_eq_some_iff {cells : List Cell} {pairs : List (Cell × Cell)} :
    pairUp cells = some pairs ↔ pairCells pairs = cells :=
  ⟨pairCells_of_pairUp, fun h => h ▸ pairUp_pairCells pairs⟩

theorem Machine.mem_content_of_halfAttributes {machine : Machine} {half : Cell}
    {pairs : List (Cell × Cell)} (h : machine.halfAttributes half = some pairs) :
    ∀ cell ∈ pairCells pairs, cell ∈ (machine.content half).cells := by
  unfold Machine.halfAttributes at h
  split at h
  · next array heq =>
    cases h
    simp [heq, Content.cells]
  · cases h
    simp
  · cases h

/-- The attributes that a state spells are what a dict holds, or two. -/
theorem Machine.exists_holder_of_stateAttributes {machine : Machine} {state : Cell}
    {pairs : List (Cell × Cell)} (h : machine.stateAttributes state = some pairs) :
    ∀ cell ∈ pairCells pairs, ∃ holder, cell ∈ (machine.content holder).cells := by
  unfold Machine.stateAttributes at h
  split at h
  · next array heq =>
    cases h
    exact fun cell hcell => ⟨state, by rwa [heq]⟩
  · next first second heq =>
    obtain ⟨front, hfront, hrest⟩ := Option.bind_eq_some_iff.1 h
    obtain ⟨back, hback, hdone⟩ := Option.bind_eq_some_iff.1 hrest
    cases hdone
    intro cell hcell
    rw [pairCells_append] at hcell
    rcases List.mem_append.1 hcell with hcell | hcell
    · exact ⟨first, mem_content_of_halfAttributes hfront cell hcell⟩
    · exact ⟨second, mem_content_of_halfAttributes hback cell hcell⟩
  · cases h

/-- The attributes that a state spells come from slots that exist. -/
theorem Machine.WellFormed.stateAttributes {machine : Machine} (h : machine.WellFormed)
    {state : Cell} {pairs : List (Cell × Cell)}
    (hpairs : machine.stateAttributes state = some pairs) :
    AllBelow machine.slots.size (pairCells pairs) := by
  intro cell hcell
  obtain ⟨holder, hholder⟩ := exists_holder_of_stateAttributes hpairs cell hcell
  exact h.content holder cell hholder

theorem exists_of_bind_eq_ok {ε α β : Type} {first : Except ε α} {next : α → Except ε β}
    {result : β} (h : (first >>= next) = .ok result) :
    ∃ value, first = .ok value ∧ next value = .ok result := by
  cases first with
  | error error => cases h
  | ok value => exact ⟨value, rfl, h⟩

/-- A list is mapped without an error if its items are. -/
theorem mapM_eq_ok_iff {ε α β : Type} {f : α → Except ε β} {items : List α} {results : List β} :
    items.mapM f = .ok results ↔
      List.Forall₂ (fun item result => f item = .ok result) items results := by
  constructor
  · intro h
    induction items generalizing results with
    | nil =>
      cases h
      exact .nil
    | cons item rest ih =>
      rw [List.mapM_cons] at h
      obtain ⟨result, hresult, h⟩ := exists_of_bind_eq_ok h
      obtain ⟨others, hothers, hdone⟩ := exists_of_bind_eq_ok h
      cases hdone
      exact .cons hresult (ih hothers)
  · intro h
    induction h with
    | nil => rfl
    | cons hitem _ ih =>
      rw [List.mapM_cons, hitem, ih]
      rfl

/-- A keyword argument keeps its cell. -/
theorem Machine.snd_of_keywords {machine : Machine} {pairs : List (Cell × Cell)}
    {kwargs : List (String × Cell)} (h : pairs.mapM machine.keyword = .ok kwargs) :
    kwargs.map Prod.snd = pairs.map Prod.snd := by
  have hsnd : ∀ pair kwarg, machine.keyword pair = .ok kwarg → kwarg.2 = pair.2 := by
    intro pair kwarg hkwarg
    unfold Machine.keyword at hkwarg
    split at hkwarg
    · cases hkwarg; rfl
    · cases hkwarg
  have hcells : List.Forall₂ Eq (kwargs.map Prod.snd) (pairs.map Prod.snd) := by
    rw [List.forall₂_map_left_iff, List.forall₂_map_right_iff]
    exact ((mapM_eq_ok_iff.1 h).imp hsnd).flip
  rwa [List.forall₂_eq_eq_eq] at hcells

theorem snd_mem_pairCells {pairs : List (Cell × Cell)} {cell : Cell}
    (h : cell ∈ pairs.map Prod.snd) : cell ∈ pairCells pairs := by
  obtain ⟨pair, hpair, rfl⟩ := List.mem_map.1 h
  exact List.mem_flatMap.2 ⟨pair, hpair, by simp⟩

/-! ## Operations -/

namespace Exec

variable {count : ℕ}

theorem isSound_content (cell : Cell) :
    IsSound count (content cell) fun n content => AllBelow n content.cells :=
  fun _ hmachine _ => ⟨hmachine, le_rfl, hmachine.content cell⟩

theorem isSound_value (cell : Cell) : IsSound count (value cell) fun _ _ => True := by
  have hvalue : Allocates count 0 (value cell) fun _ _ => True := Allocates.value cell
  exact hvalue.isSound

/-- The count of what was created and the buffers have nothing to do with references. -/
theorem isSound_modify {change : Machine → Machine}
    (h : ∀ machine, (change machine).stack = machine.stack ∧
      (change machine).saved = machine.saved ∧ (change machine).memo = machine.memo ∧
        (change machine).slots = machine.slots) :
    IsSound count (modify change) fun _ _ => True := by
  intro machine hmachine _
  obtain ⟨hstack, hsaved, hmemo, hslots⟩ := h machine
  refine ⟨?_, le_of_eq (congrArg Array.size hslots.symm), trivial⟩
  constructor
  · rw [hstack, hslots]
    exact hmachine.stack
  · rw [hsaved, hslots]
    exact hmachine.saved
  · rw [hmemo, hslots]
    exact hmachine.memo
  · rw [hslots]
    exact hmachine.slots

theorem isSound_popText : IsSound count popText fun _ _ => True := by
  refine IsSound.pop.bind fun n cell _ _ => (isSound_content cell).bind fun n content _ _ => ?_
  split
  · exact .pure fun _ _ => trivial
  · exact .fail _

theorem isSound_popArguments : IsSound count popArguments AllBelow := by
  refine IsSound.pop.bind fun n cell _ _ => (isSound_content cell).bind fun n content _ h => ?_
  split
  · next items => exact .pure fun _ hle => h.mono hle
  · exact .fail _

theorem isSound_popKeywords :
    IsSound count popKeywords fun n kwargs => AllBelow n (kwargs.map Prod.snd) := by
  refine IsSound.pop.bind fun n cell _ _ => (isSound_content cell).bind fun n content _ h => ?_
  split
  · next pairs =>
    refine IsSound.get.bind fun m machine hle _ => .ofExcept fun kwargs hkwargs k hle' => ?_
    rw [Machine.snd_of_keywords hkwargs]
    exact (h.mono (hle.trans hle')).subset fun _ => snd_mem_pairCells
  · exact .pure fun _ _ => by simp
  · exact .fail _

theorem isSound_popPairs : IsSound count popPairs fun n pairs => AllBelow n (pairCells pairs) := by
  refine IsSound.popMark.bind fun n cells _ hcells => ?_
  split
  · next pairs hpairs =>
    refine .pure fun m hle => ?_
    rw [pairCells_of_pairUp hpairs]
    exact hcells.mono hle
  · exact .fail _

theorem IsSound.extendTop {cells : List Cell} (h : AllBelow count cells) :
    IsSound count (Exec.changeTop (.extend cells)) fun _ _ => True :=
  .changeTop fun _ _ hle hcontent cell hcell =>
    (Content.mem_or_mem_of_extend hcell).elim (hcontent cell) (h.mono hle cell)

theorem IsSound.extendTopPairs {pairs : List (Cell × Cell)} (h : AllBelow count (pairCells pairs)) :
    IsSound count (Exec.changeTop (.extendPairs pairs)) fun _ _ => True :=
  .changeTop fun _ _ hle hcontent cell hcell =>
    (Content.mem_or_mem_of_extendPairs hcell).elim (hcontent cell) (h.mono hle cell)

/-- What pushes the result of an allocation is sound. -/
theorem Allocates.push_running {debt : ℕ} {action : Exec Cell}
    (h : Allocates count debt action fun n cell => cell.IsBelow n) :
    IsSound count (action >>= fun cell => push cell >>= fun _ => Pure.pure Status.running)
      fun _ _ => True :=
  h.isSound.bind fun _ _ _ hcell => (IsSound.push hcell).then_running

variable (env : Environment) (opcode : Opcode)

/-- Every operation keeps every reference good, whether it succeeds or fails. -/
theorem isSound_step (operation : Operation) :
    IsSound count (step env opcode operation) fun _ _ => True := by
  cases operation with
  | stop =>
    simp only [step]
    refine IsSound.pop.bind fun n cell _ _ => ?_
    exact (isSound_value cell).bind fun _ _ _ _ => .pure fun _ _ => trivial
  | skip => exact .pure fun _ _ => trivial
  | mark => exact IsSound.mark.then_running
  | popMark =>
    simp only [step]
    exact IsSound.popMark.bind fun _ _ _ _ => .pure fun _ _ => trivial
  | pop =>
    simp only [step]
    refine IsSound.get.bind fun n machine _ _ => ?_
    split
    · exact IsSound.popMark.bind fun _ _ _ _ => .pure fun _ _ => trivial
    · exact IsSound.pop.bind fun _ _ _ _ => .pure fun _ _ => trivial
  | dup =>
    simp only [step]
    exact IsSound.shareTop.bind fun n slot _ hslot => (IsSound.pushRef hslot).then_running
  | fetch index => exact (IsSound.fetch index).then_running
  | memoize index =>
    cases index with
    | some index => exact (IsSound.memoize index).then_running
    | none =>
      simp only [step]
      exact IsSound.get.bind fun n machine _ _ => (IsSound.memoize machine.nextIndex).then_running
  | push value => exact (IsSound.pushAtom _).then_running
  | pushString value =>
    simp only [step]
    split
    · split
      · exact (IsSound.pushAtom _).then_running
      · exact IsSound.then_running (.fail _)
    · exact (IsSound.pushAtom _).then_running
  | tupleOf number =>
    simp only [step]
    refine (IsSound.popMany number).bind fun n cells _ hcells => ?_
    exact (IsSound.pushNew hcells).then_running
  | pushEmpty container =>
    cases container <;> exact (IsSound.pushNew (by simp [Content.cells])).then_running
  | collect container =>
    cases container with
    | dict =>
      simp only [step]
      refine isSound_popPairs.bind fun n pairs _ hpairs => ?_
      exact (IsSound.pushNew (by simpa [Content.cells] using hpairs)).then_running
    | tuple | list | frozenSet =>
      simp only [step]
      refine IsSound.popMark.bind fun n cells _ hcells => ?_
      exact (IsSound.pushNew (by simpa [Content.cells] using hcells)).then_running
  | append =>
    simp only [step]
    refine IsSound.pop.bind fun n cell _ hcell => IsSound.topKind.bind fun m kind hle _ => ?_
    split
    · exact (IsSound.extendTop (by simpa using hcell.mono hle)).then_running
    · exact (IsSound.kind cell).bind fun _ _ _ _ => IsSound.then_running (.fail _)
  | appends | addItems =>
    simp only [step]
    refine IsSound.popMark.bind fun n cells _ hcells => IsSound.topKind.bind fun m kind hle _ => ?_
    split
    · exact (IsSound.extendTop (hcells.mono hle)).then_running
    · exact IsSound.then_running (.fail _)
  | setItem =>
    simp only [step]
    refine IsSound.pop.bind fun n₁ value h₁ hvalue => IsSound.pop.bind fun n₂ key h₂ hkey => ?_
    refine IsSound.topKind.bind fun n₃ kind h₃ _ => ?_
    -- Slots are only added, so what the earlier pops returned is still below the size.
    have hpair : AllBelow n₃ (pairCells [(key, value)]) := by
      simp [hkey.mono h₃, hvalue.mono (h₂.trans h₃)]
    split
    · exact (IsSound.extendTopPairs hpair).then_running
    · exact (IsSound.extendTopPairs hpair).then_running
    · exact (IsSound.kind key).bind fun _ _ _ _ => IsSound.then_running (.fail _)
  | setItems =>
    simp only [step]
    refine isSound_popPairs.bind fun n pairs _ hpairs => IsSound.topKind.bind fun m kind hle _ => ?_
    split
    · exact (IsSound.extendTopPairs (hpairs.mono hle)).then_running
    · exact (IsSound.extendTopPairs (hpairs.mono hle)).then_running
    · exact IsSound.then_running (.fail _)
  | constant name => exact (allocates_constant env count name).push_running
  | stackConstant =>
    simp only [step]
    refine isSound_popText.bind fun _ name _ _ => isSound_popText.bind fun n namespace_ _ _ => ?_
    exact (allocates_constant env n ⟨namespace_, name⟩).push_running
  | apply =>
    simp only [step]
    refine isSound_popArguments.bind fun _ args _ hargs => IsSound.pop.bind fun n callee hle _ => ?_
    exact (allocates_callCell env opcode callee (hargs.mono hle) (by simp)).push_running
  | applyKeywords =>
    simp only [step]
    refine isSound_popKeywords.bind fun _ kwargs _ hkwargs => ?_
    refine isSound_popArguments.bind fun _ args h₁ hargs => IsSound.pop.bind fun n callee h₂ _ => ?_
    exact (allocates_callCell env opcode callee (hargs.mono h₂)
      (hkwargs.mono (h₁.trans h₂))).push_running
  | applyConstant name =>
    simp only [step]
    refine IsSound.popMark.bind fun n args _ hargs => ?_
    refine (allocates_constant env n name).isSound.bind fun m callee hle _ => ?_
    exact (allocates_callCell env opcode callee (hargs.mono hle) (by simp)).push_running
  | applyBracket =>
    simp only [step]
    refine IsSound.popMark.bind fun n cells _ hcells => ?_
    split
    · exact (allocates_callCell env opcode _ (AllBelow.cons.1 hcells).2 (by simp)).push_running
    · exact IsSound.then_running (.fail _)
  | build =>
    simp only [step]
    refine IsSound.pop.bind fun n₁ state _ hstate => ?_
    refine IsSound.get.bind fun n₂ machine h₂ ⟨hmachine, hsize⟩ => ?_
    refine IsSound.topKind.bind fun n₃ kind h₃ _ => ?_
    have hattributes : ∀ pairs, machine.stateAttributes state = some pairs →
        AllBelow n₃ (pairCells pairs) := by
      intro pairs hpairs
      exact (hmachine.stateAttributes hpairs).mono (hsize ▸ h₃)
    split
    · next hpairs => exact (IsSound.extendTopPairs (hattributes _ hpairs)).then_running
    · refine IsSound.then_running (.changeTop fun n content hle hcontent cell hcell => ?_)
      rcases Content.mem_or_eq_of_setState hcell with hcell | rfl
      · exact hcontent cell hcell
      · exact hstate.mono (by omega)
    · next hpairs => exact (IsSound.extendTopPairs (hattributes _ hpairs)).then_running
    · exact (IsSound.kind state).bind fun _ _ _ _ => IsSound.then_running (.fail _)
  | persistent id => exact (allocates_persistent env count (.str id)).push_running
  | stackPersistent =>
    simp only [step]
    refine IsSound.pop.bind fun n cell _ _ => ?_
    refine (isSound_value cell).bind fun m id _ _ => ?_
    exact (allocates_persistent env m id).push_running
  | extension code =>
    simp only [step]
    split
    · exact (allocates_embed count _).push_running
    · exact IsSound.then_running (.fail _)
  | nextBuffer =>
    simp only [step]
    refine IsSound.get.bind fun n machine _ _ => ?_
    split
    · exact IsSound.then_running (.fail _)
    · exact IsSound.then_running (.fail _)
    · refine IsSound.bind (isSound_modify ?_) fun m _ _ _ => (IsSound.pushAtom _).then_running
      exact fun _ => ⟨rfl, rfl, rfl, rfl⟩
  | makeReadonly =>
    simp only [step]
    refine IsSound.topKind.bind fun n kind _ _ => ?_
    split
    · exact IsSound.then_running
        (.changeTop fun _ _ _ h cell hcell => h cell (Content.mem_of_makeReadonly hcell))
    · exact .pure fun _ _ => trivial
    · exact IsSound.then_running (.fail _)

theorem IsSound.during {α : Type} {good : ℕ → α → Prop} {action : Exec α}
    (h : IsSound count action good) (operation : String) :
    IsSound count (Exec.during operation action) good :=
  fun machine hmachine hcount => (h machine hmachine hcount).during operation

theorem isSound_execute (instruction : Instruction) :
    IsSound count (execute env instruction) fun _ _ => True := by
  have hcount : IsSound count (Exec.count 1) fun _ _ => True :=
    isSound_modify fun _ => ⟨rfl, rfl, rfl, rfl⟩
  refine hcount.bind fun n _ _ _ => ?_
  exact (isSound_step env instruction.opcode instruction.operation).during instruction.name

/-- What an instruction leaves behind is well formed and has all slots that were there. -/
theorem wellFormed_after_execute (instruction : Instruction) {machine : Machine}
    (h : machine.WellFormed) : ((execute env instruction).after machine).WellFormed ∧
      machine.slots.size ≤ ((execute env instruction).after machine).slots.size := by
  have hsound := isSound_execute env instruction machine h le_rfl
  unfold Exec.after
  cases hresult : execute env instruction machine with
  | ok value after =>
    rw [hresult] at hsound
    exact ⟨hsound.1, hsound.2.1⟩
  | error error after =>
    rw [hresult] at hsound
    exact hsound

end Exec

/-! ## Programs -/

namespace Machine

/-- A well-formed machine stays so through any program. -/
theorem wellFormed_of_program (env : Environment) {machine : Machine} (h : machine.WellFormed)
    (program : List Instruction) : (machine.after env program).WellFormed := by
  induction program generalizing machine with
  | nil => exact h
  | cons instruction rest ih => exact ih (Exec.wellFormed_after_execute env instruction h).1

/-- The cells that a machine has anywhere.  What the memo names counts as a reference. -/
inductive Holds (machine : Machine) : Cell → Prop
  | stack {cell : Cell} (h : cell ∈ machine.stack) : Holds machine cell
  | saved {stack : List Cell} {cell : Cell} (hstack : stack ∈ machine.saved) (h : cell ∈ stack) :
      Holds machine cell
  | memo {index slot : ℕ} (h : machine.memo[index]? = some slot) : Holds machine (.ref slot)
  | inside {content : Content} {cell : Cell} (hcontent : content ∈ machine.slots)
      (h : cell ∈ content.cells) : Holds machine cell

theorem WellFormed.isBelow {machine : Machine} (h : machine.WellFormed) {cell : Cell}
    (hcell : machine.Holds cell) : cell.IsBelow machine.slots.size := by
  cases hcell with
  | stack hcell => exact h.stack cell hcell
  | saved hstack hcell => exact h.saved _ hstack cell hcell
  | memo hslot => exact h.memo _ _ hslot
  | inside hcontent hcell => exact h.slots _ hcontent cell hcell

/-- Following references never leaves the slots. -/
theorem WellFormed.lt_of_reaches {machine : Machine} (h : machine.WellFormed) {cell : Cell}
    {slot : ℕ} (hcell : cell.IsBelow machine.slots.size) (hreach : machine.Reaches cell slot) :
    slot < machine.slots.size := by
  induction hreach with
  | slot index => exact hcell
  | inside held _ ih => exact ih (h.content (.ref _) _ held)

theorem getElem?_slots {machine : Machine} {slot : ℕ} (h : slot < machine.slots.size) :
    machine.slots[slot]? = some (machine.slot slot) := by
  simp [Machine.slot_eq, h]

/-- After any program from a fresh machine, every reference leads to a slot.  Whatever the machine
holds, on the stack, set aside, in the memo or inside a container, is an atom or refers to a slot
that exists, whose content is what the cell stands for: contents are atoms, containers and
instances, and never references themselves.  The same holds of every slot that can be found from
there, so a conversion looks up no slot that is missing; and as no instruction takes slots away, no
operand is lost while an instruction is under way. -/
theorem references_resolve (options : Options) (program : List Instruction) :
    let machine := options.machine.after options.environment program
    machine.WellFormed ∧
      (∀ cell, machine.Holds cell →
        (∃ value, cell = .atom value) ∨
          ∃ slot content, cell = .ref slot ∧ machine.slots[slot]? = some content ∧
            machine.content cell = content) ∧
      (∀ cell slot, machine.Holds cell → machine.Reaches cell slot →
        machine.slots[slot]? = some (machine.slot slot)) ∧
      ∀ instruction, machine.slots.size ≤
        ((Exec.execute options.environment instruction).after machine).slots.size := by
  intro machine
  have hmachine : machine.WellFormed :=
    wellFormed_of_program options.environment (wellFormed_initial options.buffers) program
  refine ⟨hmachine, ?_, ?_, ?_⟩
  · intro cell hcell
    have hbelow := hmachine.isBelow hcell
    cases cell with
    | atom value => exact .inl ⟨value, rfl⟩
    | ref slot => exact .inr ⟨slot, machine.slot slot, rfl, getElem?_slots hbelow, rfl⟩
  · intro cell slot hcell hreach
    exact getElem?_slots (hmachine.lt_of_reaches (hmachine.isBelow hcell) hreach)
  · intro instruction
    exact (Exec.wellFormed_after_execute options.environment instruction hmachine).2

end Machine

end Pickle
