import Mathlib.Data.Nat.Basic
import Mathlib.Order.Basic
import Pickle.Load
import Pickle.Machine.Heap

/-!
# What actions leave behind

An action of the machine succeeds with a value or fails, and in both cases it leaves a machine
behind, `Exec.after`.  A program can be carried out instruction by instruction whatever came of
the instructions before, `Machine.after`; the machines that a fresh one gets to in this way are all
that a run can meet.

Most of what an instruction calls only ever adds slots: taking a value of the host apart, making an
instance, calling a routine.  `Machine.GrowsTo` says what such an action may do to the machine,
and `Exec.Allocates` that an action does no more.  The new slots are paid for: there are
no more of them than nodes that were counted, except for a stated debt, which is the slot that an
instruction may take for itself.

The main results are `allocates_embed`, for values of the host of any shape, and
`allocates_callCell`.
-/

namespace Pickle

/-! ## Machines after actions and programs -/

/-- The machine that an action leaves behind, whether it succeeds or fails. -/
def Exec.after {α : Type} (action : Exec α) (machine : Machine) : Machine :=
  match action machine with
  | .ok _ machine => machine
  | .error _ machine => machine

namespace Exec

variable {α β : Type} {done done' : α → Machine → Prop} {failed failed' : Machine → Prop}

/-- What holds of the value and the machine where an action succeeded, and of the machine where it
failed. -/
abbrev Ends (result : EStateM.Result Error Machine α) (done : α → Machine → Prop)
    (failed : Machine → Prop) : Prop :=
  match result with
  | .ok value after => done value after
  | .error _ after => failed after

theorem Ends.imp {result : EStateM.Result Error Machine α} (h : Ends result done failed)
    (hdone : ∀ value after, done value after → done' value after)
    (hfailed : ∀ after, failed after → failed' after) : Ends result done' failed' := by
  cases result with
  | ok value after => exact hdone value after h
  | error error after => exact hfailed after h

theorem Ends.and {result : EStateM.Result Error Machine α} (h : Ends result done failed)
    (h' : Ends result done' failed') :
    Ends result (fun value after => done value after ∧ done' value after)
      fun after => failed after ∧ failed' after := by
  cases result with
  | ok value after => exact ⟨h, h'⟩
  | error error after => exact ⟨h, h'⟩

/-- An action that goes on after another ends as the second does, or fails as the first. -/
theorem Ends.bind {action : Exec β} {next : β → Exec α} {machine : Machine}
    (h : Ends (action machine) (fun value middle => Ends (next value middle) done failed) failed) :
    Ends ((action >>= next) machine) done failed := by
  show Ends (EStateM.bind action next machine) done failed
  unfold EStateM.bind
  cases hresult : action machine with
  | ok value middle =>
    rw [hresult] at h
    exact h
  | error error middle =>
    rw [hresult] at h
    exact h

theorem bind_of_eq_ok {action : Exec β} {next : β → Exec α} {machine middle : Machine} {value : β}
    (h : action machine = .ok value middle) : (action >>= next) machine = next value middle := by
  show EStateM.bind action next machine = next value middle
  simp only [EStateM.bind, h]

theorem bind_of_eq_error {action : Exec β} {next : β → Exec α} {machine middle : Machine}
    {error : Error} (h : action machine = .error error middle) :
    (action >>= next) machine = .error error middle := by
  show EStateM.bind action next machine = .error error middle
  simp only [EStateM.bind, h]

theorem Ends.during {action : Exec α} {machine : Machine} (operation : String)
    (h : Ends (action machine) done failed) :
    Ends (Exec.during operation action machine) done failed := by
  unfold Exec.during
  cases hresult : action machine with
  | ok value after =>
    rw [hresult] at h
    exact h
  | error error after =>
    rw [hresult] at h
    exact h

end Exec

/-- The machine after a program, every instruction of which is carried out whatever came of those
before it. -/
def Machine.after (env : Environment) (machine : Machine) (program : List Instruction) : Machine :=
  program.foldl (fun machine instruction => (Exec.execute env instruction).after machine) machine

theorem Machine.slot_eq (machine : Machine) (index : ℕ) :
    machine.slot index = machine.slots[index]?.getD .none := Array.getD_eq_getD_getElem?

/-! ## Cells below a number of slots -/

theorem Cell.IsBelow.mono {count more : ℕ} {cell : Cell} (h : cell.IsBelow count)
    (hle : count ≤ more) : cell.IsBelow more := by
  cases cell with
  | ref slot => exact Nat.lt_of_lt_of_le h hle
  | atom value => trivial

/-- Whether all of some cells refer to the first `count` slots. -/
def AllBelow (count : ℕ) (cells : List Cell) : Prop := ∀ cell ∈ cells, cell.IsBelow count

namespace AllBelow

variable {count more : ℕ} {cells others : List Cell}

theorem mono (h : AllBelow count cells) (hle : count ≤ more) : AllBelow more cells :=
  fun cell hcell => (h cell hcell).mono hle

@[simp] theorem nil : AllBelow count [] := by simp [AllBelow]

@[simp] theorem cons {cell : Cell} :
    AllBelow count (cell :: cells) ↔ cell.IsBelow count ∧ AllBelow count cells := by
  simp [AllBelow]

@[simp] theorem append :
    AllBelow count (cells ++ others) ↔ AllBelow count cells ∧ AllBelow count others := by
  simp only [AllBelow, List.mem_append, or_imp, forall_and]

theorem subset (h : AllBelow count cells) (hsub : ∀ cell ∈ others, cell ∈ cells) :
    AllBelow count others := fun cell hcell => h cell (hsub cell hcell)

end AllBelow

@[simp] theorem pairCells_nil : pairCells [] = [] := rfl

@[simp] theorem pairCells_cons (pair : Cell × Cell) (rest : List (Cell × Cell)) :
    pairCells (pair :: rest) = pair.1 :: pair.2 :: pairCells rest := rfl

@[simp] theorem pairCells_append (first second : List (Cell × Cell)) :
    pairCells (first ++ second) = pairCells first ++ pairCells second := by
  simp [pairCells]

/-! ## Growth -/

/-- Whether a machine becomes another one by new slots alone, which refer to slots that exist by
then.  They are at most as many as the nodes counted on the way, and `debt` more. -/
def Machine.GrowsTo (debt : ℕ) (before after : Machine) : Prop :=
  ∃ (new : Array Content) (created : ℕ),
    after = { before with slots := before.slots ++ new, created } ∧
      (∀ content ∈ new, AllBelow after.slots.size content.cells) ∧
      before.created ≤ created ∧ before.created + new.size ≤ created + debt

namespace Machine.GrowsTo

variable {before middle after : Machine} {debt more : ℕ}

theorem refl (machine : Machine) (debt : ℕ) : machine.GrowsTo debt machine :=
  ⟨#[], machine.created, by simp, by simp, le_rfl, by simp⟩

theorem size_le (h : before.GrowsTo debt after) : before.slots.size ≤ after.slots.size := by
  obtain ⟨new, created, rfl, -, -, -⟩ := h
  simp

/-- The debts of two stretches add up. -/
theorem trans (first : before.GrowsTo debt middle) (second : middle.GrowsTo more after) :
    before.GrowsTo (debt + more) after := by
  obtain ⟨new, created, rfl, hnew, hle, hpaid⟩ := first
  obtain ⟨newer, total, rfl, hnewer, hle', hpaid'⟩ := second
  refine ⟨new ++ newer, total, by simp [Array.append_assoc], ?_, ?_, ?_⟩
  · intro content hcontent
    rcases Array.mem_append.1 hcontent with h | h
    · exact (hnew content h).mono (by simp)
    · exact hnewer content h
  · exact hle.trans hle'
  · simp only [Array.size_append] at *
    omega

theorem mono (h : before.GrowsTo debt after) (hle : debt ≤ more) :
    before.GrowsTo more after := by
  obtain ⟨new, created, rfl, hnew, hcreated, hpaid⟩ := h
  exact ⟨new, created, rfl, hnew, hcreated, by omega⟩

/-- A well-formed machine stays so: what was there refers to what was there. -/
theorem wellFormed (h : before.GrowsTo debt after) (hbefore : before.WellFormed) :
    after.WellFormed := by
  have hsize := h.size_le
  obtain ⟨new, created, rfl, hnew, -, -⟩ := h
  exact {
    stack := fun cell hcell => (hbefore.stack cell hcell).mono hsize
    saved := fun stack hstack cell hcell => (hbefore.saved stack hstack cell hcell).mono hsize
    memo := fun index slot hslot => Nat.lt_of_lt_of_le (hbefore.memo index slot hslot) hsize
    slots := by
      intro content hcontent cell hcell
      rcases Array.mem_append.1 hcontent with h | h
      · exact (hbefore.slots content h cell hcell).mono hsize
      · exact hnew content h cell hcell }

end Machine.GrowsTo

/-! ## Actions that allocate -/

namespace Exec

variable {α β : Type} {count debt more : ℕ} {good : ℕ → α → Prop} {fine : ℕ → β → Prop}

/-- Whether an action that starts with `count` slots or more only makes the machine grow.  Its
result is good for the number of slots in the end. -/
def Allocates (count debt : ℕ) (action : Exec α) (good : ℕ → α → Prop) : Prop :=
  ∀ machine, count ≤ machine.slots.size →
    Ends (action machine)
      (fun value after => machine.GrowsTo debt after ∧ good after.slots.size value)
      (machine.GrowsTo debt)

namespace Allocates

theorem pure {value : α} (h : ∀ n, count ≤ n → good n value) :
    Allocates count debt (Pure.pure value) good :=
  fun machine hcount => ⟨.refl machine debt, h _ hcount⟩

theorem fail (failure : Failure) : Allocates count debt (Exec.fail failure) good :=
  fun machine _ => .refl machine debt

theorem ofExcept (result : Except Error α) (h : ∀ value n, good n value) :
    Allocates count debt (Exec.ofExcept result) good := by
  cases result with
  | ok value => exact pure fun n _ => h value n
  | error error => exact fun machine _ => .refl machine debt

theorem bind {action : Exec α} {next : α → Exec β} (first : Allocates count debt action good)
    (second : ∀ n value, count ≤ n → good n value → Allocates n more (next value) fine) :
    Allocates count (debt + more) (action >>= next) fine := by
  refine fun machine hcount => (first machine hcount).imp ?_ ?_ |>.bind
  · intro value middle ⟨hgrows, hgood⟩
    refine (second _ value (hcount.trans hgrows.size_le) hgood middle le_rfl).imp ?_ ?_
    · exact fun result after ⟨hnext, hfine⟩ => ⟨hgrows.trans hnext, hfine⟩
    · exact fun after hnext => hgrows.trans hnext
  · exact fun middle hgrows => hgrows.mono (Nat.le_add_right debt more)

/-- A step that owes nothing may stand in front of any other. -/
theorem bind_free {action : Exec α} {next : α → Exec β} (first : Allocates count 0 action good)
    (second : ∀ n value, count ≤ n → good n value → Allocates n more (next value) fine) :
    Allocates count more (action >>= next) fine := by
  simpa using bind first second

theorem mono {action : Exec α} (h : Allocates count debt action good) (hle : debt ≤ more) :
    Allocates count more action good :=
  fun machine hcount => (h machine hcount).imp (fun _ _ haction => ⟨haction.1.mono hle, haction.2⟩)
    fun _ hgrows => hgrows.mono hle

theorem content (cell : Cell) :
    Allocates count debt (Exec.content cell) fun _ _ => True :=
  fun machine _ => ⟨.refl machine debt, trivial⟩

theorem value (cell : Cell) : Allocates count debt (Exec.value cell) fun _ _ => True := by
  intro machine _
  unfold Exec.value
  cases machine.value cell with
  | ok value => exact ⟨.refl machine debt, trivial⟩
  | error failure => exact .refl machine debt

/-- A new slot is owed by whoever asks for it. -/
theorem alloc {content : Content} (h : AllBelow count content.cells) :
    Allocates count 1 (Exec.alloc content) fun n cell => cell.IsBelow n := by
  intro machine hcount
  have hsize : (machine.slots.push content).size = machine.slots.size + 1 :=
    Array.size_push content
  refine ⟨⟨#[content], machine.created, by simp, ?_, le_rfl, by simp⟩, ?_⟩
  · intro other hother
    obtain rfl : other = content := by simpa using hother
    exact h.mono (by simp only [hsize]; omega)
  · show machine.slots.size < (machine.slots.push content).size
    omega

/-- A counted node pays for the slot of its container. -/
theorem enter_bind {levels : ℕ} {next : ℕ → Exec β}
    (h : ∀ levels, Allocates count 1 (next levels) fine) :
    Allocates count 0 (Exec.enter levels >>= next) fine := by
  intro machine hcount
  cases levels with
  | zero => exact .refl machine 0
  | succ levels =>
    have hnext := h levels { machine with created := machine.created + 1 } hcount
    have hgrows : ∀ {after : Machine},
        Machine.GrowsTo 1 { machine with created := machine.created + 1 } after →
          machine.GrowsTo 0 after := by
      rintro after ⟨new, created, rfl, hnew, hle, hpaid⟩
      simp only at hle hpaid
      exact ⟨new, created, rfl, hnew, by omega, by omega⟩
    exact hnext.imp (fun _ _ haction => ⟨hgrows haction.1, haction.2⟩) fun _ => hgrows

theorem mapM {γ : Type} {action : γ → Exec α} {items : List γ}
    (h : ∀ item ∈ items, ∀ n, Allocates n 0 (action item) fun _ _ => True) :
    Allocates count 0 (items.mapM action) fun _ _ => True := by
  induction items generalizing count with
  | nil => simpa using pure fun _ _ => trivial
  | cons item rest ih =>
    rw [List.mapM_cons]
    refine bind_free (h item (by simp) _) fun n value _ _ => ?_
    exact bind_free (ih fun other hother => h other (by simp [hother])) fun _ _ _ _ =>
      pure fun _ _ => trivial

end Allocates

/-! ## Values of the host -/

mutual

theorem allocates_embedKey (count levels : ℕ) :
    (key : Key) → Allocates count 0 (embedKey levels key) fun n cell => cell.IsBelow n
  | .scalar value => by
    rw [embedKey]
    exact .enter_bind fun _ => .pure fun _ _ => trivial
  | .tuple items => by
    rw [embedKey]
    refine .enter_bind fun levels => ?_
    refine .bind_free (allocates_embedKeys count levels #[] items (by simp)) fun n cells _ h => ?_
    exact .alloc h
  | .frozenSet items => by
    rw [embedKey]
    refine .enter_bind fun levels => ?_
    refine .bind_free (allocates_embedKeys count levels #[] items (by simp)) fun n cells _ h => ?_
    exact .alloc h

theorem allocates_embedKeys (count levels : ℕ) (cells : Array Cell) :
    (items : List Key) → AllBelow count cells.toList →
      Allocates count 0 (embedKeys levels cells items) fun n cells => AllBelow n cells.toList
  | [], h => by
    rw [embedKeys]
    exact .pure fun _ hle => h.mono hle
  | item :: rest, h => by
    rw [embedKeys]
    refine .bind_free (allocates_embedKey count levels item) fun n cell hle hcell => ?_
    exact allocates_embedKeys n levels (cells.push cell) rest (by simp [h.mono hle, hcell])

end

mutual

theorem allocates_embedAt (count levels : ℕ) :
    (value : Value) → Allocates count 0 (embedAt levels value) fun n cell => cell.IsBelow n
  | .atom value => by
    rw [embedAt]
    exact .enter_bind fun _ => .pure fun _ _ => trivial
  | .list items => by
    rw [embedAt]
    refine .enter_bind fun levels => ?_
    refine .bind_free (allocates_embedAll count levels #[] items (by simp)) fun n cells _ h => ?_
    exact .alloc h
  | .tuple items => by
    rw [embedAt]
    refine .enter_bind fun levels => ?_
    refine .bind_free (allocates_embedAll count levels #[] items (by simp)) fun n cells _ h => ?_
    exact .alloc h
  | .set items => by
    rw [embedAt]
    refine .enter_bind fun levels => ?_
    refine .bind_free (allocates_embedKeys count levels #[] items (by simp)) fun n cells _ h => ?_
    exact .alloc h
  | .frozenSet items => by
    rw [embedAt]
    refine .enter_bind fun levels => ?_
    refine .bind_free (allocates_embedKeys count levels #[] items (by simp)) fun n cells _ h => ?_
    exact .alloc h
  | .dict pairs => by
    rw [embedAt]
    refine .enter_bind fun levels => ?_
    refine .bind_free (allocates_embedPairs count levels #[] pairs (by simp)) fun n cells _ h => ?_
    exact .alloc h
  | .object ⟨className, args, kwargs, attributes, state⟩ => by
    rw [embedAt]
    refine .enter_bind fun levels => ?_
    -- Each part is built after the one before it, so the references of earlier parts stay below.
    have hargs := allocates_embedAll count levels #[] args (by simp)
    refine .bind_free hargs fun n₁ args h₁ hargs => ?_
    refine .bind_free (allocates_embedKeywords n₁ levels #[] kwargs (by simp))
      fun n₂ kwargs h₂ hkwargs => ?_
    refine .bind_free (allocates_embedPairs n₂ levels #[] attributes (by simp))
      fun n₃ attributes h₃ hattributes => ?_
    refine .bind_free (allocates_embedState n₃ levels state) fun n₄ state h₄ hstate => ?_
    refine .alloc ?_
    simp only [Content.cells, AllBelow.append]
    exact ⟨⟨⟨hargs.mono (by omega), hkwargs.mono (by omega)⟩, hattributes.mono h₄⟩, hstate⟩

theorem allocates_embedAll (count levels : ℕ) (cells : Array Cell) :
    (items : List Value) → AllBelow count cells.toList →
      Allocates count 0 (embedAll levels cells items) fun n cells => AllBelow n cells.toList
  | [], h => by
    rw [embedAll]
    exact .pure fun _ hle => h.mono hle
  | item :: rest, h => by
    rw [embedAll]
    refine .bind_free (allocates_embedAt count levels item) fun n cell hle hcell => ?_
    exact allocates_embedAll n levels (cells.push cell) rest (by simp [h.mono hle, hcell])

theorem allocates_embedPairs (count levels : ℕ) (cells : Array (Cell × Cell)) :
    (pairs : List (Key × Value)) → AllBelow count (pairCells cells.toList) →
      Allocates count 0 (embedPairs levels cells pairs) fun n cells =>
        AllBelow n (pairCells cells.toList)
  | [], h => by
    rw [embedPairs]
    exact .pure fun _ hle => h.mono hle
  | (key, value) :: rest, h => by
    rw [embedPairs]
    refine .bind_free (allocates_embedKey count levels key) fun n₁ key h₁ hkey => ?_
    refine .bind_free (allocates_embedAt n₁ levels value) fun n₂ value h₂ hvalue => ?_
    refine allocates_embedPairs n₂ levels (cells.push (key, value)) rest ?_
    simp [h.mono (h₁.trans h₂), hkey.mono h₂, hvalue]

theorem allocates_embedKeywords (count levels : ℕ) (cells : Array (String × Cell)) :
    (kwargs : List (String × Value)) → AllBelow count (cells.toList.map Prod.snd) →
      Allocates count 0 (embedKeywords levels cells kwargs) fun n cells =>
        AllBelow n (cells.toList.map Prod.snd)
  | [], h => by
    rw [embedKeywords]
    exact .pure fun _ hle => h.mono hle
  | (name, value) :: rest, h => by
    rw [embedKeywords]
    refine .bind_free (allocates_embedAt count levels value) fun n value hle hvalue => ?_
    exact allocates_embedKeywords n levels (cells.push (name, value)) rest
      (by simpa [hvalue] using h.mono hle)

theorem allocates_embedState (count levels : ℕ) :
    (state : Option Value) → Allocates count 0 (embedState levels state) fun n state =>
      AllBelow n state.toList
  | none => by
    rw [embedState]
    exact .pure fun _ _ => by simp
  | some value => by
    rw [embedState]
    refine .bind_free (allocates_embedAt count levels value) fun n cell _ hcell => ?_
    exact .pure fun _ hle => by simpa using hcell.mono hle

end

/-- Taking a value of the host apart adds slots, all paid for, and gives a cell that refers to
nothing else. -/
theorem allocates_embed (count : ℕ) (value : Value) :
    Allocates count 0 (embed value) fun n cell => cell.IsBelow n :=
  allocates_embedAt count maxDepth value

/-! ## Calls -/

variable (env : Environment)

theorem allocates_constant (count : ℕ) (name : QualifiedName) :
    Allocates count 0 (constant env name) fun n cell => cell.IsBelow n :=
  allocates_embed count (env.constants.resolve name)

theorem allocates_persistent (count : ℕ) (id : Value) :
    Allocates count 0 (persistent env id) fun n cell => cell.IsBelow n := by
  unfold persistent
  split
  · exact .bind_free (.ofExcept _ fun _ _ => trivial) fun n value _ _ => allocates_embed n value
  · exact .fail _

/-- A call adds slots, of which only that of a new instance is not paid for. -/
theorem allocates_callCell {count : ℕ} (opcode : Opcode) (callee : Cell) {args : List Cell}
    {kwargs : List (String × Cell)} (hargs : AllBelow count args)
    (hkwargs : AllBelow count (kwargs.map Prod.snd)) :
    Allocates count 1 (callCell env opcode callee args kwargs) fun n cell => cell.IsBelow n := by
  unfold callCell
  refine .bind_free (.content callee) fun n content hle _ => ?_
  split
  · refine .alloc ?_
    simp only [Content.cells, Instance.fresh, AllBelow.append]
    exact ⟨⟨⟨hargs.mono hle, hkwargs.mono hle⟩, by simp⟩, by simp⟩
  · refine .bind_free (.mapM fun cell _ n => .value cell) fun n₁ args _ _ => ?_
    refine .bind_free (.mapM fun pair _ n => ?_) fun n₂ kwargs _ _ => ?_
    · exact .bind_free (.value pair.2) fun _ _ _ _ => .pure fun _ _ => trivial
    · refine .bind_free (.ofExcept _ fun _ _ => trivial) fun n₃ value _ _ => ?_
      exact (allocates_embed n₃ value).mono (Nat.zero_le 1)
  · exact .fail _

end Exec

end Pickle
