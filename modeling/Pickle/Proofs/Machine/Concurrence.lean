import Pickle.Proofs.Machine.Mirroring

/-!
# Outcomes that concur

Two ways of getting at the same thing create different numbers of things on the way, and with what
was created grows the budget of conversions.  So their outcomes can only be expected to be the same
as long as neither of them is that a value has too many nodes: then they `Concur`.  This is not
transitive, since the outcome in the middle may be the limit; but outcomes that both agree strictly
with a third one concur (`Concur.of_agree`), for a third one that has created more than either.

Two cells of two machines have the `SameValue` if they stand for the same trees and their values
concur.  They do if both machines are mirrored, slot by slot, by a third one that has created more
(`SameValue.of_mirrors`).
-/

namespace Pickle

/-- Whether two outcomes are both good, or the same error, unless one of them is a limit. -/
def Concur {ε α β : Type} (isLimit : ε → Prop) (good : α → β → Prop) :
    Except ε α → Except ε β → Prop
  | .ok value, .ok value' => good value value'
  | .ok _, .error error' => isLimit error'
  | .error error, .ok _ => isLimit error
  | .error error, .error error' => isLimit error ∨ isLimit error' ∨ error' = error

/-- Outcomes that agree strictly with the same one concur. -/
theorem Concur.of_agree {ε α : Type} {isLimit : ε → Prop} {good good' : α → α → Prop}
    {outcome outcome' common : Except ε α} (h : Agree True isLimit good outcome common)
    (h' : Agree True isLimit good' outcome' common) :
    Concur isLimit (fun value value' => ∃ shared, good value shared ∧ good' value' shared)
      outcome outcome' := by
  cases common with
  | ok shared =>
    cases outcome with
    | ok value =>
      cases outcome' with
      | ok value' => exact ⟨shared, h, h'⟩
      | error error' => exact h' trivial
    | error error =>
      cases outcome' with
      | ok value' => exact h trivial
      | error error' => exact .inl (h trivial)
  | error shared =>
    cases outcome with
    | ok value => exact (h.1 trivial).elim
    | error error =>
      cases outcome' with
      | ok value' => exact (h'.1 trivial).elim
      | error error' =>
        obtain hlimit | rfl := h trivial
        · exact .inl hlimit
        · obtain hlimit | rfl := h' trivial
          · exact .inr (.inl hlimit)
          · exact .inr (.inr rfl)

theorem Concur.imp {ε α β : Type} {isLimit : ε → Prop} {good good' : α → β → Prop}
    {outcome : Except ε α} {outcome' : Except ε β} (h : Concur isLimit good outcome outcome')
    (himp : ∀ value value', good value value' → good' value value') :
    Concur isLimit good' outcome outcome' := by
  cases outcome with
  | ok value =>
    cases outcome' with
    | ok value' => exact himp value value' h
    | error error' => exact h
  | error error => cases outcome' <;> exact h

/-! ## Trees of cells that correspond -/

namespace Machine

variable {f : ℕ → Cell} {tree? : Cell → Option Value}

theorem pairTrees?_rename (pairs : List (Cell × Cell)) :
    pairTrees? tree? (pairs.map (renamePair f)) =
      pairTrees? (fun cell => tree? (cell.rename f)) pairs := by
  simp only [pairTrees?, List.mapM_map]
  rfl

theorem keyTrees?_rename (cells : List Cell) :
    keyTrees? tree? (cells.map (Cell.rename f)) =
      keyTrees? (fun cell => tree? (cell.rename f)) cells := by
  simp only [keyTrees?, List.mapM_map]
  rfl

theorem contentTree?_rename (content : Content) :
    contentTree? tree? (content.rename f) =
      contentTree? (fun cell => tree? (cell.rename f)) content := by
  cases content with
  | atom value => rfl
  | list items =>
    simp only [Content.rename, contentTree?, Array.toList_map, List.mapM_map]
    rfl
  | tuple items =>
    simp only [Content.rename, contentTree?, List.mapM_map]
    rfl
  | set items => simp only [Content.rename, contentTree?, Array.toList_map, keyTrees?_rename]
  | frozenSet items => simp only [Content.rename, contentTree?, keyTrees?_rename]
  | dict pairs => simp only [Content.rename, contentTree?, Array.toList_map, pairTrees?_rename]
  | object value =>
    have hstate : (value.state.map (Cell.rename f)).mapM tree? =
        value.state.mapM fun cell => tree? (cell.rename f) := by cases value.state <;> rfl
    simp only [Content.rename, contentTree?, List.mapM_map, pairTrees?_rename, hstate]
    rfl

/-- In a strict comparison, cells that correspond stand for the same trees of the same heights. -/
theorem Mirrors.tree?_rename {dead : Set ℕ} {machine machine' : Machine}
    (h : machine.Mirrors True f dead machine') (height : ℕ) (cell : Cell) :
    machine'.tree? height (cell.rename f) = machine.tree? height cell := by
  induction height generalizing cell with
  | zero =>
    cases cell with
    | atom value => rfl
    | ref slot =>
      obtain ⟨counterpart, hcounterpart⟩ := h.linked trivial slot
      rw [Cell.rename, hcounterpart]
      rfl
  | succ height ih =>
    cases cell with
    | atom value => rfl
    | ref slot =>
      obtain ⟨counterpart, hcounterpart⟩ := h.linked trivial slot
      have hcontent := h.slots slot
      rw [hcounterpart] at hcontent
      have hslot : machine'.slot counterpart = (machine.slot slot).rename f := hcontent
      rw [Cell.rename, hcounterpart, Machine.tree?, Machine.tree?, hslot, contentTree?_rename,
        funext ih]

/-! ## Cells with the same value -/

/-- Whether a cell of one machine and a cell of another one stand for the same trees and have the
same value or the same failure, unless there are too many nodes. -/
structure SameValue (machine : Machine) (cell : Cell) (machine' : Machine) (cell' : Cell) :
    Prop where
  value : Concur Failure.IsNodeLimit Eq (machine.value cell) (machine'.value cell')
  unfolds : ∀ tree, machine.Unfolds cell tree ↔ machine'.Unfolds cell' tree

/-- Cells with a common counterpart in a machine that mirrors both machines have the same value. -/
theorem SameValue.of_mirrors {machine machine' common : Machine} {f f' : ℕ → Cell}
    {dead dead' : Set ℕ} (h : machine.Mirrors True f dead common)
    (h' : machine'.Mirrors True f' dead' common) {cell cell' : Cell}
    (hcell : cell.rename f = cell'.rename f') : machine.SameValue cell machine' cell' where
  value := by
    have hvalue := h.agree_value cell
    rw [hcell] at hvalue
    refine (Concur.of_agree hvalue (h'.agree_value cell')).imp ?_
    rintro value value' ⟨_, rfl, rfl⟩
    rfl
  unfolds tree := by
    simp only [Unfolds, ← h.tree?_rename, ← h'.tree?_rename, hcell]

end Machine

end Pickle
