import Pickle.Proofs.Machine.Unread

/-!
# Slots in between

Contents that are moved to new slots take the numbers that other contents would have had.  If all of
them refer to what was there before, the machine with some of them is mirrored by one that has more
of them, in front and behind (`Machine.mirrors_between`).  So contents that nothing refers to make no
difference, except for the numbers of the slots that come after them.
-/

namespace Pickle

namespace Machine

/-! ## Slots that are added -/

variable {machine after : Machine} {new : Array Content}

theorem slot_of_append {slot : ℕ} (hlt : slot < machine.slots.size)
    (hslots : after.slots = machine.slots ++ new) : after.slot slot = machine.slot slot := by
  rw [slot_eq, slot_eq, hslots, Array.getElem?_append_left hlt]

/-- Cells that were there stand for what they stood for, whatever slots have been added. -/
theorem content_of_append {cell : Cell} (hbelow : cell.IsBelow machine.slots.size)
    (hslots : after.slots = machine.slots ++ new) : after.content cell = machine.content cell := by
  cases cell with
  | atom value => rfl
  | ref slot => exact slot_of_append hbelow hslots

/-- What is added between others is what its slots hold. -/
theorem slot_append_append (machine : Machine) {before own later : Array Content}
    (hslots : machine.slots = before ++ own ++ later) {index : ℕ} (hlt : index < own.size) :
    machine.slot (before.size + index) = own[index] := by
  have hsize : before.size + index < (before ++ own).size := by
    rw [Array.size_append]
    exact Nat.add_lt_add_left hlt _
  rw [slot_eq, hslots, Array.getElem?_append_left hsize,
    Array.getElem?_append_right (Nat.le_add_right _ _), Nat.add_sub_cancel_left,
    Array.getElem?_eq_getElem hlt, Option.getD_some]

/-! ## Slots that nothing refers to -/

/-- The counterpart of a slot where contents stand before and after those that the first machine
has beside so many. -/
def between (count own before after slot : ℕ) : Cell :=
  if slot < count then .ref slot
  else if slot < count + own then .ref (slot + before)
  else .ref (slot + before + after)

section Between

variable {count own before after : ℕ}

theorem rename_between {cell : Cell} (h : cell.IsBelow count) :
    cell.rename (between count own before after) = cell := by
  cases cell with
  | atom value => rfl
  | ref slot => exact if_pos h

theorem map_rename_between {cells : List Cell} (h : AllBelow count cells) :
    cells.map (Cell.rename (between count own before after)) = cells :=
  (List.map_congr_left fun cell hcell => rename_between (h cell hcell)).trans (List.map_id _)

theorem content_rename_between {content : Content} (h : AllBelow count content.cells) :
    content.rename (between count own before after) = content := by
  have hsame : content.rename (between count own before after) = content.rename .ref :=
    Content.rename_congr fun cell hcell =>
      (rename_between (h cell hcell)).trans (Cell.rename_ref cell).symm
  rw [hsame, Content.rename_ref]

theorem between_injective {slot other counterpart : ℕ}
    (hslot : between count own before after slot = .ref counterpart)
    (hother : between count own before after other = .ref counterpart) : slot = other := by
  have hsame := hslot.trans hother.symm
  unfold between at hsame
  split at hsame <;> split at hsame <;> try split at hsame <;> try split at hsame
  all_goals
    have := Cell.ref.inj hsame
    omega

end Between

/-- A machine with some contents more is mirrored by one that has others before and after them, if
all of them refer to what was there. -/
theorem mirrors_between {machine : Machine} (hwell : machine.WellFormed) {own : Array Content}
    (hown : ∀ content ∈ own, AllBelow machine.slots.size content.cells)
    (before after : Array Content) {created created' : ℕ} (hcreated : created ≤ created') :
    Mirrors True (between machine.slots.size own.size before.size after.size) ∅
      { machine with slots := machine.slots ++ own, created }
      { machine with
        slots := machine.slots ++ before ++ own ++ after
        created := created' } where
  stack := (map_rename_between hwell.stack).symm
  saved := ((List.map_congr_left fun stack hmem => map_rename_between (hwell.saved stack hmem)).trans
    (List.map_id _)).symm
  memo index _ := Option.map_congr fun slot hslot => (if_pos (hwell.memo index slot hslot)).symm
  slots slot := by
    rcases Nat.lt_or_ge slot machine.slots.size with hold | hnew
    · -- A slot that was there.
      have hslots : machine.slots ++ before ++ own ++ after =
          machine.slots ++ (before ++ own ++ after) := by simp only [Array.append_assoc]
      have hcells : AllBelow machine.slots.size (machine.slot slot).cells :=
        hwell.content (.ref slot)
      rw [between, if_pos hold, slot_of_append hold rfl, content_rename_between hcells]
      exact slot_of_append hold hslots
    obtain ⟨index, rfl⟩ := Nat.exists_eq_add_of_le hnew
    rw [between, if_neg (by omega)]
    rcases Nat.lt_or_ge index own.size with hlt | hge
    · -- A slot for one of the contents.
      have hlast : machine.slots ++ own = machine.slots ++ own ++ #[] := by rw [Array.append_empty]
      rw [if_pos (by omega), slot_append_append _ hlast hlt,
        content_rename_between (hown _ (Array.getElem_mem hlt)), Nat.add_right_comm,
        ← Array.size_append]
      exact slot_append_append _ rfl hlt
    · -- No slot.
      rw [if_neg (by omega), slot_of_size_le (by simp only [Array.size_append]; omega)]
      exact slot_of_size_le (by simp only [Array.size_append]; omega)
  buffers := rfl
  fresh number := by
    have hlast : ¬ (machine.slots ++ own).size + number < machine.slots.size + own.size := by
      simp only [Array.size_append]
      omega
    rw [between, if_neg (by simp only [Array.size_append]; omega), if_neg hlast]
    simp only [Array.size_append, Cell.ref.injEq]
    omega
  injective _ _ _ := between_injective
  linked _ slot := by
    unfold between
    split
    · exact ⟨_, rfl⟩
    · split <;> exact ⟨_, rfl⟩
  entries _ := ⟨rfl, rfl⟩
  created _ := hcreated

end Machine

end Pickle
