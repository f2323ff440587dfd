import Pickle.Proofs.Machine.Calls
import Pickle.Proofs.Machine.Lone
import Pickle.Proofs.Machine.Padding

/-!
# Memo entries that nothing reads

A memo entry that is not read before it is written again, or before the end, is of no use, and one
may leave out the instruction that writes it.  This is not without effect on the machine: to write
an entry is to share the stack top, so an atom on top moves into a slot.  Without the instruction it
stays in its cell, all slots that come later have smaller numbers, and the memo lacks the entry.  So
the machines mirror each other with that entry dead and the atom in the place of its slot
(`trails_of_write`).

That slot is one that a single cell refers to.  When it comes to be shared, by the instruction that
is left out or by another one, the other machine moves its atom into a slot, and when the atom is
changed on top of the stack, it is changed in both (`agreeFrom_execute_of_trails`).
`run_without_write` draws the conclusion for runs.
-/

namespace Pickle

/-! ## Other counterparts for one slot -/

theorem Content.rename_congr {f f' : ℕ → Cell} {content : Content}
    (h : ∀ cell ∈ content.cells, cell.rename f' = cell.rename f) :
    content.rename f' = content.rename f := by
  have hpairs : ∀ pairs : List (Cell × Cell),
      (∀ cell ∈ pairCells pairs, cell.rename f' = cell.rename f) →
        pairs.map (renamePair f') = pairs.map (renamePair f) := by
    intro pairs hpairs
    refine List.map_congr_left fun pair hpair => ?_
    obtain ⟨hfirst, hsecond⟩ := mem_pairCells hpair
    rw [renamePair, renamePair, hpairs _ hfirst, hpairs _ hsecond]
  cases content with
  | atom value => rfl
  | list items | set items =>
    exact congrArg _ (Array.map_congr_left fun cell hcell => h cell (Array.mem_toList_iff.2 hcell))
  | tuple items | frozenSet items => exact congrArg _ (List.map_congr_left h)
  | dict pairs =>
    have hsame := hpairs pairs.toList h
    rw [← Array.toList_map, ← Array.toList_map, Array.toList_inj] at hsame
    exact congrArg _ hsame
  | object value =>
    simp only [cells, List.mem_append, or_imp, forall_and] at h
    obtain ⟨⟨⟨hargs, hkwargs⟩, hattributes⟩, hstate⟩ := h
    have hnames : value.kwargs.map (renameKeyword f') = value.kwargs.map (renameKeyword f) := by
      refine List.map_congr_left fun pair hpair => ?_
      rw [renameKeyword, renameKeyword, hkwargs _ (List.mem_map_of_mem hpair)]
    have hlast : value.state.map (Cell.rename f') = value.state.map (Cell.rename f) :=
      Option.map_congr fun cell hcell => hstate cell (Option.mem_toList.2 hcell)
    simp only [rename, List.map_congr_left hargs, hnames, hpairs _ hattributes, hlast]

namespace Machine

variable {f f' : ℕ → Cell} {dead : Set ℕ} {machine machine' : Machine} {slot : ℕ} {rest : List Cell}
  {value : Atom}

/-- Where there is no slot, there is nothing. -/
theorem slot_of_size_le (h : machine.slots.size ≤ slot) : machine.slot slot = .none := by
  rw [slot_eq, Array.getElem?_eq_none h]
  rfl

/-- A slot that the stack top alone refers to is referred to by no other cell. -/
theorem IsLone.ne_ref (h : machine.IsLone slot []) (hstack : machine.stack = .ref slot :: rest) :
    (∀ cell ∈ rest, cell ≠ .ref slot) ∧
      (∀ stack ∈ machine.saved, ∀ cell ∈ stack, cell ≠ .ref slot) ∧ ¬ machine.Stores slot := by
  have hcount : machine.stacked.count (.ref slot) =
      1 + (rest ++ machine.saved.flatten).count (.ref slot) := by
    rw [stacked, hstack, List.cons_append, List.count_cons_self, Nat.add_comm]
  have hnone : .ref slot ∉ rest ++ machine.saved.flatten ∧ ¬ machine.Stores slot := by
    rcases h.count with ⟨-, hzero⟩ | ⟨hstored, hone⟩
    · omega
    · exact ⟨List.count_eq_zero.1 (by omega), hstored⟩
  refine ⟨?_, ?_, hnone.2⟩
  · rintro cell hcell rfl
    exact hnone.1 (List.mem_append_left _ hcell)
  · rintro stack hstack cell hcell rfl
    exact hnone.1 (List.mem_append_right _ (List.mem_flatten.2 ⟨stack, hstack, hcell⟩))

/-- Another counterpart for a slot that the stack top alone refers to shows nowhere else. -/
structure Relabels (dead : Set ℕ) (machine : Machine) (rest : List Cell) (f f' : ℕ → Cell) :
    Prop where
  rest : rest.map (Cell.rename f') = rest.map (Cell.rename f)
  saved : machine.saved.map (List.map (Cell.rename f')) =
    machine.saved.map (List.map (Cell.rename f))
  memo : ∀ index ∉ dead, machine.memo[index]?.map f' = machine.memo[index]?.map f
  slots : ∀ index, (machine.slot index).rename f' = (machine.slot index).rename f

theorem Mirrors.relabels (h : machine.Mirrors False f dead machine') (hwell : machine.WellFormed)
    (hlone : machine.IsLone slot []) (hstack : machine.stack = .ref slot :: rest)
    (hslot : f slot = .atom value)
    (hsame : ∀ other < machine.slots.size, other ≠ slot → f' other = f other) :
    machine.Relabels dead rest f f' := by
  obtain ⟨hrest, hsaved, hstores⟩ := hlone.ne_ref hstack
  have hcell : ∀ cell : Cell, cell.IsBelow machine.slots.size → cell ≠ .ref slot →
      cell.rename f' = cell.rename f := by
    intro cell hbelow hne
    cases cell with
    | atom value => rfl
    | ref other => exact hsame other hbelow fun heq => hne (congrArg Cell.ref heq)
  refine ⟨List.map_congr_left fun cell hmem => ?_, List.map_congr_left fun stack hmem =>
    List.map_congr_left fun cell hin => ?_, fun index hindex => ?_, fun index =>
    Content.rename_congr fun cell hmem => ?_⟩
  · exact hcell cell (hwell.stack cell (hstack ▸ List.mem_cons_of_mem _ hmem)) (hrest cell hmem)
  · exact hcell cell (hwell.saved stack hmem cell hin) (hsaved stack hmem cell hin)
  · -- What a live memo entry names has a slot for its counterpart.
    have hmemo := h.memo index hindex
    cases hother : machine.memo[index]? with
    | none => rfl
    | some other =>
      refine congrArg some (hsame other (hwell.memo index other hother) ?_)
      rintro rfl
      rw [hother, Option.map_some, hslot] at hmemo
      obtain ⟨_, -, heq⟩ := Option.map_eq_some_iff.1 hmemo
      cases heq
  · refine hcell cell (hwell.content (.ref index) cell hmem) ?_
    rintro rfl
    exact hstores (@stores_of_mem_content _ _ (.ref index) hmem)

/-- Counterparts as they were, but a new slot for one slot. -/
def relink (f : ℕ → Cell) (machine machine' : Machine) (slot other : ℕ) : Cell :=
  if other = slot then .ref machine'.slots.size
  else if other < machine.slots.size then f other
  else .ref (machine'.slots.size + 1 + (other - machine.slots.size))

theorem relink_self : relink f machine machine' slot slot = .ref machine'.slots.size := if_pos rfl

theorem relink_of_ne {other : ℕ} (hlt : other < machine.slots.size) (hne : other ≠ slot) :
    relink f machine machine' slot other = f other := by
  rw [relink, if_neg hne, if_pos hlt]

theorem relink_add (hlt : slot < machine.slots.size) (number : ℕ) :
    relink f machine machine' slot (machine.slots.size + number) =
      .ref (machine'.slots.size + 1 + number) := by
  rw [relink, if_neg (by omega), if_neg (by omega), Nat.add_sub_cancel_left]

/-- A slot is the one in question, another one that was there, or one to come. -/
theorem relink_cases (machine : Machine) (slot other : ℕ) :
    other = slot ∨ (other ≠ slot ∧ other < machine.slots.size) ∨
      ∃ number, other = machine.slots.size + number := by
  rcases Nat.lt_or_ge other machine.slots.size with hlt | hge
  · exact (em (other = slot)).imp_right fun hne => .inl ⟨hne, hlt⟩
  · exact .inr (.inr ⟨_, (Nat.add_sub_cancel' hge).symm⟩)

theorem Mirrors.relink_injective (h : machine.Mirrors False f dead machine')
    (hlt : slot < machine.slots.size) {first second counterpart : ℕ}
    (hfirst : relink f machine machine' slot first = .ref counterpart)
    (hsecond : relink f machine machine' slot second = .ref counterpart) : first = second := by
  have hcases : ∀ other, relink f machine machine' slot other = .ref counterpart →
      (other = slot ∧ counterpart = machine'.slots.size) ∨
        (f other = .ref counterpart ∧ counterpart < machine'.slots.size) ∨
          ∃ number, other = machine.slots.size + number ∧
            counterpart = machine'.slots.size + 1 + number := by
    intro other hother
    rcases relink_cases machine slot other with rfl | ⟨hne, hbefore⟩ | ⟨number, rfl⟩
    · exact .inl ⟨rfl, (Cell.ref.inj (relink_self.symm.trans hother)).symm⟩
    · rw [relink_of_ne hbefore hne] at hother
      exact .inr (.inl ⟨hother, h.lt_size hbefore hother⟩)
    · rw [relink_add hlt] at hother
      exact .inr (.inr ⟨number, rfl, (Cell.ref.inj hother).symm⟩)
  rcases hcases first hfirst with ⟨rfl, hsize⟩ | ⟨hfound, hbelow⟩ | ⟨number, rfl, hsize⟩ <;>
    rcases hcases second hsecond with ⟨rfl, hsize'⟩ | ⟨hfound', hbelow'⟩ | ⟨number', rfl, hsize'⟩
  all_goals first | omega | exact h.injective _ _ _ hfound hfound'

/-- The atom on top may be moved into a slot of its own, the counterpart of a slot that the stack
top alone refers to. -/
theorem Mirrors.share (h : machine.Mirrors False f dead machine') (hwell : machine.WellFormed)
    (hlone : machine.IsLone slot []) (hstack : machine.stack = .ref slot :: rest)
    (hslot : f slot = .atom value) :
    machine.Mirrors False (relink f machine machine' slot) dead
      (machine'.shareAtom value (rest.map (Cell.rename f))) := by
  have hsame : machine.Relabels dead rest f (relink f machine machine' slot) :=
    h.relabels hwell hlone hstack hslot fun other hlt hne => relink_of_ne hlt hne
  refine { h with
    stack := ?_, saved := ?_, memo := ?_, slots := ?_, fresh := ?_, injective := ?_, linked := ?_ }
  · rw [hstack, List.map_cons, hsame.rest, Cell.rename, relink_self]
    rfl
  · rw [hsame.saved, ← h.saved]
    rfl
  · exact fun index hindex => (h.memo index hindex).trans (hsame.memo index hindex).symm
  · intro other
    rw [hsame.slots]
    rcases relink_cases machine slot other with rfl | ⟨hne, hlt⟩ | ⟨number, rfl⟩
    · rw [relink_self, h.slot_of_atom hslot]
      simp [Machine.content, Machine.slot_eq, Content.rename, shareAtom]
    · rw [relink_of_ne hlt hne, ← h.slots]
      cases hother : f other with
      | atom atom => rfl
      | ref counterpart =>
        have hcounterpart := h.lt_size hlt hother
        simp only [Machine.content, Machine.slot_eq, shareAtom]
        rw [Array.getElem?_push_lt hcounterpart, Array.getElem?_eq_getElem hcounterpart]
    · rw [relink_add hlone.lt, slot_of_size_le (Nat.le_add_right _ _)]
      exact slot_of_size_le (by rw [shareAtom, Array.size_push]; omega)
  · intro number
    rw [relink_add hlone.lt, shareAtom, Array.size_push]
  · exact fun first second counterpart => h.relink_injective hlone.lt
  · exact False.elim

theorem eq_atom_of_relink (hlt : slot < machine.slots.size) {other : ℕ} {atom : Atom}
    (h : relink f machine machine' slot other = .atom atom) : f other = .atom atom := by
  rcases relink_cases machine slot other with rfl | ⟨hne, hbefore⟩ | ⟨number, rfl⟩
  · rw [relink_self] at h
    cases h
  · rwa [relink_of_ne hbefore hne] at h
  · rw [relink_add hlt] at h
    cases h

/-- The atom on top may be changed in its cell as it is changed in a slot that the stack top alone
refers to. -/
theorem Mirrors.makeReadonly (h : machine.Mirrors False f dead machine')
    (hwell : machine.WellFormed) (hlone : machine.IsLone slot [])
    (hstack : machine.stack = .ref slot :: rest) (hslot : f slot = .atom value) {changed : Atom}
    (hchanged : Content.makeReadonly (.atom value) = .atom changed) :
    ∃ f', Mirrors False f' dead
        { machine with slots := machine.slots.modify slot .makeReadonly }
        { machine' with stack := .atom changed :: rest.map (Cell.rename f) } ∧
      ∀ other atom, f' other = .atom atom → ∃ before, f other = .atom before := by
  -- The slot is named by the stack top only, so it is enough to rename it to the changed bytes.
  have hold : ∀ other, other ≠ slot → Function.update f slot (.atom changed) other = f other :=
    fun other hne => Function.update_of_ne hne _ _
  have hnew : Function.update f slot (.atom changed) slot = .atom changed := Function.update_self ..
  have hsame := h.relabels hwell hlone hstack hslot fun other _ hne => hold other hne
  have hlinked : ∀ other counterpart,
      Function.update f slot (.atom changed) other = .ref counterpart →
        f other = .ref counterpart := by
    intro other counterpart hother
    by_cases heq : other = slot
    · rw [heq, hnew] at hother
      cases hother
    · rwa [← hold other heq]
  refine ⟨Function.update f slot (.atom changed), { h with
    stack := ?_, saved := ?_, memo := ?_, slots := ?_, fresh := ?_, injective := ?_, linked := ?_ },
    ?_⟩
  · rw [hstack, List.map_cons, hsame.rest, Cell.rename, hnew]
  · rw [h.saved, hsame.saved]
  · exact fun index hindex => (h.memo index hindex).trans (hsame.memo index hindex).symm
  · intro other
    rw [slot_modify machine rfl]
    by_cases heq : slot = other
    · subst heq
      rw [if_pos rfl, hnew, h.slot_of_atom hslot, hchanged]
      rfl
    · rw [if_neg heq, hold other (Ne.symm heq), hsame.slots, ← h.slots]
      rfl
  · intro number
    have hlt := hlone.lt
    rw [Array.size_modify, hold _ (by omega)]
    exact h.fresh number
  · exact fun first second counterpart hfirst hsecond =>
      h.injective _ _ _ (hlinked first _ hfirst) (hlinked second _ hsecond)
  · exact False.elim
  · intro other atom hother
    by_cases heq : other = slot
    · exact ⟨value, heq ▸ hslot⟩
    · exact ⟨atom, by rwa [← hold other heq]⟩

/-! ## Machines that go without a slot -/

/-- Whether another machine goes without some slots, and without some memo entries.  What is in such
a slot, an atom, it has in the one cell that refers to the slot. -/
def Trails (dead : Set ℕ) (machine machine' : Machine) : Prop :=
  ∃ f, machine.Mirrors False f dead machine' ∧
    ∀ slot value, f slot = .atom value → machine.IsLone slot []

variable {env : Environment} {after : Machine} {status : Status} {instruction : Instruction}
  {index : ℕ}

/-- To write a memo entry is to share the stack top: it is a slot, or an atom that moves into a new
one. -/
theorem eq_of_execute_memoize (hoperation : instruction.operation = .memoize (some index))
    (hexecute : Exec.execute env instruction machine = .ok status after) :
    status = .running ∧
      ((∃ slot rest, machine.stack = .ref slot :: rest ∧ after =
          { machine with
            memo := machine.memo.insert index slot, created := machine.created + 1 }) ∨
        ∃ value rest, machine.stack = .atom value :: rest ∧ after = shareAtom
          { machine with
            memo := machine.memo.insert index machine.slots.size, created := machine.created + 1 }
          value rest) := by
  have hstep := Exec.step_of_execute env hexecute
  rw [hoperation, Exec.step, Exec.memoize, bind_assoc] at hstep
  rcases hstack : machine.stack with _ | ⟨slot | value, rest⟩
  · have hshare : Exec.shareTop { machine with created := machine.created + 1 } =
        .error (.ofFailure .stackUnderflow) { machine with created := machine.created + 1 } := by
      simp [Exec.shareTop, hstack]
    rw [Exec.bind_of_eq_error hshare] at hstep
    cases hstep
  · have hshare : Exec.shareTop { machine with created := machine.created + 1 } =
        .ok slot { machine with created := machine.created + 1 } := by
      simp [Exec.shareTop, hstack]
    rw [Exec.bind_of_eq_ok hshare] at hstep
    cases hstep
    exact ⟨rfl, .inl ⟨slot, rest, rfl, by rw [← hstack]⟩⟩
  · have hshare : Exec.shareTop { machine with created := machine.created + 1 } =
        .ok machine.slots.size
          (shareAtom { machine with created := machine.created + 1 } value rest) := by
      simp [Exec.shareTop, hstack, shareAtom]
    rw [Exec.bind_of_eq_ok hshare] at hstep
    cases hstep
    exact ⟨rfl, .inr ⟨value, rest, rfl, rfl⟩⟩

/-- When an atom on top moves into a new slot, the top alone refers to this slot. -/
theorem isLone_shareAtom (hwell : machine.WellFormed)
    (hstack : machine.stack = .atom value :: rest) :
    (machine.shareAtom value rest).IsLone machine.slots.size [] := by
  have hbelow : ∀ cell : Cell, cell.IsBelow machine.slots.size →
      cell ≠ .ref machine.slots.size := by
    rintro cell hbelow rfl
    exact Nat.lt_irrefl _ hbelow
  refine ⟨by simp [shareAtom], .inr ⟨?_, ?_⟩⟩
  · rintro ⟨content, hcontent, hmem⟩
    rcases Array.mem_push.1 hcontent with hcontent | rfl
    · exact hbelow _ (hwell.slots content hcontent _ hmem) rfl
    · cases hmem
  · have hnone : (rest ++ machine.saved.flatten).count (.ref machine.slots.size) = 0 := by
      refine List.count_eq_zero.2 fun hmem => ?_
      rcases List.mem_append.1 hmem with hmem | hmem
      · exact hbelow _ (hwell.stack _ (hstack ▸ List.mem_cons_of_mem _ hmem)) rfl
      · obtain ⟨stack, hin, hmem⟩ := List.mem_flatten.1 hmem
        exact hbelow _ (hwell.saved stack hin _ hmem) rfl
    have hstacked : (machine.shareAtom value rest).stacked =
        .ref machine.slots.size :: (rest ++ machine.saved.flatten) := rfl
    rw [hstacked, List.count_cons_self, hnone, List.count_nil]

/-- Counterparts in a machine that has an atom in the place of the slot after the first `count`, so
that the slots after this one have smaller numbers. -/
def unlink (count : ℕ) (value : Atom) (slot : ℕ) : Cell :=
  if slot < count then .ref slot else if slot = count then .atom value else .ref (slot - 1)

section Unlink

variable {count : ℕ}

theorem unlink_of_lt (h : slot < count) : unlink count value slot = .ref slot := if_pos h

theorem unlink_self : unlink count value count = .atom value := by simp [unlink]

theorem unlink_add (number : ℕ) :
    unlink count value (count + 1 + number) = .ref (count + number) := by
  rw [unlink, if_neg (by omega), if_neg (by omega)]
  exact congrArg Cell.ref (by omega)

/-- A slot is one of the first, the one after them, or one after that. -/
theorem unlink_cases (count slot : ℕ) :
    slot < count ∨ slot = count ∨ ∃ number, slot = count + 1 + number := by
  rcases Nat.lt_trichotomy slot count with hlt | heq | hgt
  · exact .inl hlt
  · exact .inr (.inl heq)
  · exact .inr (.inr (Nat.exists_eq_add_of_le (Nat.succ_le_of_lt hgt)))

theorem unlink_injective {first second counterpart : ℕ}
    (hfirst : unlink count value first = .ref counterpart)
    (hsecond : unlink count value second = .ref counterpart) : first = second := by
  have hcases : ∀ slot, unlink count value slot = .ref counterpart →
      (slot = counterpart ∧ slot < count) ∨
        ∃ number, slot = count + 1 + number ∧ counterpart = count + number := by
    intro slot hslot
    rcases unlink_cases count slot with hlt | rfl | ⟨number, rfl⟩
    · rw [unlink_of_lt hlt] at hslot
      exact .inl ⟨Cell.ref.inj hslot, hlt⟩
    · rw [unlink_self] at hslot
      cases hslot
    · rw [unlink_add] at hslot
      exact .inr ⟨number, rfl, (Cell.ref.inj hslot).symm⟩
  rcases hcases first hfirst with ⟨hsame, hlt⟩ | ⟨number, hsame, hlater⟩ <;>
    rcases hcases second hsecond with ⟨hsame', hlt'⟩ | ⟨number', hsame', hlater'⟩ <;>
      omega

theorem eq_of_unlink_eq_atom {atom : Atom} (h : unlink count value slot = .atom atom) :
    slot = count := by
  rcases unlink_cases count slot with hlt | heq | ⟨number, rfl⟩
  · rw [unlink_of_lt hlt] at h
    cases h
  · exact heq
  · rw [unlink_add] at h
    cases h

theorem rename_unlink {cell : Cell} (h : cell.IsBelow count) :
    cell.rename (unlink count value) = cell := by
  cases cell with
  | atom value => rfl
  | ref slot => exact unlink_of_lt h

theorem map_rename_unlink {cells : List Cell} (h : ∀ cell ∈ cells, cell.IsBelow count) :
    cells.map (Cell.rename (unlink count value)) = cells :=
  (List.map_congr_left fun cell hmem => rename_unlink (h cell hmem)).trans (List.map_id _)

end Unlink

/-- A machine with an atom on top is one that has the atom in a slot, but for the slot and for a
memo entry. -/
theorem trails_of_shareAtom (hwell : machine.WellFormed)
    (hstack : machine.stack = .atom value :: rest) :
    Trails {index}
      (shareAtom
        { machine with
          memo := machine.memo.insert index machine.slots.size, created := machine.created + 1 }
        value rest) machine := by
  refine ⟨unlink machine.slots.size value, ⟨?_, ?_, fun other hother => ?_, fun slot => ?_, rfl,
    fun number => ?_, fun _ _ _ => unlink_injective, False.elim, False.elim, False.elim⟩,
    fun slot atom hslot => ?_⟩
  · have hrest : rest.map (Cell.rename (unlink machine.slots.size value)) = rest :=
      map_rename_unlink fun cell hmem => hwell.stack cell (hstack ▸ List.mem_cons_of_mem _ hmem)
    rw [hstack, shareAtom, List.map_cons, Cell.rename, unlink_self, hrest]
  · exact ((List.map_congr_left fun stack hmem => map_rename_unlink (hwell.saved stack hmem)).trans
      (List.map_id _)).symm
  · simp only [shareAtom]
    rw [Std.TreeMap.getElem?_insert, if_neg fun heq => hother (Nat.compare_eq_eq.1 heq).symm]
    exact Option.map_congr fun slot hslot => (unlink_of_lt (hwell.memo other slot hslot)).symm
  · -- Slots from before the write, the one of the shared atom, and those behind it.
    rcases unlink_cases machine.slots.size slot with hlt | rfl | ⟨number, rfl⟩
    · have hcells : ∀ cell ∈ (machine.slot slot).cells,
          cell.rename (unlink machine.slots.size value) = cell.rename .ref := fun cell hmem =>
        (rename_unlink (hwell.content (.ref slot) cell hmem)).trans (Cell.rename_ref cell).symm
      have hcontent := Content.rename_congr hcells
      rw [Content.rename_ref] at hcontent
      rw [unlink_of_lt hlt, slot_eq, shareAtom, Array.getElem?_push_lt hlt,
        ← Array.getElem?_eq_getElem hlt, ← slot_eq]
      exact hcontent.symm
    · rw [unlink_self, slot_eq, shareAtom, Array.getElem?_push_size]
      rfl
    · rw [unlink_add, slot_of_size_le (by simp only [shareAtom, Array.size_push]; omega)]
      exact slot_of_size_le (Nat.le_add_right _ _)
  · rw [shareAtom, Array.size_push, unlink_add]
  · obtain rfl := eq_of_unlink_eq_atom hslot
    exact (isLone_shareAtom hwell hstack).move rfl le_rfl le_rfl

/-- Without the instruction that writes a memo entry, the machine is one that goes without this
entry, and maybe without a slot. -/
theorem trails_of_write (hwell : machine.WellFormed)
    (hwrite : instruction.operation = .memoize (some index))
    (hexecute : Exec.execute env instruction machine = .ok status after) :
    status = .running ∧ after.Trails {index} machine := by
  obtain ⟨hstatus, ⟨slot, rest, hstack, rfl⟩ | ⟨value, rest, hstack, rfl⟩⟩ :=
    eq_of_execute_memoize hwrite hexecute
  · have hsame := machine.mirrors_refl
    refine ⟨hstatus, .ref, ⟨hsame.stack, hsame.saved, fun other hother => ?_, hsame.slots, rfl,
      hsame.fresh, hsame.injective, False.elim, False.elim, False.elim⟩, fun _ _ hslot => ?_⟩
    · rw [Std.TreeMap.getElem?_insert, if_neg fun heq => hother (Nat.compare_eq_eq.1 heq).symm]
    · cases hslot
  · exact ⟨hstatus, trails_of_shareAtom hwell hstack⟩

end Machine

/-! ## Instructions -/

namespace Exec

variable {f : ℕ → Cell} {dead dead' : Set ℕ} {machine machine' : Machine} {env : Environment}
  {instruction : Instruction} {slot : ℕ} {rest : List Cell} {value : Atom}

/-- What is known of an action from one machine is known where it agrees with another one. -/
theorem AgreeFrom.with_left {α : Type} {strict : Prop} {action action' : Exec α}
    {good : α → Machine → α → Machine → Prop} {known : α → Machine → Prop}
    (h : AgreeFrom strict action action' machine machine' good)
    (hknown : ∀ value after, action machine = .ok value after → known value after) :
    AgreeFrom strict action action' machine machine' fun value after value' after' =>
      known value after ∧ good value after value' after' := by
  unfold AgreeFrom outcome at h ⊢
  cases hresult : action machine with
  | ok result after =>
    rw [hresult] at h
    cases hresult' : action' machine' with
    | ok result' after' =>
      rw [hresult'] at h
      exact ⟨hknown result after hresult, h⟩
    | error error' after' =>
      rw [hresult'] at h
      exact h
  | error error after =>
    rw [hresult] at h
    cases hresult' : action' machine' with
    | ok result' after' =>
      rw [hresult'] at h
      exact h
    | error error' after' =>
      rw [hresult'] at h
      exact h

/-- Whether a slot stays one that a single cell refers to, as far as this instruction goes. -/
def LeavesAlone (instruction : Instruction) (machine : Machine) (slot : ℕ) : Prop :=
  machine.IsLone slot [] ∧
    (instruction.operation = .dup → machine.stack.head? ≠ some (.ref slot)) ∧
    ∀ index, instruction.operation = .fetch index → machine.memo[index]? ≠ some slot

/-- What an instruction leaves of two machines one of which goes without some slots: one like it. -/
def StillTrails (dead : Set ℕ) (status : Status) (after : Machine) (status' : Status)
    (after' : Machine) : Prop :=
  status' = status ∧ after.WellFormed ∧ after.Trails dead after'

/-- After instructions that are carried out alike, one machine still goes without what the other one
has if it went without nothing but slots that are left alone. -/
theorem AgreeFrom.stillTrails
    (h : AgreeFrom False (execute env instruction) (execute env instruction) machine machine'
      fun status after status' after' => status' = status ∧
        ∃ f, after.Mirrors False f dead after' ∧
          ∀ slot value, f slot = .atom value → LeavesAlone instruction machine slot)
    (hwell : machine.WellFormed) :
    AgreeFrom False (execute env instruction) (execute env instruction) machine machine'
      (StillTrails dead) := by
  refine (h.with_left fun status after hexecute =>
    And.intro (hwell.of_execute hexecute) fun slot (hlone : LeavesAlone instruction machine slot) =>
      hlone.1.of_execute hlone.2.1 hlone.2.2 hexecute).imp ?_
  rintro ⟨status, after⟩ ⟨status', after'⟩ ⟨⟨hafter, hkeeps⟩, hstatus, f, hmirrors, hlone⟩
  exact ⟨hstatus, hafter, f, hmirrors, fun slot value hslot => hkeeps slot (hlone slot value hslot)⟩

/-- Instructions are carried out alike on a machine that goes without some slots, unless such a slot
is on top and they act on it. -/
theorem agreeFrom_execute_of_linksTop (env : Environment)
    (h : machine.Mirrors False f dead machine')
    (hlone : ∀ slot value, f slot = .atom value → machine.IsLone slot [])
    (hwell : machine.WellFormed)
    (hfetch : ∀ index ∈ dead, instruction.operation ≠ .fetch index)
    (hnumbered : instruction.operation ≠ .memoize none)
    (hlinks : instruction.operation.ActsOnTop → LinksTop f machine) :
    AgreeFrom False (execute env instruction) (execute env instruction) machine machine'
      (StillTrails (instruction.operation.leavesDead dead)) := by
  refine AgreeFrom.stillTrails ((agreeFrom_execute env h instruction hfetch
    (fun hnone => absurd hnone hnumbered) hlinks).imp ?_) hwell
  rintro ⟨status, after⟩ ⟨status', after'⟩ ⟨hstatus, hmirrors⟩
  refine ⟨hstatus, f, hmirrors, fun slot value hslot => ⟨hlone slot value hslot,
    fun hdup htop => ?_, fun index hindex hentry => ?_⟩⟩
  · obtain ⟨counterpart, hlinked⟩ := hlinks (by rw [hdup]; trivial) slot htop
    rw [hslot] at hlinked
    cases hlinked
  · have hmemo := h.memo index fun hdead => hfetch index hdead hindex
    rw [hentry, Option.map_some, hslot] at hmemo
    obtain ⟨counterpart, -, hlinked⟩ := Option.map_eq_some_iff.1 hmemo
    cases hlinked

theorem shareTop_shareAtom (hstack : machine.stack = .atom value :: rest) :
    shareTop (machine.shareAtom value rest) = shareTop machine := by
  simp [shareTop, hstack, Machine.shareAtom]

theorem step_shareAtom (opcode : Opcode) {operation : Operation}
    (hoperation : operation = .dup ∨ ∃ index, operation = .memoize index)
    (hstack : machine.stack = .atom value :: rest) :
    step env opcode operation (machine.shareAtom value rest) =
      step env opcode operation machine := by
  have hbind : ∀ next : ℕ → Exec Status,
      (shareTop >>= next) (machine.shareAtom value rest) = (shareTop >>= next) machine := by
    intro next
    show EStateM.bind shareTop next _ = EStateM.bind shareTop next _
    rw [EStateM.bind, shareTop_shareAtom hstack, ← EStateM.bind]
  obtain rfl | ⟨index, rfl⟩ := hoperation
  · exact hbind _
  · rw [step_memoize, step_memoize, memoize, memoize, bind_assoc, bind_assoc]
    exact hbind _

/-- An instruction that shares the stack top does the same if the top was shared before. -/
theorem execute_shareAtom
    (hoperation : instruction.operation = .dup ∨ ∃ index, instruction.operation = .memoize index)
    (hstack : machine.stack = .atom value :: rest) :
    execute env instruction (machine.shareAtom value rest) = execute env instruction machine := by
  have hstep : step env instruction.opcode instruction.operation
      (Machine.shareAtom { machine with created := machine.created + 1 } value rest) = _ :=
    step_shareAtom instruction.opcode hoperation hstack
  show during _ (step _ _ _) _ = during _ (step _ _ _) _
  unfold during
  rw [← hstep]
  rfl

/-- A slot that the other machine goes without is shared in both, after its atom has got a slot in
the other one too. -/
theorem agreeFrom_execute_of_shares (env : Environment) (h : machine.Mirrors False f dead machine')
    (hlone : ∀ slot value, f slot = .atom value → machine.IsLone slot [])
    (hwell : machine.WellFormed) (hstack : machine.stack = .ref slot :: rest)
    (hslot : f slot = .atom value)
    (hoperation : instruction.operation = .dup ∨ ∃ index, instruction.operation = .memoize index)
    (hnumbered : instruction.operation ≠ .memoize none) :
    AgreeFrom False (execute env instruction) (execute env instruction) machine machine'
      (StillTrails (instruction.operation.leavesDead dead)) := by
  have hlt := (hlone slot value hslot).lt
  have hstack' : machine'.stack = .atom value :: rest.map (Cell.rename f) := by
    rw [h.stack, hstack, List.map_cons, Cell.rename, hslot]
  have hlinks : LinksTop (Machine.relink f machine machine' slot) machine := by
    rintro other htop
    rw [hstack] at htop
    obtain rfl : slot = other := by simpa using htop
    exact ⟨_, Machine.relink_self⟩
  have hfetch : ∀ index ∈ dead, instruction.operation ≠ .fetch index := by
    obtain hoperation | ⟨index, hoperation⟩ := hoperation <;> simp [hoperation]
  have hagree := agreeFrom_execute_of_linksTop env
    (h.share hwell (hlone slot value hslot) hstack hslot)
    (fun other atom hother => hlone other atom (Machine.eq_atom_of_relink hlt hother)) hwell hfetch
    hnumbered fun _ => hlinks
  unfold AgreeFrom outcome at hagree ⊢
  rwa [execute_shareAtom hoperation hstack'] at hagree

/-- An atom on top is made read-only in its cell as it is in a slot that the top alone refers to. -/
theorem agreeFrom_makeReadonly_of_atom (env : Environment) (opcode : Opcode)
    (h : machine.Mirrors False f dead machine') (hwell : machine.WellFormed)
    (hlone : machine.IsLone slot []) (hstack : machine.stack = .ref slot :: rest)
    (hslot : f slot = .atom value) :
    AgreeFrom False (step env opcode .makeReadonly) (step env opcode .makeReadonly) machine machine'
      fun status after status' after' => status' = status ∧
        ∃ f', after.Mirrors False f' dead after' ∧
          ∀ other atom, f' other = .atom atom → ∃ before, f other = .atom before := by
  have hkind : ∀ kind after, topKind machine = .ok kind after → kind = value.kind := by
    intro kind after htop
    have hcontent : machine.content (.ref slot) = .atom value := h.slot_of_atom hslot
    rw [topKind, hstack] at htop
    cases htop
    rw [hcontent]
    rfl
  refine ((agreeFrom_topKind h).with_left hkind).bind ?_
  rintro kind machine _ machine' ⟨rfl, rfl, rfl, rfl⟩
  split
  · next hkind =>
    -- The change is made in a slot here and on the stack there.
    obtain ⟨array, rfl⟩ : ∃ array, value = .byteArray array := by
      unfold Atom.kind at hkind
      split at hkind <;> first | exact ⟨_, rfl⟩ | cases hkind
    obtain ⟨f', hmirrors, hback⟩ := h.makeReadonly hwell hlone hstack hslot rfl
    have hstack' := h.stack
    rw [hstack, List.map_cons, Cell.rename, hslot] at hstack'
    have hdone : changeTop .makeReadonly machine =
        .ok () { machine with slots := machine.slots.modify slot .makeReadonly } := by
      simp only [changeTop, hstack]
    have hdone' : changeTop .makeReadonly machine' =
        .ok ()
          { machine' with
            stack := .atom (.byteArray { array with isReadonly := true }) ::
              rest.map (Cell.rename f) } := by
      simp only [changeTop, hstack', Content.makeReadonly]
    have hchange : AgreeFrom False (changeTop .makeReadonly) (changeTop .makeReadonly) machine
        machine' fun _ after _ after' => after.Mirrors False f' dead after' := by
      rw [AgreeFrom, outcome_of_eq_ok hdone, outcome_of_eq_ok hdone']
      exact hmirrors
    exact hchange.bind fun _ after _ after' hafter => ⟨rfl, f', hafter, hback⟩
  · exact ⟨rfl, f, h, fun other atom hother => ⟨atom, hother⟩⟩
  · exact .error _

/-- Instructions are carried out alike on a machine that goes without some slots.  When such a slot
is shared, it gets a counterpart; when its atom changes, so does the one that stands for it. -/
theorem agreeFrom_execute_of_trails (env : Environment) (h : machine.Trails dead machine')
    (hwell : machine.WellFormed)
    (hfetch : ∀ index ∈ dead, instruction.operation ≠ .fetch index)
    (hnumbered : instruction.operation ≠ .memoize none) :
    AgreeFrom False (execute env instruction) (execute env instruction) machine machine'
      (StillTrails (instruction.operation.leavesDead dead)) := by
  obtain ⟨f, hmirrors, hlone⟩ := h
  by_cases hlinks : instruction.operation.ActsOnTop → LinksTop f machine
  · exact agreeFrom_execute_of_linksTop env hmirrors hlone hwell hfetch hnumbered hlinks
  -- From here on, a slot that the other machine goes without is on top.
  obtain ⟨hacts, hloose⟩ := Classical.not_imp.1 hlinks
  obtain ⟨slot, rest, value, hstack, hslot⟩ : ∃ slot rest value,
      machine.stack = .ref slot :: rest ∧ f slot = .atom value := by
    simp only [LinksTop, not_forall] at hloose
    obtain ⟨slot, htop, hnone⟩ := hloose
    obtain ⟨rest, hstack⟩ := List.head?_eq_some_iff.1 htop
    cases hslot : f slot with
    | ref counterpart => exact absurd ⟨counterpart, hslot⟩ hnone
    | atom value => exact ⟨slot, rest, value, hstack, hslot⟩
  cases hoperation : instruction.operation with
  | dup =>
    exact hoperation ▸ agreeFrom_execute_of_shares env hmirrors hlone hwell hstack hslot
      (.inl hoperation) hnumbered
  | memoize index =>
    exact hoperation ▸ agreeFrom_execute_of_shares env hmirrors hlone hwell hstack hslot
      (.inr ⟨index, hoperation⟩) hnumbered
  | makeReadonly =>
    have hstep := agreeFrom_makeReadonly_of_atom env instruction.opcode hmirrors.counted
      ⟨hwell.stack, hwell.saved, hwell.memo, hwell.slots⟩
      ((hlone slot value hslot).move rfl le_rfl le_rfl) hstack hslot
    rw [← hoperation] at hstep
    refine AgreeFrom.stillTrails ((agreeFrom_execute_of_step env hstep).imp ?_) hwell
    rintro ⟨status, after⟩ ⟨status', after'⟩ ⟨hstatus, f', hafter, hback⟩
    refine ⟨hstatus, f', hafter, fun other atom hother => ?_⟩
    obtain ⟨before, hbefore⟩ := hback other atom hother
    exact ⟨hlone other before hbefore, by simp [hoperation], by simp [hoperation]⟩
  | _ =>
    rw [hoperation] at hacts
    exact hacts.elim

end Exec

/-! ## Runs -/

/-- Whether a program does not read a memo entry before it writes the entry or stops. -/
def IsUnread (index : ℕ) : List Instruction → Prop
  | [] => True
  | instruction :: rest =>
    match instruction.operation with
    | .stop => True
    | .fetch read => read ≠ index ∧ IsUnread index rest
    | .memoize (some written) => written = index ∨ IsUnread index rest
    | _ => IsUnread index rest

namespace IsUnread

variable {index : ℕ} {instruction : Instruction} {rest : List Instruction}

theorem ne_fetch (h : IsUnread index (instruction :: rest)) :
    instruction.operation ≠ .fetch index := by
  intro hoperation
  rw [IsUnread, hoperation] at h
  exact h.1 rfl

/-- An entry that is dead after an instruction is not read in the rest of the program either. -/
theorem of_leavesDead {dead : Set ℕ} (h : ∀ index ∈ dead, IsUnread index (instruction :: rest))
    (hstop : instruction.operation ≠ .stop) :
    ∀ index ∈ instruction.operation.leavesDead dead, IsUnread index rest := by
  intro index hindex
  cases hoperation : instruction.operation with
  | stop => exact absurd hoperation hstop
  | memoize written =>
    rw [hoperation] at hindex
    cases written with
    | none =>
      have hrest := h index hindex
      rwa [IsUnread, hoperation] at hrest
    | some written =>
      have hrest := h index hindex.1
      rw [IsUnread, hoperation] at hrest
      exact hrest.resolve_left fun heq => hindex.2 heq.symm
  | fetch read =>
    rw [hoperation] at hindex
    have hrest := h index hindex
    rw [IsUnread, hoperation] at hrest
    exact hrest.2
  | _ =>
    rw [hoperation] at hindex
    have hrest := h index hindex
    rwa [IsUnread, hoperation] at hrest

end IsUnread

namespace Machine

variable {env : Environment} {dead : Set ℕ} {machine machine' : Machine} {write : Instruction}
  {index : ℕ} {before after program : List Instruction}

/-- A program that does not read dead memo entries agrees with itself on a machine that goes without
them. -/
theorem agree_run_of_trails (h : machine.Trails dead machine') (hwell : machine.WellFormed)
    (hunread : ∀ index ∈ dead, IsUnread index program)
    (hnumbered : ∀ instruction ∈ program, instruction.operation ≠ .memoize none) :
    Agree False Error.IsNodeLimit Eq (machine.run env program) (machine'.run env program) := by
  -- Dead entries come back to life when they are written, so the induction is for all sets of them.
  induction program generalizing dead machine machine' with
  | nil => exact .error _
  | cons instruction rest ih =>
    rw [run_cons, run_cons]
    have hexecute := Exec.agreeFrom_execute_of_trails env h hwell
      (fun index hindex => (hunread index hindex).ne_fetch)
      (hnumbered instruction List.mem_cons_self)
    refine Agree.bind (hexecute.with_left fun status after hexecute =>
      fun hstop : instruction.operation = .stop => Exec.halted_of_execute hstop hexecute) ?_
    rintro ⟨_, after⟩ ⟨status, after'⟩ ⟨hhalted, rfl, hafter, htrails⟩
    cases status with
    | halted value => exact rfl
    | running =>
      refine ih htrails hafter (IsUnread.of_leavesDead hunread fun hstop => ?_)
        fun other hother => hnumbered other (List.mem_cons_of_mem _ hother)
      obtain ⟨value, ⟨⟩, -⟩ := hhalted hstop

/-- A program agrees with itself without an instruction that writes a memo entry which is not read.
-/
theorem agree_run_without_write (hwell : machine.WellFormed)
    (hwrite : write.operation = .memoize (some index))
    (hunread : (∀ instruction ∈ before, instruction.operation ≠ .stop) → IsUnread index after)
    (hnumbered : ∀ instruction ∈ after, instruction.operation ≠ .memoize none) :
    Agree False Error.IsNodeLimit Eq (machine.run env (before ++ write :: after))
      (machine.run env (before ++ after)) := by
  induction before generalizing machine with
  | nil =>
    rw [List.nil_append, List.nil_append, run_cons]
    cases hexecute : Exec.execute env write machine with
    | error error failed =>
      rw [Exec.outcome_of_eq_error hexecute]
      cases machine.run env after <;> exact False.elim
    | ok status written =>
      obtain ⟨rfl, htrails⟩ := trails_of_write hwell hwrite hexecute
      rw [Exec.outcome_of_eq_ok hexecute]
      -- From the write on, the entry at its index is dead.
      refine agree_run_of_trails htrails (hwell.of_execute hexecute) ?_ hnumbered
      rintro _ rfl
      exact hunread (by simp)
  | cons instruction rest ih =>
    rw [List.cons_append, List.cons_append, run_cons, run_cons]
    cases hexecute : Exec.execute env instruction machine with
    | error error failed =>
      rw [Exec.outcome_of_eq_error hexecute]
      exact .error _
    | ok status middle =>
      rw [Exec.outcome_of_eq_ok hexecute]
      cases status with
      | halted value => exact rfl
      | running =>
        refine ih (hwell.of_execute hexecute) fun hrest => hunread ?_
        refine List.forall_mem_cons.2 ⟨fun hstop => ?_, hrest⟩
        obtain ⟨value, ⟨⟩, -⟩ := Exec.halted_of_execute hstop hexecute

end Machine

/-- An instruction that writes a memo entry which is not read may be left out.

If a program has a value, then so has the program without an instruction that writes the entry under
an index of its own, provided that no instruction reads the entry before it is written again or the
program stops.  The value is the same, unless there is too little room for it: the instructions that
are carried out count for the number of nodes that a value may have, and now there is one less.

The instructions after it must not write entries under the number of those that there are. -/
theorem run_without_write (options : Options) (before after : List Instruction)
    (write : Instruction) (index : ℕ) (value : Value)
    (hwrite : write.operation = .memoize (some index))
    (hunread : (∀ instruction ∈ before, instruction.operation ≠ .stop) → IsUnread index after)
    (hnumbered : ∀ instruction ∈ after, instruction.operation ≠ .memoize none)
    (hrun : run (before ++ write :: after) options = .ok value) :
    run (before ++ after) options = .ok value ∨
      ∃ limit operation,
        run (before ++ after) options = .error (.execution (.tooManyValues limit) operation) := by
  have hagree : Agree False Error.IsNodeLimit Eq (run (before ++ write :: after) options)
      (run (before ++ after) options) :=
    Machine.agree_run_without_write (Machine.wellFormed_initial options.buffers) hwrite hunread
      hnumbered
  rw [hrun] at hagree
  cases hwithout : run (before ++ after) options with
  | ok value' =>
    rw [hwithout] at hagree
    exact .inl (congrArg Except.ok hagree.symm)
  | error error =>
    rw [hwithout] at hagree
    obtain ⟨limit, operation, rfl⟩ := hagree.2.eq
    exact .inr ⟨limit, operation, rfl⟩

/-- A number that is put into the memo twice under one index, the first time for nothing. -/
theorem run_without_write_twice :
    let item : Instruction := ⟨.binInt1, (7 : UInt8)⟩
    let put : Instruction := ⟨.binPut, (0 : UInt8)⟩
    let later : List Instruction := [put, ⟨.binGet, (0 : UInt8)⟩, ⟨.tuple2, ()⟩, ⟨.stop, ()⟩]
    let pair : Value := .tuple [.scalar (.short 7), .scalar (.short 7)]
    (put.operation = .memoize (some 0) ∧ IsUnread 0 later ∧
        run ([item] ++ put :: later) {} = .ok pair) ∧
      (run ([item] ++ later) {} = .ok pair ∨ ∃ limit operation,
        run ([item] ++ later) {} = .error (.execution (.tooManyValues limit) operation)) := by
  intro item put later pair
  have hunread : IsUnread 0 later := .inl rfl
  have hrun : run ([item] ++ put :: later) {} = .ok pair := by cbv
  have hnumbered : ∀ instruction ∈ later, instruction.operation ≠ .memoize none := by decide
  exact ⟨⟨rfl, hunread, hrun⟩,
    run_without_write {} [item] later put 0 pair rfl (fun _ => hunread) hnumbered hrun⟩

end Pickle
