import Pickle.Proofs.Machine.Aliasing
import Pickle.Proofs.Machine.Concurrence
import Pickle.Proofs.Machine.Insertions

/-!
# Numbering the memo

An instruction that writes a memo entry without naming an index takes the number of entries that
there are, which an index of 32 bits holds as long as there are fewer than 2 ^ 32 of them.  If the
entries are numbered from zero on, too, that is the next free index, and nothing is written over.
Instructions that name an index need not keep to this order, though, and beyond a gap the number of
entries may be the index of an entry (`memoize_overwrites_beyond_gap`).

So two questions are apart.  What such an instruction does is the same in every state: it writes
the one entry, and any other index still reads what it did (`Machine.stillReads_memoized`).  Whether
it writes over an entry depends on the memo alone: it does not if the memo has room for another
number and is gapless (`Machine.IsGapless.nextIndex_notMem`), and the memo is gapless as long as
instructions that name an index go over an entry or take the next number themselves
(`Machine.isGapless_after`).
-/

namespace Pickle

namespace Machine

/-! ## Memos without gaps -/

/-- Whether the memo entries are numbered from zero on. -/
def IsGapless (machine : Machine) : Prop := ∀ index < machine.memo.size, index ∈ machine.memo

variable {machine before after : Machine} {index slot : ℕ}

/-- There is no entry at the number of entries, if all numbers below are taken: there would be one
entry too many. -/
theorem IsGapless.size_notMem (h : machine.IsGapless) : machine.memo.size ∉ machine.memo := by
  intro hmem
  have hsub : List.range (machine.memo.size + 1) ⊆ machine.memo.keys := by
    intro index hindex
    apply Std.TreeMap.mem_keys.2
    rcases Nat.lt_succ_iff_lt_or_eq.1 (List.mem_range.1 hindex) with hlt | rfl
    · exact h index hlt
    · exact hmem
  have hlength := (List.nodup_range.subperm hsub).length_le
  rw [List.length_range, Std.TreeMap.length_keys] at hlength
  exact Nat.not_succ_le_self _ hlength

/-- The next index is free, if all numbers below are taken and there is room for another. -/
theorem IsGapless.nextIndex_notMem (h : machine.IsGapless)
    (hroom : machine.memo.size < UInt32.size) : machine.nextIndex ∉ machine.memo := by
  rw [nextIndex_of_lt hroom]
  exact h.size_notMem

/-- The same entries are numbered the same. -/
theorem IsGapless.of_equiv (h : before.IsGapless) (hmemo : after.memo.Equiv before.memo) :
    after.IsGapless := by
  intro index hindex
  rw [hmemo.size_eq] at hindex
  exact hmemo.mem_iff.2 (h index hindex)

/-- There is no gap after a write over an entry, or at the next number. -/
theorem IsGapless.of_insert (h : before.IsGapless)
    (hmemo : after.memo.Equiv (before.memo.insert index slot))
    (hindex : index ∈ before.memo ∨ index = before.memo.size) : after.IsGapless := by
  intro other hother
  rw [hmemo.size_eq, Std.TreeMap.size_insert] at hother
  apply hmemo.mem_iff.2
  rw [Std.TreeMap.mem_insert]
  by_cases hmem : index ∈ before.memo
  · rw [if_pos (Std.TreeMap.contains_iff_mem.2 hmem)] at hother
    exact .inr (h other hother)
  · obtain rfl : index = before.memo.size := hindex.resolve_left hmem
    rw [if_neg (mt Std.TreeMap.contains_iff_mem.1 hmem)] at hother
    rcases Nat.lt_succ_iff_lt_or_eq.1 hother with hlt | rfl
    · exact .inr (h other hlt)
    · exact .inl (compare_eq_iff_eq.2 rfl)

theorem MutatesTo.memo_equiv {change : Option (Cell × Mutation)}
    (h : before.MutatesTo none change after) : after.memo.Equiv before.memo :=
  .of_forall_constGet?_eq fun index => h.memo index (by simp)

theorem MutatesTo.memo_equiv_insert {change : Option (Cell × Mutation)}
    (h : before.MutatesTo (some index) change after) (hwritten : after.memo[index]? = some slot) :
    after.memo.Equiv (before.memo.insert index slot) := by
  apply Std.TreeMap.Equiv.of_forall_constGet?_eq
  intro other
  rw [Std.TreeMap.getElem?_insert]
  by_cases hother : index = other
  · rw [← hother, if_pos (compare_eq_iff_eq.2 rfl), hwritten]
  · rw [if_neg (mt compare_eq_iff_eq.1 hother), h.memo other (mt Option.some.inj hother)]

variable (env : Environment)

/-- Whether every instruction of a program that succeeds in writing a memo entry writes over an
entry or takes the next number. -/
def NumbersInOrder : Machine → List Instruction → Prop
  | _, [] => True
  | machine, instruction :: rest =>
    ((Exec.execute env instruction).succeeds machine →
      ∀ index, machine.writes? instruction.operation = some index →
        index ∈ machine.memo ∨ index = machine.memo.size) ∧
      NumbersInOrder ((Exec.execute env instruction).after machine) rest

/-- An instruction leaves no gap, if it writes over an entry or takes the next number. -/
theorem IsGapless.execute (h : machine.IsGapless) {instruction : Instruction}
    (hwrites : (Exec.execute env instruction).succeeds machine →
      ∀ index, machine.writes? instruction.operation = some index →
        index ∈ machine.memo ∨ index = machine.memo.size) :
    ((Exec.execute env instruction).after machine).IsGapless := by
  have hends := Exec.mutatesTo_execute env instruction machine
  unfold Exec.succeeds at hwrites
  unfold Exec.after
  cases hresult : Exec.execute env instruction machine with
  | error error after =>
    rw [hresult] at hends
    exact h.of_equiv hends.memo_equiv
  | ok status after =>
    rw [hresult] at hends hwrites
    rcases hwritten : machine.writes? instruction.operation with _ | index
    · rw [hwritten] at hends
      exact h.of_equiv hends.memo_equiv
    · obtain ⟨slot, _, _, _, hentry⟩ := Exec.sharesTop_of_writes env hwritten hresult
      rw [hwritten] at hends
      exact h.of_insert (hends.memo_equiv_insert hentry) (hwrites rfl index hwritten)

/-- A program that numbers its entries in order leaves no gap. -/
theorem isGapless_after {program : List Instruction} (h : machine.IsGapless)
    (hprogram : machine.NumbersInOrder env program) : (machine.after env program).IsGapless := by
  induction program generalizing machine with
  | nil => exact h
  | cons instruction rest ih =>
    obtain ⟨hfirst, hrest⟩ := hprogram
    rw [after_cons]
    exact ih (h.execute env hfirst) hrest

theorem isGapless_initial (buffers : Option (List Bytes)) : (initial buffers).IsGapless := by
  intro index hindex
  exact absurd hindex (Nat.not_lt_zero index)

/-! ## What stays readable -/

variable {new : Array Content}

theorem unfold_of_slots (hslots : after.slots = before.slots) (limit levels : ℕ)
    (enclosing : List ℕ) (cell : Cell) :
    after.unfold limit levels enclosing cell = before.unfold limit levels enclosing cell := by
  induction levels generalizing enclosing cell with
  | zero => cases cell <;> rfl
  | succ levels ih =>
    cases cell with
    | atom value => rfl
    | ref slot =>
      have hslot : after.slot slot = before.slot slot := by rw [slot_eq, slot_eq, hslots]
      rw [unfold, unfold, hslot, funext (ih (slot :: enclosing))]

theorem tree?_of_slots (hslots : after.slots = before.slots) (height : ℕ) (cell : Cell) :
    after.tree? height cell = before.tree? height cell := by
  induction height generalizing cell with
  | zero => cases cell <;> rfl
  | succ height ih =>
    cases cell with
    | atom value => rfl
    | ref slot =>
      have hslot : after.slot slot = before.slot slot := by rw [slot_eq, slot_eq, hslots]
      rw [tree?, tree?, hslot, funext ih]

theorem value_of_slots (hslots : after.slots = before.slots)
    (hcreated : after.created = before.created) (cell : Cell) :
    after.value cell = before.value cell := by
  rw [value, value, nodeLimit, hcreated, ← nodeLimit, unfold_of_slots hslots]

/-- Whether what a cell stands for is the same in another machine, where its value is not refused
for having too many nodes if it was not before. -/
structure KeepsValue (before after : Machine) (cell : Cell) : Prop where
  same : before.SameValue cell after cell
  value : ∀ value, before.value cell = .ok value → after.value cell = .ok value

/-- What was there keeps its value when slots are added. -/
theorem keepsValue_of_append (hwell : before.WellFormed) {cell : Cell}
    (hbelow : cell.IsBelow before.slots.size) (hslots : after.slots = before.slots ++ new)
    (hcreated : before.created ≤ after.created) : before.KeepsValue after cell := by
  let grown : Machine := { before with slots := after.slots, created := after.created }
  have hnothing : ∀ content ∈ (#[] : Array Content), AllBelow before.slots.size content.cells := by
    simp
  have hmirrors : before.Mirrors True (between before.slots.size 0 new.size 0) ∅ grown := by
    have hbetween := mirrors_between hwell hnothing new #[] hcreated
    rwa [Array.append_empty, Array.append_empty, Array.append_empty, ← hslots] at hbetween
  have hcell : cell.rename (between before.slots.size 0 new.size 0) = cell := rename_between hbelow
  -- The other fields of the two machines do not matter for what a cell stands for.
  have hvalue : after.value cell = grown.value cell :=
    value_of_slots (show after.slots = grown.slots from rfl) rfl cell
  constructor
  · have hsame : before.SameValue cell grown cell :=
      .of_mirrors hmirrors (mirrors_refl grown) (hcell.trans (Cell.rename_ref cell).symm)
    constructor
    · rw [hvalue]
      exact hsame.value
    · intro tree
      rw [hsame.unfolds tree]
      simp only [Unfolds, tree?_of_slots (show after.slots = grown.slots from rfl)]
  · intro value hbefore
    have hagree := hmirrors.agree_value cell
    rw [hcell, ← hvalue, hbefore] at hagree
    cases hafter : after.value cell with
    | ok value' =>
      rw [hafter] at hagree
      exact congrArg Except.ok hagree.symm
    | error failure =>
      rw [hafter] at hagree
      exact absurd trivial hagree.1

/-- Whether an index has the same memo entry in another machine, or none, and reads the same. -/
structure StillReads (index : ℕ) (before after : Machine) : Prop where
  entry : after.memo[index]? = before.memo[index]?
  content : ∀ slot, before.memo[index]? = some slot → after.slot slot = before.slot slot
  value : ∀ slot, before.memo[index]? = some slot → before.KeepsValue after (.ref slot)

/-! ## Entries at the number of entries -/

/-- A machine in which the stack top has become a memo entry: it refers to a slot, that of what was
on top or one that is new. -/
def memoized (machine : Machine) (index slot : ℕ) (below : List Cell) (new : Array Content) :
    Machine :=
  { machine with
    stack := .ref slot :: below
    memo := machine.memo.insert index slot
    slots := machine.slots ++ new
    created := machine.created + 1 }

/-- Any machine with a stack top can make it a memo entry. -/
theorem exists_execute_memoize {instruction : Instruction} {chosen : Option ℕ}
    (hoperation : instruction.operation = .memoize chosen) (hstack : machine.stack ≠ []) :
    ∃ slot below new, let after := machine.memoized (chosen.getD machine.nextIndex) slot below new
      Exec.execute env instruction machine = .ok .running after ∧
        machine.SharesTop slot below after := by
  -- The stack top is shared first, by a machine that has counted the instruction.
  have hshared : ∀ slot below new,
      Exec.shareTop { machine with created := machine.created + 1 } = .ok slot
        { machine with
          stack := .ref slot :: below
          slots := machine.slots ++ new
          created := machine.created + 1 } →
      Exec.execute env instruction machine =
        .ok .running (machine.memoized (chosen.getD machine.nextIndex) slot below new) := by
    intro slot below new hshare
    apply Exec.execute_of_step
    rw [hoperation, Exec.step_memoize, Exec.memoize, bind_assoc, Exec.bind_of_eq_ok hshare]
    rfl
  obtain ⟨top, below, htop⟩ := List.exists_cons_of_ne_nil hstack
  cases top with
  | ref slot =>
    refine ⟨slot, below, #[], hshared slot below #[] ?_, .inl htop, ?_⟩
    · simp [Exec.shareTop, htop]
    · simp [htop, content, slot_eq, memoized]
  | atom value =>
    let slot := machine.slots.size
    refine ⟨slot, below, #[.atom value], hshared slot below _ ?_, .inr ⟨value, htop, rfl⟩, ?_⟩
    · simp [Exec.shareTop, htop, slot]
    · simp [htop, content, slot, slot_eq, memoized]

/-- When the stack top becomes a memo entry, any other entry still reads the same. -/
theorem stillReads_memoized (hwell : machine.WellFormed) {written : ℕ} (hindex : index ≠ written)
    (slot : ℕ) (below : List Cell) (new : Array Content) :
    machine.StillReads index (machine.memoized written slot below new) := by
  constructor
  · show (machine.memo.insert written slot)[index]? = _
    rw [Std.TreeMap.getElem?_insert, if_neg (mt compare_eq_iff_eq.1 hindex.symm)]
  · intro other hentry
    exact slot_of_append (hwell.memo index other hentry) rfl
  · intro other hentry
    exact keepsValue_of_append hwell (hwell.memo index other hentry) rfl (Nat.le_succ _)

/-- The number of entries as an index.

In any state with something on the stack, an instruction that writes a memo entry without naming an
index succeeds.  It makes the stack top the entry whose index is the number of entries, in 32 bits,
and any other entry still reads the same.

The index that it takes is that of an entry only if there is a gap below, or if there are more
entries than 32 bits count.  If all writes so far went over an entry or took the next number, and
there are fewer entries than that, it is free, and so every entry still reads the same. -/
theorem memoize_numbering (options : Options) (program : List Instruction)
    (instruction : Instruction) (hoperation : instruction.operation = .memoize none) :
    let env := options.environment
    let machine := options.machine.after env program
    let index := machine.memo.size % UInt32.size
    machine.stack ≠ [] →
      ∃ slot below after, Exec.execute env instruction machine = .ok .running after ∧
        machine.SharesTop slot below after ∧ after.stack = .ref slot :: below ∧
        after.memo[index]? = some slot ∧
        (∀ other ≠ index, machine.StillReads other after) ∧
        (index ∈ machine.memo →
          UInt32.size ≤ machine.memo.size ∨ ∃ gap < index, gap ∉ machine.memo) ∧
        (options.machine.NumbersInOrder env program → machine.memo.size < UInt32.size →
          index ∉ machine.memo ∧ ∀ other ∈ machine.memo, machine.StillReads other after) := by
  intro env machine index hstack
  have hindex : machine.nextIndex = index := nextIndex_eq machine
  have hwell : machine.WellFormed :=
    wellFormed_of_program env (wellFormed_initial options.buffers) program
  obtain ⟨slot, below, new, hexecute, hshares⟩ := exists_execute_memoize env hoperation hstack
  rw [Option.getD_none, hindex] at hexecute hshares
  have hothers : ∀ other ≠ index,
      machine.StillReads other (machine.memoized index slot below new) :=
    fun other hother => stillReads_memoized hwell hother slot below new
  refine ⟨slot, below, _, hexecute, hshares, rfl, Std.TreeMap.getElem?_insert_self, hothers, ?_, ?_⟩
  · -- With room for another number and no gap below, the index would be free.
    intro hmem
    by_contra hneither
    push Not at hneither
    obtain ⟨hroom, hnone⟩ := hneither
    have hgapless : machine.IsGapless := by
      rwa [← hindex, nextIndex_of_lt hroom] at hnone
    exact hgapless.nextIndex_notMem hroom (hindex ▸ hmem)
  · intro horder hroom
    have hgapless : machine.IsGapless :=
      isGapless_after env (isGapless_initial options.buffers) horder
    have hfree : index ∉ machine.memo := hindex ▸ hgapless.nextIndex_notMem hroom
    refine ⟨hfree, fun other hother => hothers other ?_⟩
    rintro rfl
    exact hfree hother

/-- Three entries, of which the second is written twice. -/
theorem memoize_numbering_third :
    let options : Options := {}
    let program : List Instruction := [⟨.emptyList, ()⟩, ⟨.memoize, ()⟩, ⟨.pushNone, ()⟩,
      ⟨.binPut, (1 : UInt8)⟩, ⟨.newTrue, ()⟩, ⟨.binPut, (1 : UInt8)⟩]
    let instruction : Instruction := ⟨.memoize, ()⟩
    let env := options.environment
    let machine := options.machine.after env program
    (instruction.operation = .memoize none ∧ machine.stack ≠ [] ∧
        options.machine.NumbersInOrder env program ∧ machine.memo.size < UInt32.size) ∧
      machine.memo.size = 2 ∧ 2 ∉ machine.memo ∧
        ∃ slot after, Exec.execute env instruction machine = .ok .running after ∧
          after.memo[2]? = some slot ∧ ∀ other < 2, machine.StillReads other after := by
  intro options program instruction env machine
  have hcells : machine.stack = [.ref 2, .ref 1, .ref 0] := by cbv
  have hstack : machine.stack ≠ [] := by simp [hcells]
  have hsize : machine.memo.size = 2 := by cbv
  have hroom : machine.memo.size < UInt32.size := by
    rw [hsize]
    decide
  have hindex : machine.memo.size % UInt32.size = 2 := by
    rw [hsize]
    rfl
  have horder : options.machine.NumbersInOrder env program := by
    refine ⟨?_, ?_, ?_, ?_, ?_, ?_, trivial⟩
    all_goals intro _ index h
    · cases h
    · exact .inr (Option.some.inj h).symm
    · cases h
    · obtain rfl : 1 = index := Option.some.inj h
      right
      cbv
    · cases h
    · obtain rfl : 1 = index := Option.some.inj h
      left
      cbv
  obtain ⟨slot, below, after, hexecute, -, -, hentry, hothers, -, hfree⟩ :=
    memoize_numbering options program instruction rfl hstack
  rw [hindex] at hentry hothers hfree
  refine ⟨⟨rfl, hstack, horder, hroom⟩, hsize, (hfree horder hroom).1, slot, after, hexecute,
    hentry, ?_⟩
  exact fun other hother => hothers other (Nat.ne_of_lt hother)

/-- Beyond a gap the number of entries is no free index.  The only entry is that of `None` under the
index 1, and it is written over. -/
theorem memoize_overwrites_beyond_gap :
    let options : Options := {}
    let program : List Instruction := [⟨.pushNone, ()⟩, ⟨.binPut, (1 : UInt8)⟩, ⟨.newTrue, ()⟩]
    let read : List Instruction := [⟨.binGet, (1 : UInt8)⟩, ⟨.stop, ()⟩]
    let env := options.environment
    let machine := options.machine.after env program
    machine.stack ≠ [] ∧ machine.memo.size ∈ machine.memo ∧
      options.machine.run env (program ++ read) = .ok (.scalar .none) ∧
      options.machine.run env (program ++ ⟨.memoize, ()⟩ :: read) = .ok (.scalar (.bool true)) := by
  intro options program read env machine
  have hcells : machine.stack = [.atom (.scalar (.bool true)), .ref 0] := by cbv
  exact ⟨by simp [hcells], by cbv, by cbv, by cbv⟩

end Machine

end Pickle
