import Mathlib.Data.Set.Insert
import Mathlib.Order.BooleanAlgebra.Set
import Pickle.Proofs.Machine.Conversion
import Pickle.Proofs.Machine.Renaming

/-!
# Runs that mirror each other

Two machines may be in step although their slots have different numbers, although an atom stands in
its cell in the one and in a slot in the other, although a memo entry that nothing reads is missing
in one of them, and although more was created in one.  `Machine.Mirrors` is this relation, with a
map from the slots of the first machine to cells of the second.

Only the budget of conversions can tell such machines apart, so the runs from them agree up to one
failure, that a value has too many nodes (`Agree`).  There are two ways of comparing runs.  In a
strict comparison the second machine has created no less and has a slot for every slot, and then it
gets as far as the first.  In the other one nothing of this is known: then it gets as far unless
some value has too many nodes.

The laws here are those of the machines themselves and of conversions (`agree_value`).
-/

namespace Pickle

/-! ## Outcomes -/

/-- Whether a failure is that of a value with too many nodes. -/
def Failure.IsNodeLimit : Failure → Prop
  | .tooManyValues _ => True
  | _ => False

/-- Whether an error is that of a value with too many nodes. -/
def Error.IsNodeLimit : Error → Prop
  | .execution failure _ => failure.IsNodeLimit
  | _ => False

theorem Error.IsNodeLimit.eq {error : Error} (h : error.IsNodeLimit) :
    ∃ limit operation, error = .execution (.tooManyValues limit) operation := by
  unfold IsNodeLimit at h
  split at h
  · next failure operation =>
    unfold Failure.IsNodeLimit at h
    split at h
    · next limit => exact ⟨limit, operation, rfl⟩
    · exact h.elim
  · exact h.elim

theorem Error.isNodeLimit_during {error : Error} (operation : String) (h : error.IsNodeLimit) :
    (error.during operation).IsNodeLimit := by
  unfold during
  split <;> exact h

/-- Whether two outcomes agree up to the limit of nodes.  In a strict comparison the second one
succeeds if the first does, and has the error of the first if this is not the limit; otherwise the
second one succeeds or is the limit if the first succeeds, and nothing is known if it fails. -/
def Agree {ε α : Type} (strict : Prop) (isLimit : ε → Prop) (good : α → α → Prop) :
    Except ε α → Except ε α → Prop
  | .ok value, .ok value' => good value value'
  | .ok _, .error error' => ¬ strict ∧ isLimit error'
  | .error error, .ok _ => strict → isLimit error
  | .error error, .error error' => strict → isLimit error ∨ error' = error

namespace Agree

variable {ε α β : Type} {strict : Prop} {isLimit : ε → Prop} {good good' : α → α → Prop}
  {fine : β → β → Prop} {outcome outcome' : Except ε α}

theorem imp (h : Agree strict isLimit good outcome outcome')
    (himp : ∀ value value', good value value' → good' value value') :
    Agree strict isLimit good' outcome outcome' := by
  cases outcome with
  | ok value =>
    cases outcome' with
    | ok value' => exact himp value value' h
    | error error' => exact h
  | error error => cases outcome' <;> exact h

theorem error (error : ε) : Agree strict isLimit good (.error error) (.error error) :=
  fun _ => .inr rfl

theorem bind {next next' : α → Except ε β} (h : Agree strict isLimit good outcome outcome')
    (hnext : ∀ value value', good value value' →
      Agree strict isLimit fine (next value) (next' value')) :
    Agree strict isLimit fine (outcome >>= next) (outcome' >>= next') := by
  cases outcome with
  | ok value =>
    cases outcome' with
    | ok value' => exact hnext value value' h
    | error error' =>
      show Agree strict isLimit fine (next value) (.error error')
      cases next value with
      | ok result => exact h
      | error error => exact fun hstrict => (h.1 hstrict).elim
  | error error =>
    cases outcome' with
    | ok value' =>
      show Agree strict isLimit fine (.error error) (next' value')
      cases next' value' with
      | ok result => exact h
      | error error' => exact fun hstrict => .inl (h hstrict)
    | error error' => exact h

/-- Outcomes agree under other errors as well if the limit stays what it is. -/
theorem mapError {δ : Type} {isLimit' : δ → Prop} {change : ε → δ}
    (h : Agree strict isLimit good outcome outcome')
    (hchange : ∀ error, isLimit error → isLimit' (change error)) :
    Agree strict isLimit' good (outcome.mapError change) (outcome'.mapError change) := by
  cases outcome with
  | ok value =>
    cases outcome' with
    | ok value' => exact h
    | error error' => exact ⟨h.1, hchange error' h.2⟩
  | error error =>
    cases outcome' with
    | ok value' => exact fun hstrict => hchange error (h hstrict)
    | error error' =>
      exact fun hstrict => (h hstrict).imp (hchange error) (congrArg change)

end Agree

/-! ## Machines that mirror each other -/

/-- Whether a machine mirrors another one.  Every slot of the first has its counterpart in the
second, a slot of its own or an atom; what a slot holds, its counterpart is; and everything that the
machines hold corresponds, apart from memo entries that are dead.  New slots will correspond to new
slots.  In a strict comparison all counterparts are slots, no entry is dead, and the second machine
has created no less than the first. -/
structure Machine.Mirrors (strict : Prop) (f : ℕ → Cell) (dead : Set ℕ)
    (machine machine' : Machine) : Prop where
  stack : machine'.stack = machine.stack.map (Cell.rename f)
  saved : machine'.saved = machine.saved.map (List.map (Cell.rename f))
  memo : ∀ index ∉ dead, machine'.memo[index]?.map Cell.ref = machine.memo[index]?.map f
  slots : ∀ slot, machine'.content (f slot) = (machine.slot slot).rename f
  buffers : machine'.buffers = machine.buffers
  fresh : ∀ number, f (machine.slots.size + number) = .ref (machine'.slots.size + number)
  injective : ∀ slot other counterpart, f slot = .ref counterpart → f other = .ref counterpart →
    slot = other
  linked : strict → ∀ slot, ∃ counterpart, f slot = .ref counterpart
  entries : strict → dead = ∅ ∧ machine'.memo.size = machine.memo.size
  created : strict → machine.created ≤ machine'.created

variable {strict : Prop} {f : ℕ → Cell} {dead : Set ℕ}

namespace Machine.Mirrors

variable {machine machine' : Machine}

theorem content (h : machine.Mirrors strict f dead machine') (cell : Cell) :
    machine'.content (cell.rename f) = (machine.content cell).rename f := by
  cases cell with
  | ref slot => exact h.slots slot
  | atom value => rfl

/-- The counterpart of a slot that was there is none of the slots to come. -/
theorem lt_size (h : machine.Mirrors strict f dead machine') {slot counterpart : ℕ}
    (hslot : slot < machine.slots.size) (hcounterpart : f slot = .ref counterpart) :
    counterpart < machine'.slots.size := by
  by_contra hle
  have hfresh := h.fresh (counterpart - machine'.slots.size)
  rw [Nat.add_sub_cancel' (Nat.le_of_not_lt hle)] at hfresh
  have := h.injective _ _ _ hcounterpart hfresh
  omega

theorem not_strict (h : machine.Mirrors strict f dead machine') {slot : ℕ} {value : Atom}
    (hslot : f slot = .atom value) : ¬ strict := by
  intro hstrict
  obtain ⟨counterpart, hlinked⟩ := h.linked hstrict slot
  rw [hslot] at hlinked
  cases hlinked

/-- A slot whose counterpart is an atom holds this atom. -/
theorem slot_of_atom (h : machine.Mirrors strict f dead machine') {slot : ℕ} {value : Atom}
    (hslot : f slot = .atom value) : machine.slot slot = .atom value := by
  have hcontent := h.slots slot
  rw [hslot] at hcontent
  generalize machine.slot slot = content at hcontent
  cases content <;> cases hcontent
  rfl

/-- New slots of both machines that correspond. -/
theorem grow (h : machine.Mirrors strict f dead machine') (new : Array Content) (created : ℕ) :
    Mirrors strict f dead
      { machine with slots := machine.slots ++ new, created := machine.created + created }
      { machine' with
        slots := machine'.slots ++ new.map (Content.rename f),
        created := machine'.created + created } := by
  refine { h with slots := fun slot => ?_, fresh := fun number => ?_, created := fun hstrict => ?_ }
  · rcases Nat.lt_or_ge slot machine.slots.size with hslot | hslot
    · have hold := h.slots slot
      rw [slot_eq, Array.getElem?_append_left hslot, ← slot_eq, ← hold]
      cases hcounterpart : f slot with
      | atom value => rfl
      | ref counterpart =>
        simp only [Machine.content]
        rw [slot_eq, Array.getElem?_append_left (h.lt_size hslot hcounterpart), ← slot_eq]
    · obtain ⟨number, rfl⟩ := Nat.exists_eq_add_of_le hslot
      rw [h.fresh number]
      simp only [Machine.content, slot_eq]
      rw [Array.getElem?_append_right (Nat.le_add_right _ _),
        Array.getElem?_append_right (Nat.le_add_right _ _), Nat.add_sub_cancel_left,
        Nat.add_sub_cancel_left, Array.getElem?_map]
      cases new[number]? <;> rfl
  · simp [Nat.add_assoc, h.fresh]
  · exact Nat.add_le_add_right (h.created hstrict) created

theorem alloc (h : machine.Mirrors strict f dead machine') (content : Content) :
    Mirrors strict f dead { machine with slots := machine.slots.push content }
      { machine' with slots := machine'.slots.push (content.rename f) } := by
  have hgrow := h.grow #[content] 0
  rw [List.map_toArray, List.map_cons, List.map_nil, Array.append_singleton,
    Array.append_singleton] at hgrow
  exact { hgrow with created := h.created }

end Machine.Mirrors

/-! ## Conversions -/

namespace Unfolding

variable {α β γ : Type}

/-- Whether two conversions agree.  In a strict comparison the second one is given no smaller
budget and has no less left. -/
def Agrees (strict : Prop) (action action' : Unfolding α) : Prop :=
  ∀ budget budget', (strict → budget ≤ budget') →
    Agree strict Failure.IsNodeLimit
      (fun done done' => done'.1 = done.1 ∧ (strict → done.2 ≤ done'.2))
      (action budget) (action' budget')

namespace Agrees

theorem pure (value : α) : Agrees strict (Pure.pure value) (Pure.pure value) :=
  fun _ _ hbudget => ⟨rfl, hbudget⟩

theorem fail (failure : Failure) :
    Agrees strict (Unfolding.fail failure : Unfolding α) (Unfolding.fail failure) :=
  fun _ _ _ => .error failure

theorem bind {action action' : Unfolding α} {next next' : α → Unfolding β}
    (h : Agrees strict action action') (hnext : ∀ value, Agrees strict (next value) (next' value)) :
    Agrees strict (action >>= next) (action' >>= next') := by
  intro budget budget' hbudget
  refine Agree.bind (h budget budget' hbudget) ?_
  rintro ⟨_, left⟩ ⟨value, left'⟩ ⟨rfl, hleft⟩
  exact hnext value left left' hleft

theorem charge (limit limit' : ℕ) :
    Agrees strict (Unfolding.charge limit) (Unfolding.charge limit') := by
  intro budget budget' hbudget
  cases budget with
  | zero =>
    cases budget' with
    | zero => exact fun _ => .inl trivial
    | succ left' => exact fun _ => trivial
  | succ left =>
    cases budget' with
    | zero => exact ⟨fun hstrict => absurd (hbudget hstrict) (by omega), trivial⟩
    | succ left' => exact ⟨rfl, fun hstrict => Nat.le_of_succ_le_succ (hbudget hstrict)⟩

theorem key (value : Value) : Agrees strict (Unfolding.key value) (Unfolding.key value) := by
  unfold Unfolding.key
  split
  · exact pure _
  · exact fail _

theorem mapM {action : γ → Unfolding α} {action' : β → Unfolding α} {change : γ → β}
    (h : ∀ item, Agrees strict (action item) (action' (change item))) (items : List γ) :
    Agrees strict (items.mapM action) ((items.map change).mapM action') := by
  induction items with
  | nil => exact pure []
  | cons item rest ih =>
    rw [List.map_cons, List.mapM_cons, List.mapM_cons]
    exact (h item).bind fun value => ih.bind fun values => pure _

theorem optionMapM {action : γ → Unfolding α} {action' : β → Unfolding α} {change : γ → β}
    (h : ∀ item, Agrees strict (action item) (action' (change item))) (item : Option γ) :
    Agrees strict (item.mapM action) ((item.map change).mapM action') := by
  cases item with
  | none => exact pure none
  | some item => exact (h item).bind fun value => pure _

/-- In a comparison that is not strict, one may give an atom at once that the other looks up. -/
theorem atom {action : Unfolding Value} {value : Atom} {result : Option Value} (limit' : ℕ)
    (hloose : ¬ strict) (h : Gives action result) (hresult : ∀ tree ∈ result, tree = .atom value) :
    Agrees strict action (Unfolding.charge limit' >>= fun _ => Pure.pure (.atom value)) := by
  intro budget budget' _
  cases haction : action budget with
  | error failure =>
    generalize (Unfolding.charge limit' >>= _ : Unfolding Value) budget' = outcome
    cases outcome <;> exact fun hstrict => (hloose hstrict).elim
  | ok done =>
    have hvalue := hresult done.1 (h budget done.1 done.2 haction)
    cases budget' with
    | zero => exact ⟨hloose, trivial⟩
    | succ left' => exact ⟨hvalue.symm, fun hstrict => (hloose hstrict).elim⟩

end Agrees

variable {convert convert' : Cell → Unfolding Value}

theorem agrees_keyOf (h : ∀ cell, Agrees strict (convert cell) (convert' (cell.rename f)))
    (cell : Cell) : Agrees strict (keyOf convert cell) (keyOf convert' (cell.rename f)) :=
  (h cell).bind Agrees.key

theorem agrees_pairs (h : ∀ cell, Agrees strict (convert cell) (convert' (cell.rename f)))
    (cells : List (Cell × Cell)) :
    Agrees strict (pairs convert cells) (pairs convert' (cells.map (renamePair f))) := by
  refine (Agrees.mapM (fun pair => ?_) cells).bind fun converted => .pure _
  exact (agrees_keyOf h pair.1).bind fun key => (h pair.2).bind fun value => .pure _

/-- Contents that correspond are converted alike if their cells are. -/
theorem agrees_content (h : ∀ cell, Agrees strict (convert cell) (convert' (cell.rename f)))
    (limit limit' : ℕ) (content : Content) :
    Agrees strict (Unfolding.content convert limit content)
      (Unfolding.content convert' limit' (content.rename f)) := by
  refine (Agrees.charge limit limit').bind fun _ => ?_
  cases content with
  | atom value => exact .pure _
  | list items =>
    simp only [Content.rename, Array.toList_map]
    exact (Agrees.mapM h items.toList).bind fun values => .pure _
  | tuple items => exact (Agrees.mapM h items).bind fun values => .pure _
  | set items =>
    simp only [Content.rename, Array.toList_map]
    exact (Agrees.mapM (agrees_keyOf h) items.toList).bind fun keys => .pure _
  | frozenSet items => exact (Agrees.mapM (agrees_keyOf h) items).bind fun keys => .pure _
  | dict cells =>
    simp only [Content.rename, Array.toList_map]
    exact (agrees_pairs h cells.toList).bind fun pairs => .pure _
  | object value =>
    refine .bind (.bind (.mapM (fun pair => ?_) value.kwargs) fun converted => .pure _)
      fun kwargs => ?_
    · exact (h pair.2).bind fun value => .pure _
    · refine (Agrees.mapM h value.args).bind fun args => ?_
      refine (agrees_pairs h value.attributes).bind fun attributes => ?_
      exact (Agrees.optionMapM h value.state).bind fun state => .pure _

end Unfolding

open Unfolding

namespace Machine.Mirrors

variable {machine machine' : Machine}

/-- Cells that correspond are converted alike.  Where the second machine has an atom instead of a
slot it needs less budget and fewer levels. -/
theorem agrees_unfold (h : machine.Mirrors strict f dead machine') (limit limit' levels : ℕ)
    {enclosing enclosing' : List ℕ}
    (henclosing : ∀ slot counterpart, f slot = .ref counterpart →
      (counterpart ∈ enclosing' ↔ slot ∈ enclosing)) (cell : Cell) :
    Agrees strict (machine.unfold limit levels enclosing cell)
      (machine'.unfold limit' levels enclosing' (cell.rename f)) := by
  induction levels generalizing enclosing enclosing' cell with
  | zero =>
    cases cell with
    | atom value => exact (Agrees.charge limit limit').bind fun _ => .pure _
    | ref slot =>
      cases hslot : f slot with
      | ref counterpart =>
        rw [Cell.rename, hslot]
        exact (Agrees.charge limit limit').bind fun _ => .fail _
      | atom value =>
        rw [Cell.rename, hslot]
        exact .atom limit' (h.not_strict hslot) (gives_unfold limit 0 enclosing (.ref slot))
          (by simp [tree?])
  | succ levels ih =>
    cases cell with
    | atom value => exact (Agrees.charge limit limit').bind fun _ => .pure _
    | ref slot =>
      cases hslot : f slot with
      | ref counterpart =>
        rw [Cell.rename, hslot]
        refine (Agrees.charge limit limit').bind fun _ => ?_
        have hmem := henclosing slot counterpart hslot
        have hcontent := h.slots slot
        rw [hslot] at hcontent
        by_cases hin : slot ∈ enclosing
        · rw [if_pos (by simpa using hin), if_pos (by simpa using hmem.2 hin)]
          exact .fail _
        · rw [if_neg (by simpa using hin), if_neg (by simpa using fun hin' => hin (hmem.1 hin'))]
          rw [show machine'.slot counterpart = _ from hcontent]
          refine agrees_content (ih fun other found hother => ?_) limit limit' _
          -- The two slots are entered together, so the enclosing ones still correspond.
          rw [List.mem_cons, List.mem_cons, henclosing other found hother]
          refine or_congr_left ⟨?_, ?_⟩
          · rintro rfl
            exact h.injective _ _ _ hother hslot
          · rintro rfl
            exact Cell.ref.inj (hother.symm.trans hslot)
      | atom value =>
        rw [Cell.rename, hslot]
        refine .atom limit' (h.not_strict hslot)
          (gives_unfold limit (levels + 1) enclosing (.ref slot)) fun tree htree => ?_
        rw [tree?, h.slot_of_atom hslot] at htree
        exact (Option.mem_some.1 htree).symm

/-- The values of cells that correspond agree. -/
theorem agree_value (h : machine.Mirrors strict f dead machine') (cell : Cell) :
    Agree strict Failure.IsNodeLimit Eq (machine.value cell) (machine'.value (cell.rename f)) := by
  have hbudget : strict → machine.nodeLimit ≤ machine'.nodeLimit := fun hstrict =>
    Nat.add_le_add_left (Nat.mul_le_mul_left _ (h.created hstrict)) _
  have hunfold := h.agrees_unfold machine.nodeLimit machine'.nodeLimit maxDepth
    (fun _ _ _ => iff_of_false List.not_mem_nil List.not_mem_nil) cell _ _ hbudget
  rw [value_eq_map, value_eq_map, map_eq_pure_bind, map_eq_pure_bind]
  exact hunfold.bind fun done done' hdone => hdone.1.symm

end Machine.Mirrors

end Pickle
