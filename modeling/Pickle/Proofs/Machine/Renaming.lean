import Pickle.Proofs.Machine.Allocation

/-!
# Slots by other names

Which numbers slots have is of no concern to a pickle, and nor is whether an atom stands in its cell
or in a slot that nothing else refers to.  `Cell.rename` puts something else in the place of every
slot, another slot or an atom; `Content.rename` does so inside a content, and all changes of
contents commute with it.

An action that only adds slots cannot tell machines apart whose new slots will correspond
(`Exec.Parallel`): it adds to the one what it adds to the other, renamed.  This is so when values of
the host are taken apart (`parallel_embed`).  A consequence for one machine alone is that the new
slots refer to each other and to no slot that was there (`fresh_of_embed`).
-/

namespace Pickle

/-! ## Renaming cells and contents -/

/-- A cell with something else in the place of every slot. -/
def Cell.rename (f : ℕ → Cell) : Cell → Cell
  | .ref slot => f slot
  | .atom value => .atom value

/-- Two cells with something else in the place of every slot. -/
def renamePair (f : ℕ → Cell) (pair : Cell × Cell) : Cell × Cell :=
  (pair.1.rename f, pair.2.rename f)

/-- A keyword argument with something else in the place of every slot. -/
def renameKeyword (f : ℕ → Cell) (pair : String × Cell) : String × Cell :=
  (pair.1, pair.2.rename f)

theorem map_append_list {α β : Type} (change : α → β) (items : Array α) (more : List α) :
    (items ++ more).map change = items.map change ++ more.map change :=
  Array.ext' (by simp)

theorem pairCells_map_renamePair (f : ℕ → Cell) (pairs : List (Cell × Cell)) :
    pairCells (pairs.map (renamePair f)) = (pairCells pairs).map (Cell.rename f) := by
  induction pairs with
  | nil => rfl
  | cons pair rest ih => simp [ih, renamePair]

namespace Content

/-- A content with something else in the place of every slot. -/
def rename (f : ℕ → Cell) : Content → Content
  | .atom value => .atom value
  | .list items => .list (items.map (Cell.rename f))
  | .tuple items => .tuple (items.map (Cell.rename f))
  | .set items => .set (items.map (Cell.rename f))
  | .frozenSet items => .frozenSet (items.map (Cell.rename f))
  | .dict pairs => .dict (pairs.map (renamePair f))
  | .object value => .object ⟨value.className, value.args.map (Cell.rename f),
      value.kwargs.map (renameKeyword f), value.attributes.map (renamePair f),
      value.state.map (Cell.rename f)⟩

variable (f : ℕ → Cell)

@[simp] theorem kind_rename (content : Content) : (content.rename f).kind = content.kind := by
  cases content <;> rfl

theorem rename_extend (cells : List Cell) (content : Content) :
    (content.extend cells).rename f =
      (content.rename f).extend (cells.map (Cell.rename f)) := by
  cases content <;> simp [extend, rename, map_append_list]

theorem rename_extendPairs (pairs : List (Cell × Cell)) (content : Content) :
    (content.extendPairs pairs).rename f =
      (content.rename f).extendPairs (pairs.map (renamePair f)) := by
  cases content <;> simp [extendPairs, rename, map_append_list]

theorem rename_setState (state : Cell) (content : Content) :
    (content.setState state).rename f = (content.rename f).setState (state.rename f) := by
  cases content <;> simp [setState, rename]

theorem rename_makeReadonly (content : Content) :
    content.makeReadonly.rename f = (content.rename f).makeReadonly := by
  unfold makeReadonly
  split
  · rfl
  · next hother =>
    split
    · next array heq =>
      cases content <;> simp_all [rename]
    · rfl

theorem cells_rename (content : Content) :
    (content.rename f).cells = content.cells.map (Cell.rename f) := by
  cases content with
  | object value =>
    simp [rename, cells, pairCells_map_renamePair, renameKeyword, Function.comp_def,
      Option.toList_map]
  | _ => simp [rename, cells, pairCells_map_renamePair]

end Content

/-! ## Actions that add slots -/

namespace Exec

variable {α β : Type} {f : ℕ → Cell} {g : α → α} {g' : β → β}

/-- Whether two actions do the same to machines whose new slots correspond: both fail alike, or both
add slots that correspond and have results that do. -/
def Parallel (f : ℕ → Cell) (g : α → α) (action action' : Exec α) : Prop :=
  ∀ machine machine' : Machine,
    (∀ number, f (machine.slots.size + number) = .ref (machine'.slots.size + number)) →
      (∃ value new created,
        action machine = .ok value { machine with
          slots := machine.slots ++ new, created := machine.created + created } ∧
        action' machine' = .ok (g value) { machine' with
          slots := machine'.slots ++ new.map (Content.rename f),
          created := machine'.created + created }) ∨
      ∃ error after after', action machine = .error error after ∧
        action' machine' = .error error after'

namespace Parallel

theorem pure {value value' : α} (h : value' = g value) :
    Parallel f g (Pure.pure value) (Pure.pure value') := by
  subst h
  exact fun machine machine' _ => .inl ⟨value, #[], 0, by simp; rfl, by simp; rfl⟩

theorem fail (failure : Failure) : Parallel f g (Exec.fail failure) (Exec.fail failure) :=
  fun machine machine' _ => .inr ⟨_, machine, machine', rfl, rfl⟩

theorem bind {action action' : Exec α} {next next' : α → Exec β}
    (first : Parallel f g action action')
    (second : ∀ value, Parallel f g' (next value) (next' (g value))) :
    Parallel f g' (action >>= next) (action' >>= next') := by
  intro machine machine' hfresh
  obtain ⟨value, new, created, h, h'⟩ | ⟨error, after, after', h, h'⟩ :=
    first machine machine' hfresh
  · rw [bind_of_eq_ok h, bind_of_eq_ok h']
    have hmiddle : ∀ number, f ((machine.slots ++ new).size + number) =
        .ref ((machine'.slots ++ new.map (Content.rename f)).size + number) := by
      intro number
      simp [Nat.add_assoc, hfresh]
    obtain ⟨result, newer, more, h, h'⟩ | hfail := second value
      { machine with slots := machine.slots ++ new, created := machine.created + created }
      { machine' with
        slots := machine'.slots ++ new.map (Content.rename f),
        created := machine'.created + created } hmiddle
    · exact .inl ⟨result, new ++ newer, created + more,
        by simp only [h, Array.append_assoc, Nat.add_assoc],
        by simp only [h', Array.map_append, Array.append_assoc, Nat.add_assoc]⟩
    · exact .inr hfail
  · exact .inr ⟨error, after, after', bind_of_eq_error h, bind_of_eq_error h'⟩

theorem alloc (content : Content) :
    Parallel f (Cell.rename f) (Exec.alloc content) (Exec.alloc (content.rename f)) := by
  intro machine machine' hfresh
  refine .inl ⟨.ref machine.slots.size, #[content], 0, ?_, ?_⟩
  · simp [Exec.alloc]
  · simpa [Exec.alloc, Cell.rename] using (hfresh 0).symm

/-- Nodes are counted in both machines, and the levels are the same. -/
theorem enter_bind {levels : ℕ} {next next' : ℕ → Exec β}
    (h : ∀ levels, Parallel f g' (next levels) (next' levels)) :
    Parallel f g' (enter levels >>= next) (enter levels >>= next') := by
  have henter : Parallel f id (enter levels) (enter levels) := by
    cases levels with
    | zero => exact fail _
    | succ levels =>
      exact fun machine machine' _ => .inl ⟨levels, #[], 1, by simp; rfl, by simp; rfl⟩
  exact henter.bind h

end Parallel

/-! ## Values of the host -/

mutual

theorem parallel_embedKey (levels : ℕ) : (key : Key) →
    Parallel f (Cell.rename f) (embedKey levels key) (embedKey levels key)
  | .scalar value => by
    rw [embedKey]
    exact .enter_bind fun _ => .pure rfl
  | .tuple items => by
    rw [embedKey]
    refine .enter_bind fun levels =>
      (parallel_embedKeys levels Array.map_empty items).bind fun cells => ?_
    simpa [Content.rename] using Parallel.alloc (.tuple cells.toList)
  | .frozenSet items => by
    rw [embedKey]
    refine .enter_bind fun levels =>
      (parallel_embedKeys levels Array.map_empty items).bind fun cells => ?_
    simpa [Content.rename] using Parallel.alloc (.frozenSet cells.toList)

theorem parallel_embedKeys (levels : ℕ) {cells cells' : Array Cell}
    (h : cells.map (Cell.rename f) = cells') : (items : List Key) →
      Parallel f (Array.map (Cell.rename f)) (embedKeys levels cells items)
        (embedKeys levels cells' items)
  | [] => by
    rw [embedKeys, embedKeys]
    exact .pure h.symm
  | item :: rest => by
    rw [embedKeys, embedKeys]
    refine (parallel_embedKey levels item).bind fun cell => ?_
    exact parallel_embedKeys levels (by rw [Array.map_push, h]) rest

end

mutual

theorem parallel_embedAt (levels : ℕ) : (value : Value) →
    Parallel f (Cell.rename f) (embedAt levels value) (embedAt levels value)
  | .atom value => by
    rw [embedAt]
    exact .enter_bind fun _ => .pure rfl
  | .list items => by
    rw [embedAt]
    refine .enter_bind fun levels =>
      (parallel_embedAll levels Array.map_empty items).bind fun cells => ?_
    exact .alloc (.list cells)
  | .tuple items => by
    rw [embedAt]
    refine .enter_bind fun levels =>
      (parallel_embedAll levels Array.map_empty items).bind fun cells => ?_
    simpa [Content.rename] using Parallel.alloc (.tuple cells.toList)
  | .set items => by
    rw [embedAt]
    refine .enter_bind fun levels =>
      (parallel_embedKeys levels Array.map_empty items).bind fun cells => ?_
    exact .alloc (.set cells)
  | .frozenSet items => by
    rw [embedAt]
    refine .enter_bind fun levels =>
      (parallel_embedKeys levels Array.map_empty items).bind fun cells => ?_
    simpa [Content.rename] using Parallel.alloc (.frozenSet cells.toList)
  | .dict pairs => by
    rw [embedAt]
    refine .enter_bind fun levels =>
      (parallel_embedPairs levels Array.map_empty pairs).bind fun cells => ?_
    exact .alloc (.dict cells)
  | .object ⟨className, args, kwargs, attributes, state⟩ => by
    rw [embedAt]
    refine .enter_bind fun levels =>
      (parallel_embedAll levels Array.map_empty args).bind fun args => ?_
    refine (parallel_embedKeywords levels Array.map_empty kwargs).bind fun kwargs => ?_
    refine (parallel_embedPairs levels Array.map_empty attributes).bind fun attributes => ?_
    refine (parallel_embedState levels state).bind fun state => ?_
    simpa [Content.rename] using Parallel.alloc
      (.object ⟨className, args.toList, kwargs.toList, attributes.toList, state⟩)

theorem parallel_embedAll (levels : ℕ) {cells cells' : Array Cell}
    (h : cells.map (Cell.rename f) = cells') : (items : List Value) →
      Parallel f (Array.map (Cell.rename f)) (embedAll levels cells items)
        (embedAll levels cells' items)
  | [] => by
    rw [embedAll, embedAll]
    exact .pure h.symm
  | item :: rest => by
    rw [embedAll, embedAll]
    refine (parallel_embedAt levels item).bind fun cell => ?_
    exact parallel_embedAll levels (by rw [Array.map_push, h]) rest

theorem parallel_embedPairs (levels : ℕ) {cells cells' : Array (Cell × Cell)}
    (h : cells.map (renamePair f) = cells') : (pairs : List (Key × Value)) →
      Parallel f (Array.map (renamePair f)) (embedPairs levels cells pairs)
        (embedPairs levels cells' pairs)
  | [] => by
    rw [embedPairs, embedPairs]
    exact .pure h.symm
  | (key, value) :: rest => by
    rw [embedPairs, embedPairs]
    refine (parallel_embedKey levels key).bind fun key => ?_
    refine (parallel_embedAt levels value).bind fun value => ?_
    exact parallel_embedPairs levels (by rw [Array.map_push, h]; rfl) rest

theorem parallel_embedKeywords (levels : ℕ) {cells cells' : Array (String × Cell)}
    (h : cells.map (renameKeyword f) = cells') : (kwargs : List (String × Value)) →
      Parallel f (Array.map (renameKeyword f)) (embedKeywords levels cells kwargs)
        (embedKeywords levels cells' kwargs)
  | [] => by
    rw [embedKeywords, embedKeywords]
    exact .pure h.symm
  | (name, value) :: rest => by
    rw [embedKeywords, embedKeywords]
    refine (parallel_embedAt levels value).bind fun value => ?_
    exact parallel_embedKeywords levels (by rw [Array.map_push, h]; rfl) rest

theorem parallel_embedState (levels : ℕ) : (state : Option Value) →
    Parallel f (Option.map (Cell.rename f)) (embedState levels state) (embedState levels state)
  | none => by
    rw [embedState]
    exact .pure rfl
  | some value => by
    rw [embedState]
    exact (parallel_embedAt levels value).bind fun cell => .pure rfl

end

/-- Taking a value of the host apart is the same whatever slots are called. -/
theorem parallel_embed (value : Value) :
    Parallel f (Cell.rename f) (embed value) (embed value) := parallel_embedAt maxDepth value

/-- Nothing that comes of taking a value of the host apart refers to a slot that was there: putting
an atom in the place of any such slot makes no difference. -/
theorem fresh_of_embed (value : Value) (machine : Machine) :
    Ends (embed value machine)
      (fun cell after => (∀ slot < machine.slots.size, cell ≠ .ref slot) ∧
        ∃ new created, after = { machine with slots := machine.slots ++ new, created } ∧
          ∀ content ∈ new, ∀ slot < machine.slots.size, .ref slot ∉ content.cells)
      fun _ => True := by
  -- Renaming the old slots away leaves the copy as it is, so it names none of them.
  let f (slot : ℕ) : Cell := if slot < machine.slots.size then .atom (.scalar .none) else .ref slot
  have hfresh : ∀ number, f (machine.slots.size + number) = .ref (machine.slots.size + number) :=
    fun number => if_neg (by omega)
  have hold : ∀ slot < machine.slots.size, ∀ cell, Cell.rename f cell ≠ .ref slot := by
    intro slot hslot cell
    cases cell with
    | atom value => simp [Cell.rename]
    | ref other =>
      simp only [Cell.rename, f]
      split
      · simp
      · simp only [ne_eq, Cell.ref.injEq]
        omega
  obtain ⟨cell, new, created, h, h'⟩ | ⟨error, after, after', h, -⟩ :=
    parallel_embed value machine machine hfresh
  · rw [h]
    rw [h] at h'
    injection h' with hcell hmachine
    have hnew : new = new.map (Content.rename f) := by
      exact (Array.append_right_inj machine.slots).1 (congrArg Machine.slots hmachine)
    refine ⟨fun slot hslot => hcell ▸ hold slot hslot cell, new, _, rfl, ?_⟩
    intro content hcontent slot hslot hmem
    rw [hnew] at hcontent
    obtain ⟨other, -, rfl⟩ := Array.mem_map.1 hcontent
    rw [Content.cells_rename] at hmem
    obtain ⟨inner, -, heq⟩ := List.mem_map.1 hmem
    exact hold slot hslot inner heq
  · rw [h]
    trivial

end Exec

end Pickle
