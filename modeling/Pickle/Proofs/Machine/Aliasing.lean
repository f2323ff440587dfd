import Pickle.Proofs.Machine.Conversion

/-!
# References as aliases

Whatever refers to a slot is an alias of everything else that refers to it: a memo entry, a copy on
the stack, an item of a container.  Three facts make this a law of the machine.

An instruction that succeeds changes at most one slot that was there, the one that its target refers
to, and `Machine.mutation?` tells from the machine before it which one and how; an instruction that
fails changes none (`mutatesTo_execute`).  So what a slot holds after a program is what it held
before, with the changes of all instructions that went through some alias of it, in their order
(`slot_after`).  And a memo entry stays what it is until an instruction that succeeds writes the
same index (`memo_after`).

`aliasing` states the law for machines in the middle of any run.
-/

namespace Pickle

/-! ## Changes of a slot -/

/-- A change of what a slot holds. -/
inductive Mutation where
  /-- Items are added to a list or set. -/
  | extend (cells : List Cell)
  /-- Pairs are added to a dict or to the attributes of an instance. -/
  | extendPairs (pairs : List (Cell × Cell))
  /-- An instance gets a state. -/
  | setState (state : Cell)
  /-- A byte array becomes read-only. -/
  | makeReadonly

/-- What a change makes of a content. -/
inductive Mutation.Makes : Mutation → Content → Content → Prop
  | list (cells : List Cell) (items : Array Cell) :
      Makes (.extend cells) (.list items) (.list (items ++ cells))
  | set (cells : List Cell) (items : Array Cell) :
      Makes (.extend cells) (.set items) (.set (items ++ cells))
  | dict (pairs : List (Cell × Cell)) (old : Array (Cell × Cell)) :
      Makes (.extendPairs pairs) (.dict old) (.dict (old ++ pairs))
  | attributes (pairs : List (Cell × Cell)) (value : Instance Cell Cell) :
      Makes (.extendPairs pairs) (.object value)
        (.object { value with attributes := value.attributes ++ pairs })
  | state (state : Cell) (value : Instance Cell Cell) :
      Makes (.setState state) (.object value) (.object { value with state := some state })
  | byteArray (array : ByteArray) :
      Makes .makeReadonly (.atom (.byteArray array))
        (.atom (.byteArray { array with isReadonly := true }))
  /-- A byte string is read-only already. -/
  | bytes (value : Bytes) :
      Makes .makeReadonly (.atom (.scalar (.bytes value))) (.atom (.scalar (.bytes value)))

/-- What some changes make of a content, the first of which comes first. -/
inductive Mutation.MakesAll : List Mutation → Content → Content → Prop
  | nil (content : Content) : MakesAll [] content content
  | cons {mutation : Mutation} {rest : List Mutation} {before middle after : Content}
      (h : mutation.Makes before middle) (hrest : MakesAll rest middle after) :
      MakesAll (mutation :: rest) before after

/-- The target of an operation, which lies below its operands, and the change that is made to what
the target stands for if the operation succeeds. -/
def Machine.mutation? (machine : Machine) : Operation → Option (Cell × Mutation)
  | .append =>
    match machine.stack with
    | cell :: target :: _ => some (target, .extend [cell])
    | _ => none
  | .appends | .addItems =>
    match machine.saved with
    | (target :: _) :: _ => some (target, .extend machine.stack.reverse)
    | _ => none
  | .setItem =>
    match machine.stack with
    | value :: key :: target :: _ => some (target, .extendPairs [(key, value)])
    | _ => none
  | .setItems =>
    match machine.saved, pairUp machine.stack.reverse with
    | (target :: _) :: _, some pairs => some (target, .extendPairs pairs)
    | _, _ => none
  | .build =>
    match machine.stack with
    | state :: target :: _ =>
      match machine.stateAttributes state with
      | some attributes => some (target, .extendPairs attributes)
      | none => some (target, .setState state)
    | _ => none
  | .makeReadonly =>
    match machine.stack with
    | target :: _ => some (target, .makeReadonly)
    | _ => none
  | _ => none

/-- The memo index that an operation writes if it succeeds. -/
def Machine.writes? (machine : Machine) : Operation → Option ℕ
  | .memoize index => some (index.getD machine.nextIndex)
  | _ => none

/-- Whether half of a state gives attributes: those of a dict, or none if it is `None`. -/
inductive Machine.HalfGives (machine : Machine) (half : Cell) : List (Cell × Cell) → Prop
  | dict {pairs : Array (Cell × Cell)} (h : machine.content half = .dict pairs) :
      HalfGives machine half pairs.toList
  | none (h : machine.content half = .atom (.scalar .none)) : HalfGives machine half []

/-- Whether a state gives attributes: those of a dict, or of a pair of halves. -/
inductive Machine.Gives (machine : Machine) (state : Cell) : List (Cell × Cell) → Prop
  | dict {pairs : Array (Cell × Cell)} (h : machine.content state = .dict pairs) :
      Gives machine state pairs.toList
  | halves {first second : Cell} {pairs more : List (Cell × Cell)}
      (h : machine.content state = .tuple [first, second])
      (hfirst : machine.HalfGives first pairs) (hsecond : machine.HalfGives second more) :
      Gives machine state (pairs ++ more)

/-- Whether an operation makes a change to a target, with all of its operands on the stack. -/
inductive Machine.Changes (machine : Machine) : Operation → Cell → Mutation → Prop
  | append {cell target : Cell} {below : List Cell}
      (h : machine.stack = cell :: target :: below) : Changes machine .append target (.extend [cell])
  | appends {target : Cell} {below : List Cell} {saved : List (List Cell)}
      (h : machine.saved = (target :: below) :: saved) :
      Changes machine .appends target (.extend machine.stack.reverse)
  | addItems {target : Cell} {below : List Cell} {saved : List (List Cell)}
      (h : machine.saved = (target :: below) :: saved) :
      Changes machine .addItems target (.extend machine.stack.reverse)
  | setItem {value key target : Cell} {below : List Cell}
      (h : machine.stack = value :: key :: target :: below) :
      Changes machine .setItem target (.extendPairs [(key, value)])
  | setItems {target : Cell} {below : List Cell} {saved : List (List Cell)}
      {pairs : List (Cell × Cell)} (h : machine.saved = (target :: below) :: saved)
      (hpairs : pairCells pairs = machine.stack.reverse) :
      Changes machine .setItems target (.extendPairs pairs)
  | attributes {state target : Cell} {below : List Cell} {pairs : List (Cell × Cell)}
      (h : machine.stack = state :: target :: below) (hstate : machine.Gives state pairs) :
      Changes machine .build target (.extendPairs pairs)
  | state {state target : Cell} {below : List Cell} (h : machine.stack = state :: target :: below)
      (hstate : ∀ pairs, ¬ machine.Gives state pairs) :
      Changes machine .build target (.setState state)
  | makeReadonly {target : Cell} {below : List Cell} (h : machine.stack = target :: below) :
      Changes machine .makeReadonly target .makeReadonly

/-- Whether a machine has become another one with at most one memo entry written and at most one of
the slots that were there changed. -/
structure Machine.MutatesTo (written : Option ℕ) (change : Option (Cell × Mutation))
    (before after : Machine) : Prop where
  memo : ∀ index, written ≠ some index → after.memo[index]? = before.memo[index]?
  size : before.slots.size ≤ after.slots.size
  /-- The slot that the target refers to holds what the change makes of what it held. -/
  changed : ∀ slot mutation, change = some (.ref slot, mutation) →
    slot < before.slots.size ∧ mutation.Makes (before.slot slot) (after.slot slot)
  /-- A target that is an atom is changed on the stack. -/
  changedTop : ∀ value mutation, change = some (.atom value, mutation) →
    ∃ new rest, after.stack = .atom new :: rest ∧ mutation.Makes (.atom value) (.atom new)
  /-- All other slots hold what they held. -/
  kept : ∀ slot < before.slots.size, (∀ mutation, change ≠ some (.ref slot, mutation)) →
    after.slot slot = before.slot slot

namespace Machine

variable {machine before middle after : Machine}

theorem halfAttributes_eq_some_iff {half : Cell} {pairs : List (Cell × Cell)} :
    machine.halfAttributes half = some pairs ↔ machine.HalfGives half pairs := by
  constructor
  · intro h
    unfold halfAttributes at h
    split at h
    · next heq =>
      cases h
      exact .dict heq
    · next heq =>
      cases h
      exact .none heq
    · cases h
  · rintro (h | h)
    · rw [halfAttributes, h]
    · rw [halfAttributes, h]

theorem stateAttributes_eq_some_iff {state : Cell} {pairs : List (Cell × Cell)} :
    machine.stateAttributes state = some pairs ↔ machine.Gives state pairs := by
  constructor
  · intro h
    unfold stateAttributes at h
    split at h
    · next heq =>
      cases h
      exact .dict heq
    · next first second heq =>
      obtain ⟨front, hfront, hrest⟩ := Option.bind_eq_some_iff.1 h
      obtain ⟨back, hback, hdone⟩ := Option.bind_eq_some_iff.1 hrest
      cases hdone
      exact .halves heq (halfAttributes_eq_some_iff.1 hfront) (halfAttributes_eq_some_iff.1 hback)
    · cases h
  · rintro (h | ⟨h, hfirst, hsecond⟩)
    · rw [stateAttributes, h]
    · rw [stateAttributes, h]
      dsimp only
      rw [halfAttributes_eq_some_iff.2 hfirst, halfAttributes_eq_some_iff.2 hsecond]
      rfl

/-- What is read off an operation is the change that it makes. -/
theorem mutation?_eq_some_iff {operation : Operation} {target : Cell} {mutation : Mutation} :
    machine.mutation? operation = some (target, mutation) ↔
      machine.Changes operation target mutation := by
  constructor
  · intro h
    unfold mutation? at h
    split at h
    · split at h
      · next hstack => cases h; exact .append hstack
      · cases h
    · split at h
      · next hsaved => cases h; exact .appends hsaved
      · cases h
    · split at h
      · next hsaved => cases h; exact .addItems hsaved
      · cases h
    · split at h
      · next hstack => cases h; exact .setItem hstack
      · cases h
    · split at h
      · next hsaved hpairs => cases h; exact .setItems hsaved (pairCells_of_pairUp hpairs)
      · cases h
    · split at h
      · next state _ _ hstack =>
        split at h
        · next hstate => cases h; exact .attributes hstack (stateAttributes_eq_some_iff.1 hstate)
        · next hstate =>
          cases h
          refine .state hstack fun pairs hgives => ?_
          rw [stateAttributes_eq_some_iff.2 hgives] at hstate
          cases hstate
      · cases h
    · split at h
      · next hstack => cases h; exact .makeReadonly hstack
      · cases h
    · cases h
  · intro h
    cases h with
    | append h => simp only [mutation?, h]
    | appends h | addItems h => simp only [mutation?, h]
    | setItem h => simp only [mutation?, h]
    | setItems h hpairs => simp only [mutation?, h, pairUp_eq_some_iff.2 hpairs]
    | attributes h hstate => simp only [mutation?, h, stateAttributes_eq_some_iff.2 hstate]
    | state h hstate =>
      have hnone : machine.stateAttributes _ = none :=
        Option.eq_none_iff_forall_ne_some.2 fun pairs hpairs =>
          hstate pairs (stateAttributes_eq_some_iff.1 hpairs)
      simp only [mutation?, h, hnone]
    | makeReadonly h => simp only [mutation?, h]

namespace MutatesTo

variable {written : Option ℕ}

theorem of_eq (hmemo : after.memo = before.memo) (hslots : after.slots = before.slots) :
    before.MutatesTo none none after where
  memo _ _ := by rw [hmemo]
  size := by rw [hslots]
  changed := by simp
  changedTop := by simp
  kept index _ _ := by rw [slot, slot, hslots]

theorem refl (machine : Machine) : machine.MutatesTo none none machine := of_eq rfl rfl

theorem trans (first : before.MutatesTo none none middle)
    (second : middle.MutatesTo written none after) : before.MutatesTo written none after where
  memo index h := (second.memo index h).trans (first.memo index (by simp))
  size := first.size.trans second.size
  changed := by simp
  changedTop := by simp
  kept slot h hnone :=
    (second.kept slot (h.trans_le first.size) hnone).trans (first.kept slot h hnone)

end MutatesTo

theorem GrowsTo.mutatesTo {debt : ℕ} (h : before.GrowsTo debt after) :
    before.MutatesTo none none after := by
  obtain ⟨new, created, rfl, -, -, -⟩ := h
  refine ⟨fun _ _ => rfl, by simp, by simp, by simp, fun index hindex _ => ?_⟩
  rw [slot_eq, slot_eq, Array.getElem?_append_left hindex]

end Machine

/-! ## Contents of a kind -/

/-- What has no parts is no container. -/
theorem Atom.kind_ne {value : Atom} {kind : Kind} (h : kind ∈ [Kind.list, .set, .dict, .object]) :
    value.kind ≠ kind := by
  rintro rfl
  rcases value with (_ | _ | _ | _ | _ | _ | _) | _ | _ | _ <;> simp [Atom.kind] at h

namespace Content

variable {content : Content}

theorem eq_list_of_kind (h : content.kind = .list) : ∃ items, content = .list items := by
  cases content with
  | list items => exact ⟨items, rfl⟩
  | atom value => exact absurd h (Atom.kind_ne (by simp))
  | _ => cases h

theorem eq_set_of_kind (h : content.kind = .set) : ∃ items, content = .set items := by
  cases content with
  | set items => exact ⟨items, rfl⟩
  | atom value => exact absurd h (Atom.kind_ne (by simp))
  | _ => cases h

theorem eq_dict_of_kind (h : content.kind = .dict) : ∃ pairs, content = .dict pairs := by
  cases content with
  | dict pairs => exact ⟨pairs, rfl⟩
  | atom value => exact absurd h (Atom.kind_ne (by simp))
  | _ => cases h

theorem eq_object_of_kind (h : content.kind = .object) : ∃ value, content = .object value := by
  cases content with
  | object value => exact ⟨value, rfl⟩
  | atom value => exact absurd h (Atom.kind_ne (by simp))
  | _ => cases h

end Content

namespace Mutation

variable {content after : Content} {mutation : Mutation}

theorem makes_extend (cells : List Cell) (h : content.kind = .list ∨ content.kind = .set) :
    (extend cells).Makes content (content.extend cells) := by
  rcases h with h | h
  · obtain ⟨items, rfl⟩ := Content.eq_list_of_kind h
    exact .list cells items
  · obtain ⟨items, rfl⟩ := Content.eq_set_of_kind h
    exact .set cells items

theorem makes_extendPairs (pairs : List (Cell × Cell))
    (h : content.kind = .dict ∨ content.kind = .object) :
    (extendPairs pairs).Makes content (content.extendPairs pairs) := by
  rcases h with h | h
  · obtain ⟨old, rfl⟩ := Content.eq_dict_of_kind h
    exact .dict pairs old
  · obtain ⟨value, rfl⟩ := Content.eq_object_of_kind h
    exact .attributes pairs value

theorem makes_setState (state : Cell) (h : content.kind = .object) :
    (setState state).Makes content (content.setState state) := by
  obtain ⟨value, rfl⟩ := Content.eq_object_of_kind h
  exact .state state value

theorem makes_makeReadonly (h : content.kind = .byteArray) :
    makeReadonly.Makes content content.makeReadonly := by
  rcases content with ((_ | _ | _ | _ | _ | _ | _) | array | _ | _) | _ | _ | _ | _ | _ | _
  all_goals first
    | exact .byteArray array
    | cases h

/-- Bytes stay what they are. -/
theorem makes_makeReadonly_bytes (h : content.kind = .bytes) :
    makeReadonly.Makes content content := by
  rcases content with ((_ | _ | _ | _ | _ | value | _) | _ | _ | _) | _ | _ | _ | _ | _ | _
  all_goals first
    | exact .bytes value
    | cases h

theorem Makes.kind_eq (h : mutation.Makes content after) : after.kind = content.kind := by
  cases h <;> rfl

/-- What no slot holds cannot be changed. -/
theorem Makes.lt_size {machine : Machine} {slot : ℕ}
    (h : mutation.Makes (machine.slot slot) after) :
    slot < machine.slots.size := by
  by_contra hslot
  have hnone : machine.slot slot = .none := by
    rw [Machine.slot_eq, Array.getElem?_eq_none (Nat.le_of_not_lt hslot)]
    rfl
  rw [hnone] at h
  cases h

theorem MakesAll.eq_of_nil (h : MakesAll [] content after) : after = content := by
  cases h
  rfl

theorem MakesAll.append {first second : List Mutation} {before middle after : Content}
    (hfirst : MakesAll first before middle) (hsecond : MakesAll second middle after) :
    MakesAll (first ++ second) before after := by
  induction hfirst with
  | nil => exact hsecond
  | cons h _ ih => exact .cons h (ih hsecond)

end Mutation

/-! ## Actions that change no slot -/

namespace Exec

variable {α β : Type}

/-- Whether an action leaves the memo and the slots that are there as they are, however it ends. -/
def KeepsSlots (action : Exec α) : Prop :=
  ∀ machine, Ends (action machine) (fun _ after => machine.MutatesTo none none after)
    (machine.MutatesTo none none)

namespace KeepsSlots

theorem pure (value : α) : KeepsSlots (Pure.pure value) := fun machine => .refl machine

theorem fail (failure : Failure) : KeepsSlots (Exec.fail failure : Exec α) :=
  fun machine => .refl machine

theorem ofExcept (result : Except Error α) : KeepsSlots (Exec.ofExcept result) := by
  cases result with
  | ok value => exact pure value
  | error error => exact fun machine => .refl machine

theorem bind {action : Exec α} {next : α → Exec β} (first : KeepsSlots action)
    (second : ∀ value, KeepsSlots (next value)) : KeepsSlots (action >>= next) := by
  refine fun machine => ((first machine).imp ?_ fun _ h => h).bind
  intro value middle hfirst
  exact (second value middle).imp (fun _ _ h => hfirst.trans h) fun _ h => hfirst.trans h

theorem mapM {γ : Type} {action : γ → Exec α} (h : ∀ item, KeepsSlots (action item))
    (items : List γ) : KeepsSlots (items.mapM action) := by
  induction items with
  | nil => exact pure []
  | cons item rest ih =>
    rw [List.mapM_cons]
    exact (h item).bind fun value => ih.bind fun values => pure _

theorem get : KeepsSlots (MonadStateOf.get : Exec Machine) := fun machine => .refl machine

theorem push (cell : Cell) : KeepsSlots (Exec.push cell) := fun _ => .of_eq rfl rfl

theorem pop : KeepsSlots Exec.pop := by
  intro machine
  unfold Exec.pop
  split
  · exact .of_eq rfl rfl
  · exact .refl machine

theorem popMany (number : ℕ) : KeepsSlots (Exec.popMany number) := by
  induction number with
  | zero => exact pure []
  | succ number ih => exact pop.bind fun last => ih.bind fun cells => pure _

theorem popMark : KeepsSlots Exec.popMark := by
  intro machine
  unfold Exec.popMark
  split
  · exact .of_eq rfl rfl
  · exact .refl machine

theorem content (cell : Cell) : KeepsSlots (Exec.content cell) := fun machine => .refl machine

theorem alloc (content : Content) : KeepsSlots (Exec.alloc content) := by
  refine fun machine => ⟨fun _ _ => rfl, by simp, by simp, by simp, fun index hindex _ => ?_⟩
  rw [Machine.slot_eq, Machine.slot_eq, Array.getElem?_push_lt hindex,
    Array.getElem?_eq_getElem hindex]

theorem pushNew (content : Content) : KeepsSlots (Exec.pushNew content) :=
  (alloc content).bind push

theorem shareTop : KeepsSlots Exec.shareTop := by
  intro machine
  unfold Exec.shareTop
  split
  · exact .refl machine
  · next value rest _ =>
    have hgrown := alloc (.atom value) machine
    exact ⟨hgrown.memo, hgrown.size, by simp, by simp, hgrown.kept⟩
  · exact .refl machine

theorem fetch (index : ℕ) : KeepsSlots (Exec.fetch index) := by
  refine get.bind fun machine => ?_
  split
  · exact push _
  · exact fail _

theorem allocates {debt : ℕ} {good : ℕ → α → Prop} {action : Exec α}
    (h : Allocates 0 debt action good) : KeepsSlots action :=
  fun machine => (h machine (Nat.zero_le _)).imp (fun _ _ h => h.1.mutatesTo) fun _ h => h.mutatesTo

theorem value (cell : Cell) : KeepsSlots (Exec.value cell) := by
  have hvalue : Allocates 0 0 (Exec.value cell) fun _ _ => True := Allocates.value cell
  exact allocates hvalue

theorem popText : KeepsSlots Exec.popText := by
  refine pop.bind fun cell => (content cell).bind fun content => ?_
  split
  · exact pure _
  · exact fail _

theorem popArguments : KeepsSlots Exec.popArguments := by
  refine pop.bind fun cell => (content cell).bind fun content => ?_
  split
  · exact pure _
  · exact fail _

theorem popKeywords : KeepsSlots Exec.popKeywords := by
  refine pop.bind fun cell => (content cell).bind fun content => ?_
  split
  · exact get.bind fun machine => ofExcept _
  · exact pure _
  · exact fail _

theorem popPairs : KeepsSlots Exec.popPairs := by
  refine popMark.bind fun cells => ?_
  split
  · exact pure _
  · exact fail _

theorem embed (value : Value) : KeepsSlots (Exec.embed value) := allocates (allocates_embed 0 value)

theorem callCell (env : Environment) (opcode : Opcode) (callee : Cell) (args : List Cell)
    (kwargs : List (String × Cell)) : KeepsSlots (Exec.callCell env opcode callee args kwargs) := by
  refine (content callee).bind fun content => ?_
  split
  · exact alloc _
  · refine (mapM value args).bind fun args => ?_
    refine (mapM (fun pair => (value pair.2).bind fun value => pure _) kwargs).bind fun kwargs => ?_
    exact (ofExcept _).bind embed
  · exact fail _

theorem push_running {action : Exec Cell} (h : KeepsSlots action) :
    KeepsSlots (action >>= fun cell => Exec.push cell >>= fun _ => Pure.pure Status.running) :=
  h.bind fun cell => (push cell).bind fun _ => pure _

theorem constant (env : Environment) (name : QualifiedName) :
    KeepsSlots (Exec.constant env name) := embed _

theorem persistent (env : Environment) (id : Value) : KeepsSlots (Exec.persistent env id) := by
  unfold Exec.persistent
  split
  · exact (ofExcept _).bind embed
  · exact fail _

end KeepsSlots

/-! ## Changes of the stack top -/

section Ends

variable {done : α → Machine → Prop} {failed : Machine → Prop} {machine : Machine}

theorem ends_running {action : Exec Unit} {done : Machine → Prop}
    (h : Ends (action machine) (fun _ => done) failed) :
    Ends ((action >>= fun _ => Pure.pure Status.running) machine) (fun _ => done) failed :=
  Ends.bind h

theorem ends_get {next : Machine → Exec α} (hnext : Ends (next machine machine) done failed) :
    Ends (((MonadStateOf.get : Exec Machine) >>= next) machine) done failed := Ends.bind hnext

theorem ends_pop {next : Cell → Exec α} (hempty : failed machine)
    (hnext : ∀ cell rest, machine.stack = cell :: rest →
      Ends (next cell { machine with stack := rest }) done failed) :
    Ends ((pop >>= next) machine) done failed := by
  refine Ends.bind ?_
  unfold pop
  split
  · next cell rest hstack => exact hnext cell rest hstack
  · exact hempty

theorem ends_popMark {next : List Cell → Exec α} (hempty : failed machine)
    (hnext : ∀ below saved, machine.saved = below :: saved →
      Ends (next machine.stack.reverse { machine with stack := below, saved }) done failed) :
    Ends ((popMark >>= next) machine) done failed := by
  refine Ends.bind ?_
  unfold popMark
  split
  · next below saved hsaved => exact hnext below saved hsaved
  · exact hempty

theorem ends_topKind {next : Kind → Exec α} (hempty : failed machine)
    (hnext : ∀ target rest kind, machine.stack = target :: rest →
      (machine.content target).kind = kind → Ends (next kind machine) done failed) :
    Ends ((topKind >>= next) machine) done failed := by
  refine Ends.bind ?_
  unfold topKind
  split
  · next target rest hstack => exact hnext target rest _ hstack rfl
  · exact hempty

end Ends

theorem ends_changeTop (before : Machine) {machine : Machine} {target : Cell} {rest : List Cell}
    {change : Content → Content} (mutation : Mutation) (hmemo : machine.memo = before.memo)
    (hslots : machine.slots = before.slots) (hstack : machine.stack = target :: rest)
    (hmakes : mutation.Makes (machine.content target) (change (machine.content target))) :
    Ends ((changeTop change >>= fun _ => Pure.pure Status.running) machine)
      (fun _ after => before.MutatesTo none (some (target, mutation)) after)
      (before.MutatesTo none none) := by
  refine Ends.bind ?_
  unfold changeTop
  rw [hstack]
  cases target with
  | ref slot =>
    have hslot : slot < machine.slots.size := hmakes.lt_size
    -- The slot is changed in place, so whatever names it has changed too.
    refine ⟨fun _ _ => by rw [hmemo], by simp [hslots], ?_, by simp, fun index hindex hother => ?_⟩
    · rintro _ _ ⟨⟩
      refine ⟨hslots ▸ hslot, ?_⟩
      have hbefore : before.slot slot = machine.slot slot := by
        rw [Machine.slot_eq, Machine.slot_eq, hslots]
      have hafter : (machine.slots.modify slot change).getD slot .none =
          change (machine.slot slot) := by
        simp [Machine.slot_eq, hslot, Array.getElem_modify_self]
      rw [hbefore]
      show mutation.Makes _ ((machine.slots.modify slot change).getD slot .none)
      rw [hafter]
      exact hmakes
    · have hne : slot ≠ index := by
        rintro rfl
        exact hother mutation rfl
      rw [Machine.slot_eq, Machine.slot_eq, hslots, Array.getElem?_modify, if_neg hne]
  | atom value =>
    dsimp only
    change mutation.Makes (.atom value) (change (.atom value)) at hmakes
    split
    · next new hnew =>
      rw [hnew] at hmakes
      refine ⟨fun _ _ => by rw [hmemo], by simp [hslots], by simp, ?_, fun index _ _ => ?_⟩
      · rintro _ _ ⟨⟩
        exact ⟨new, rest, rfl, hmakes⟩
      · rw [Machine.slot_eq, Machine.slot_eq, hslots]
    · next hnew =>
      -- An atom is changed to an atom.
      generalize change (.atom value) = new at hmakes hnew
      cases hmakes <;> exact absurd rfl (hnew _)

theorem KeepsSlots.memoize (index : ℕ) (machine : Machine) :
    Ends (Exec.memoize index machine)
      (fun _ after => machine.MutatesTo (some index) none after) (machine.MutatesTo none none) := by
  refine Ends.bind ((KeepsSlots.shareTop machine).imp (fun slot middle h => ?_) fun _ h => h)
  refine h.trans ⟨fun other hother => ?_, le_rfl, by simp, by simp, fun _ _ _ => rfl⟩
  simp only [Std.TreeMap.getElem?_insert]
  split
  · next heq => exact absurd (congrArg some (Nat.compare_eq_eq.1 heq)) hother
  · rfl

/-! ## One law for each operation -/

section Operations

variable (env : Environment) (opcode : Opcode)

/-- Whether an operation does to the memo and to the slots what is read off it, from any machine. -/
def StepMutates (operation : Operation) : Prop :=
  ∀ machine, Ends (step env opcode operation machine)
    (fun _ after => machine.MutatesTo (machine.writes? operation) (machine.mutation? operation)
      after) (machine.MutatesTo none none)

theorem stepMutates_append : StepMutates env opcode .append := by
  intro machine
  simp only [step]
  refine ends_pop (.refl machine) fun cell rest hstack => ?_
  refine ends_topKind (.of_eq rfl rfl) fun target below kind hrest hkind => ?_
  obtain rfl : rest = target :: below := hrest
  simp only [Machine.mutation?, Machine.writes?, hstack]
  split
  · exact ends_changeTop machine (.extend [cell]) rfl rfl rfl (Mutation.makes_extend _ (.inl hkind))
  · exact .of_eq rfl rfl

/-- Lists and sets get all items since the mark in the same way. -/
theorem stepMutates_extend {operation : Operation}
    (h : operation = .appends ∨ operation = .addItems) : StepMutates env opcode operation := by
  intro machine
  rcases h with rfl | rfl
  all_goals
    simp only [step]
    refine ends_popMark (.refl machine) fun rest saved hsaved => ?_
    refine ends_topKind (.of_eq rfl rfl) fun target below kind hrest hkind => ?_
    obtain rfl : rest = target :: below := hrest
    simp only [Machine.mutation?, Machine.writes?, hsaved]
    split
    · exact ends_changeTop machine (.extend _) rfl rfl rfl
        (Mutation.makes_extend _ (by simp [hkind]))
    · exact .of_eq rfl rfl

theorem stepMutates_setItem : StepMutates env opcode .setItem := by
  intro machine
  simp only [step]
  refine ends_pop (.refl machine) fun value rest hstack => ?_
  refine ends_pop (.of_eq rfl rfl) fun key rest' hrest => ?_
  refine ends_topKind (.of_eq rfl rfl) fun target below kind hrest' hkind => ?_
  obtain rfl : rest' = target :: below := hrest'
  obtain rfl : rest = key :: target :: below := hrest
  simp only [Machine.mutation?, Machine.writes?, hstack]
  split
  · exact ends_changeTop machine (.extendPairs [(key, value)]) rfl rfl rfl
      (Mutation.makes_extendPairs _ (.inl hkind))
  · exact ends_changeTop machine (.extendPairs [(key, value)]) rfl rfl rfl
      (Mutation.makes_extendPairs _ (.inr hkind))
  · exact .of_eq rfl rfl

theorem stepMutates_setItems : StepMutates env opcode .setItems := by
  intro machine
  simp only [step, popPairs, bind_assoc]
  refine ends_popMark (.refl machine) fun rest saved hsaved => ?_
  cases hpairs : pairUp machine.stack.reverse with
  | none => exact .of_eq rfl rfl
  | some pairs =>
    simp only [pure_bind]
    refine ends_topKind (.of_eq rfl rfl) fun target below kind hrest hkind => ?_
    obtain rfl : rest = target :: below := hrest
    simp only [Machine.mutation?, Machine.writes?, hsaved, hpairs]
    split
    · exact ends_changeTop machine (.extendPairs pairs) rfl rfl rfl
        (Mutation.makes_extendPairs _ (.inl hkind))
    · exact ends_changeTop machine (.extendPairs pairs) rfl rfl rfl
        (Mutation.makes_extendPairs _ (.inr hkind))
    · exact .of_eq rfl rfl

/-- A state is looked into before the target is, so the change depends on the state first. -/
theorem stepMutates_build : StepMutates env opcode .build := by
  intro machine
  simp only [step]
  refine ends_pop (.refl machine) fun state rest hstack => ?_
  refine ends_get ?_
  refine ends_topKind (.of_eq rfl rfl) fun target below kind hrest hkind => ?_
  obtain rfl : rest = target :: below := hrest
  simp only [Machine.mutation?, Machine.writes?, hstack]
  have hsame : ({ machine with stack := target :: below } : Machine).stateAttributes state =
      machine.stateAttributes state := rfl
  rw [hsame]
  cases machine.stateAttributes state with
  | some attributes =>
    cases kind with
    | object =>
      exact ends_changeTop machine (.extendPairs attributes) rfl rfl rfl
        (Mutation.makes_extendPairs _ (.inr hkind))
    | dict =>
      exact ends_changeTop machine (.extendPairs attributes) rfl rfl rfl
        (Mutation.makes_extendPairs _ (.inl hkind))
    | _ => exact .of_eq rfl rfl
  | none =>
    cases kind with
    | object =>
      exact ends_changeTop machine (.setState state) rfl rfl rfl (Mutation.makes_setState _ hkind)
    | _ => exact .of_eq rfl rfl

theorem stepMutates_makeReadonly : StepMutates env opcode .makeReadonly := by
  intro machine
  simp only [step]
  refine ends_topKind (.of_eq rfl rfl) fun target below kind hstack hkind => ?_
  simp only [Machine.mutation?, Machine.writes?, hstack]
  split
  · exact ends_changeTop machine .makeReadonly rfl rfl hstack (Mutation.makes_makeReadonly hkind)
  · -- Bytes are left alone, which is what the change makes of them.
    have hmakes := Mutation.makes_makeReadonly_bytes hkind
    refine ⟨fun _ _ => rfl, le_rfl, ?_, ?_, fun _ _ _ => rfl⟩
    · rintro slot mutation ⟨⟩
      exact ⟨hmakes.lt_size, hmakes⟩
    · rintro value mutation ⟨⟩
      exact ⟨value, below, hstack, hmakes⟩
  · exact .of_eq rfl rfl

end Operations

variable (env : Environment)

/-- Every operation does to the memo and to the slots what is read off it. -/
theorem mutatesTo_step (opcode : Opcode) (operation : Operation) :
    StepMutates env opcode operation := by
  intro machine
  cases operation with
  | append => exact stepMutates_append env opcode machine
  | appends => exact stepMutates_extend env opcode (.inl rfl) machine
  | addItems => exact stepMutates_extend env opcode (.inr rfl) machine
  | setItem => exact stepMutates_setItem env opcode machine
  | setItems => exact stepMutates_setItems env opcode machine
  | build => exact stepMutates_build env opcode machine
  | makeReadonly => exact stepMutates_makeReadonly env opcode machine
  | memoize index =>
    cases index with
    | some index => exact ends_running (KeepsSlots.memoize index machine)
    | none => exact ends_running (KeepsSlots.memoize machine.nextIndex machine)
  | stop =>
    exact (KeepsSlots.pop.bind fun cell => (KeepsSlots.value cell).bind fun _ => .pure _) machine
  -- The remaining operations add slots and change none.
  | skip => exact KeepsSlots.pure _ machine
  | mark => exact .of_eq rfl rfl
  | popMark => exact (KeepsSlots.popMark.bind fun _ => .pure _) machine
  | pop =>
    refine (KeepsSlots.bind .get fun current => ?_ : KeepsSlots (step env opcode .pop)) machine
    split
    · exact KeepsSlots.popMark.bind fun _ => .pure _
    · exact KeepsSlots.pop.bind fun _ => .pure _
  | dup =>
    exact (KeepsSlots.shareTop.bind fun slot => (KeepsSlots.push _).bind fun _ => .pure _) machine
  | fetch index => exact ((KeepsSlots.fetch index).bind fun _ => .pure _) machine
  | push value => exact ((KeepsSlots.push _).bind fun _ => .pure _) machine
  | pushString value =>
    refine (?_ : KeepsSlots (step env opcode (.pushString value))) machine
    simp only [step]
    split
    · split
      · exact (KeepsSlots.push _).bind fun _ => .pure _
      · exact (KeepsSlots.fail _).bind fun _ => .pure _
    · exact (KeepsSlots.push _).bind fun _ => .pure _
  | tupleOf count =>
    exact ((KeepsSlots.popMany count).bind fun cells => (KeepsSlots.pushNew _).bind fun _ =>
      .pure _) machine
  | pushEmpty container =>
    cases container <;> exact ((KeepsSlots.pushNew _).bind fun _ => .pure _) machine
  | collect container =>
    cases container with
    | tuple | list | frozenSet =>
      exact (KeepsSlots.popMark.bind fun cells => (KeepsSlots.pushNew _).bind fun _ =>
        .pure _) machine
    | dict =>
      exact (KeepsSlots.popPairs.bind fun cells => (KeepsSlots.pushNew _).bind fun _ =>
        .pure _) machine
  | constant name => exact (KeepsSlots.constant env name).push_running machine
  | stackConstant =>
    exact (KeepsSlots.popText.bind fun name => KeepsSlots.popText.bind fun namespace_ =>
      (KeepsSlots.constant env ⟨namespace_, name⟩).push_running) machine
  | apply =>
    exact (KeepsSlots.popArguments.bind fun args => KeepsSlots.pop.bind fun callee =>
      (KeepsSlots.callCell env opcode callee args []).push_running) machine
  | applyKeywords =>
    exact (KeepsSlots.popKeywords.bind fun kwargs => KeepsSlots.popArguments.bind fun args =>
      KeepsSlots.pop.bind fun callee =>
        (KeepsSlots.callCell env opcode callee args kwargs).push_running) machine
  | applyConstant name =>
    exact (KeepsSlots.popMark.bind fun args => (KeepsSlots.constant env name).bind fun callee =>
      (KeepsSlots.callCell env opcode callee args []).push_running) machine
  | applyBracket =>
    refine (KeepsSlots.bind .popMark fun cells => ?_ : KeepsSlots (step env opcode .applyBracket))
      machine
    split
    · exact (KeepsSlots.callCell env opcode _ _ []).push_running
    · exact (KeepsSlots.fail _).bind fun _ => .pure _
  | persistent id => exact (KeepsSlots.persistent env (.str id)).push_running machine
  | stackPersistent =>
    exact (KeepsSlots.pop.bind fun cell => (KeepsSlots.value cell).bind fun id =>
      (KeepsSlots.persistent env id).push_running) machine
  | extension code =>
    refine (?_ : KeepsSlots (step env opcode (.extension code))) machine
    simp only [step]
    split
    · exact (KeepsSlots.embed _).push_running
    · exact (KeepsSlots.fail _).bind fun _ => .pure _
  | nextBuffer =>
    simp only [step]
    refine ends_get ?_
    rcases machine.buffers with _ | _ | ⟨buffer, rest⟩
    · exact .refl machine
    · exact .refl machine
    · exact .of_eq rfl rfl

theorem during_eq_ok {α : Type} {operation : String} {action : Exec α} {machine after : Machine}
    {value : α} (h : during operation action machine = .ok value after) :
    action machine = .ok value after := by
  unfold during at h
  split at h
  · next heq =>
    rw [heq]
    exact h
  · cases h

/-- An instruction that succeeds has counted itself and taken its step. -/
theorem step_of_execute {instruction : Instruction} {machine after : Machine} {status : Status}
    (h : execute env instruction machine = .ok status after) :
    step env instruction.opcode instruction.operation
      { machine with created := machine.created + 1 } = .ok status after :=
  during_eq_ok h

theorem execute_of_step (instruction : Instruction) {machine after : Machine} {status : Status}
    (h : step env instruction.opcode instruction.operation
      { machine with created := machine.created + 1 } = .ok status after) :
    execute env instruction machine = .ok status after := by
  have hcount : count 1 machine = .ok () { machine with created := machine.created + 1 } := rfl
  rw [execute, bind_of_eq_ok hcount, during, h]

theorem pop_of_stack {machine : Machine} {cell : Cell} {rest : List Cell}
    (h : machine.stack = cell :: rest) : pop machine = .ok cell { machine with stack := rest } := by
  simp only [pop, h]

/-- A stop halts with what the stack top is converted to, once the stop itself is counted. -/
theorem execute_stop {machine : Machine} {cell : Cell} {rest : List Cell} {value : Value}
    (hstack : machine.stack = cell :: rest)
    (hvalue : ({ machine with
        stack := rest
        created := machine.created + 1 } : Machine).value cell = .ok value) :
    execute env ⟨.stop, ()⟩ machine = .ok (.halted value)
      { machine with stack := rest, created := machine.created + 1 } := by
  apply execute_of_step
  let counted : Machine := { machine with created := machine.created + 1 }
  have hpop := pop_of_stack (show counted.stack = cell :: rest from hstack)
  have hconverted : Exec.value cell { counted with stack := rest } =
      .ok value { counted with stack := rest } := by
    rw [Exec.value, hvalue]
  show step env .stop .stop counted = _
  rw [step, bind_of_eq_ok hpop, bind_of_eq_ok hconverted]
  rfl

theorem execute_of_step_error (instruction : Instruction) {machine after : Machine} {error : Error}
    (h : step env instruction.opcode instruction.operation
      { machine with created := machine.created + 1 } = .error error after) :
    execute env instruction machine = .error (error.during instruction.name) after := by
  have hcount : count 1 machine = .ok () { machine with created := machine.created + 1 } := rfl
  rw [execute, bind_of_eq_ok hcount, during, h]

theorem mutatesTo_execute (instruction : Instruction) (machine : Machine) :
    Ends (execute env instruction machine)
      (fun _ after => machine.MutatesTo (machine.writes? instruction.operation)
        (machine.mutation? instruction.operation) after) (machine.MutatesTo none none) := by
  have hstep := mutatesTo_step env instruction.opcode instruction.operation
    { machine with created := machine.created + 1 }
  have hwrites : Machine.writes? { machine with created := machine.created + 1 }
      instruction.operation = machine.writes? instruction.operation := by
    cases instruction.operation <;> rfl
  have hmutation : Machine.mutation? { machine with created := machine.created + 1 }
      instruction.operation = machine.mutation? instruction.operation := by
    cases instruction.operation <;> rfl
  rw [hwrites, hmutation] at hstep
  refine Ends.bind (Ends.during _ (hstep.imp ?_ ?_))
  · exact fun _ _ h => ⟨h.memo, h.size, h.changed, h.changedTop, h.kept⟩
  · exact fun _ h => ⟨h.memo, h.size, by simp, by simp, h.kept⟩

end Exec

/-! ## Programs -/

/-- Whether an action succeeds. -/
def Exec.succeeds {α : Type} (action : Exec α) (machine : Machine) : Bool :=
  match action machine with
  | .ok _ _ => true
  | .error _ _ => false

namespace Machine

variable (env : Environment)

/-- The change of a slot by an instruction, if it succeeds and its target refers to the slot. -/
def mutationOf (index : ℕ) (machine : Machine) (instruction : Instruction) : List Mutation :=
  if (Exec.execute env instruction).succeeds machine then
    match machine.mutation? instruction.operation with
    | some (.ref slot, mutation) => if slot = index then [mutation] else []
    | _ => []
  else []

/-- The changes of a slot by a program, through whatever references they are made. -/
def mutationsOf (index : ℕ) : Machine → List Instruction → List Mutation
  | _, [] => []
  | machine, instruction :: rest =>
    machine.mutationOf env index instruction ++
      mutationsOf index ((Exec.execute env instruction).after machine) rest

/-- Whether no instruction of a program that succeeds writes some memo entry. -/
def KeepsEntry (index : ℕ) : Machine → List Instruction → Prop
  | _, [] => True
  | machine, instruction :: rest =>
    ((Exec.execute env instruction).succeeds machine →
      machine.writes? instruction.operation ≠ some index) ∧
        KeepsEntry index ((Exec.execute env instruction).after machine) rest

theorem after_cons (machine : Machine) (instruction : Instruction) (rest : List Instruction) :
    machine.after env (instruction :: rest) =
      ((Exec.execute env instruction).after machine).after env rest := rfl

theorem slot_after_execute {index : ℕ} {machine : Machine} (hindex : index < machine.slots.size)
    (instruction : Instruction) :
    Mutation.MakesAll (machine.mutationOf env index instruction) (machine.slot index)
        (((Exec.execute env instruction).after machine).slot index) ∧
      index < ((Exec.execute env instruction).after machine).slots.size := by
  have hends := Exec.mutatesTo_execute env instruction machine
  unfold Exec.after mutationOf Exec.succeeds
  cases hresult : Exec.execute env instruction machine with
  | error error after =>
    rw [hresult] at hends
    refine ⟨?_, hindex.trans_le hends.size⟩
    show Mutation.MakesAll [] (machine.slot index) (after.slot index)
    rw [hends.kept index hindex (by simp)]
    exact .nil _
  | ok status after =>
    rw [hresult] at hends
    refine ⟨?_, hindex.trans_le hends.size⟩
    have hsame : (∀ mutation, machine.mutation? instruction.operation ≠
        some (.ref index, mutation)) → Mutation.MakesAll [] (machine.slot index) (after.slot index) := by
      intro hother
      rw [hends.kept index hindex hother]
      exact .nil _
    rcases hmutation : machine.mutation? instruction.operation with _ | ⟨slot | value, mutation⟩
    · exact hsame (by simp [hmutation])
    · by_cases heq : slot = index
      · subst heq
        simpa using .cons (hends.changed slot mutation hmutation).2 (.nil _)
      · simpa [heq] using hsame (by simp [hmutation, heq])
    · exact hsame (by simp [hmutation])

/-- What a slot holds after a program. -/
theorem slot_after {index : ℕ} {machine : Machine} (hindex : index < machine.slots.size)
    (program : List Instruction) :
    Mutation.MakesAll (machine.mutationsOf env index program) (machine.slot index)
        ((machine.after env program).slot index) ∧
      index < (machine.after env program).slots.size := by
  induction program generalizing machine with
  | nil => exact ⟨.nil _, hindex⟩
  | cons instruction rest ih =>
    obtain ⟨hslot, hsize⟩ := slot_after_execute env hindex instruction
    obtain ⟨hrest, hlast⟩ := ih hsize
    exact ⟨hslot.append hrest, hlast⟩

/-- A memo entry stays until it is written. -/
theorem memo_after {index : ℕ} {machine : Machine} {program : List Instruction}
    (h : machine.KeepsEntry env index program) :
    (machine.after env program).memo[index]? = machine.memo[index]? := by
  induction program generalizing machine with
  | nil => rfl
  | cons instruction rest ih =>
    obtain ⟨hfirst, hrest⟩ := h
    rw [after_cons, ih hrest]
    have hends := Exec.mutatesTo_execute env instruction machine
    unfold Exec.succeeds at hfirst
    unfold Exec.after
    cases hresult : Exec.execute env instruction machine with
    | error error after =>
      rw [hresult] at hends
      exact hends.memo index (by simp)
    | ok status after =>
      rw [hresult] at hends hfirst
      exact hends.memo index (hfirst rfl)

/-- Whether a slot has what was on top of the stack: it is the slot that the top referred to, or a
new one that the atom on top has moved to.  Then come the cells below the top. -/
structure SharesTop (slot : ℕ) (below : List Cell) (before after : Machine) : Prop where
  top : before.stack = .ref slot :: below ∨
    ∃ value, before.stack = .atom value :: below ∧ slot = before.slots.size
  content : ∀ cell ∈ before.stack.head?, after.slot slot = before.content cell

end Machine

namespace Exec

variable (env : Environment) {machine after : Machine} {status : Status}

theorem sharesTop_shareTop (machine : Machine) :
    Ends (shareTop machine) (fun slot after => ∃ below, machine.SharesTop slot below after ∧
      after.stack = .ref slot :: below) fun _ => True := by
  unfold shareTop
  split
  · next slot below hstack =>
    exact ⟨below, ⟨.inl hstack, by simp [hstack, Machine.content]⟩, hstack⟩
  · next value below hstack =>
    refine ⟨below, ⟨.inr ⟨value, hstack, rfl⟩, ?_⟩, rfl⟩
    simp [hstack, Machine.content, Machine.slot]
  · trivial

theorem step_memoize (opcode : Opcode) (index : Option ℕ) (machine : Machine) :
    step env opcode (.memoize index) machine =
      (memoize (index.getD machine.nextIndex) >>= fun _ => Pure.pure Status.running) machine := by
  cases index <;> rfl

/-- An instruction that writes a memo entry lets the entry and the stack top refer to one slot. -/
theorem sharesTop_of_writes {instruction : Instruction} {index : ℕ}
    (hwrites : machine.writes? instruction.operation = some index)
    (h : execute env instruction machine = .ok status after) :
    ∃ slot below, machine.SharesTop slot below after ∧ after.stack = .ref slot :: below ∧
      after.memo[index]? = some slot := by
  have hstep := step_of_execute env h
  cases hoperation : instruction.operation with
  | memoize chosen =>
    rw [hoperation] at hwrites hstep
    obtain rfl : chosen.getD machine.nextIndex = index := Option.some.inj hwrites
    have hends : Ends (step env instruction.opcode (.memoize chosen)
        { machine with created := machine.created + 1 })
        (fun _ after => ∃ slot below, machine.SharesTop slot below after ∧
          after.stack = .ref slot :: below ∧
            after.memo[chosen.getD machine.nextIndex]? = some slot) fun _ => True := by
      rw [step_memoize]
      refine Ends.bind (Ends.bind ((sharesTop_shareTop _).imp ?_ fun _ _ => trivial))
      rintro slot middle ⟨below, hshares, hstack⟩
      refine ⟨slot, below, ⟨hshares.top, hshares.content⟩, hstack, ?_⟩
      exact Std.TreeMap.getElem?_insert_self
    rw [hstep] at hends
    exact hends
  | _ =>
    rw [hoperation] at hwrites
    cases hwrites

/-- A second copy of the stack top refers to the same slot as the first. -/
theorem sharesTop_of_dup {instruction : Instruction} (hdup : instruction.operation = .dup)
    (h : execute env instruction machine = .ok status after) :
    ∃ slot below, machine.SharesTop slot below after ∧
      after.stack = .ref slot :: .ref slot :: below := by
  have hstep := step_of_execute env h
  have hends : Ends (step env instruction.opcode .dup
      { machine with created := machine.created + 1 })
      (fun _ after => ∃ slot below, machine.SharesTop slot below after ∧
        after.stack = .ref slot :: .ref slot :: below) fun _ => True := by
    refine Ends.bind ((sharesTop_shareTop _).imp ?_ fun _ _ => trivial)
    rintro slot middle ⟨below, hshares, hstack⟩
    exact ⟨slot, below, ⟨hshares.top, hshares.content⟩, congrArg (Cell.ref slot :: ·) hstack⟩
  rw [← hdup, hstep] at hends
  exact hends

/-- An instruction that reads a memo entry pushes a reference to its slot. -/
theorem execute_fetch {instruction : Instruction} {index slot : ℕ}
    (hfetch : instruction.operation = .fetch index) (h : machine.memo[index]? = some slot) :
    execute env instruction machine = .ok .running
      { machine with stack := .ref slot :: machine.stack, created := machine.created + 1 } := by
  have hends : Ends (execute env instruction machine)
      (fun status after => status = .running ∧ after =
        { machine with stack := .ref slot :: machine.stack, created := machine.created + 1 })
      fun _ => False := by
    refine Ends.bind (Ends.during _ ?_)
    rw [hfetch]
    refine Ends.bind (ends_get ?_)
    simp only [h]
    exact ⟨rfl, rfl⟩
  cases hresult : execute env instruction machine with
  | ok status after =>
    rw [hresult] at hends
    obtain ⟨rfl, rfl⟩ := hends
    rfl
  | error error after =>
    rw [hresult] at hends
    exact hends.elim

end Exec

namespace Machine

theorem WellFormed.of_execute {env : Environment} {machine after : Machine} {status : Status}
    {instruction : Instruction} (hmachine : machine.WellFormed)
    (h : Exec.execute env instruction machine = .ok status after) : after.WellFormed := by
  have hafter := (Exec.wellFormed_after_execute env instruction hmachine).1
  rw [Exec.after, h] at hafter
  exact hafter

/-- Whether a conversion of a cell gives a value, be it that of a stack top or one under way inside
of other slots. -/
def Converts (machine : Machine) (cell : Cell) (value : Value) : Prop :=
  ∃ limit levels enclosing budget left,
    machine.unfold limit levels enclosing cell budget = .ok (value, left)

theorem converts_of_value {machine : Machine} {cell : Cell} {value : Value}
    (h : machine.value cell = .ok value) : machine.Converts cell value := by
  obtain ⟨left, hrun⟩ := unfold_of_value h
  exact ⟨_, _, _, _, left, hrun⟩

theorem Converts.unfolds {machine : Machine} {cell : Cell} {value : Value}
    (h : machine.Converts cell value) : machine.Unfolds cell value := by
  obtain ⟨limit, levels, enclosing, budget, left, hrun⟩ := h
  exact unfolds_of_unfold hrun

/-- A reference has the tree of what the slot holds. -/
theorem Unfolds.content {machine : Machine} {slot : ℕ} {value : Value}
    (h : machine.Unfolds (.ref slot) value) :
    ∃ height, contentTree? (machine.tree? height) (machine.slot slot) = some value := by
  obtain ⟨height, htree⟩ := h
  cases height with
  | zero => cases htree
  | succ height => exact ⟨height, htree⟩

/-- References are aliases, in the middle of any run.

An instruction that succeeds in writing a memo entry leaves a reference on top to the slot of what
was on top, and up to the next write of that entry every read of it pushes a reference to that slot,
whatever is carried out in between.

A slot holds what it held, with all changes that instructions made through any reference to it; and
conversions of references to it, be they stack tops or items of containers that are being converted,
all give one value, the tree of just that.

An instruction that succeeds changes no slot but the one that its target refers to, in the way that
its operands ask for; one that fails changes none.  Copies of the stack top refer to one slot. -/
theorem aliasing (options : Options) (before : List Instruction) :
    let env := options.environment
    let machine := options.machine.after env before
    (∀ write index status written, machine.writes? write.operation = some index →
      Exec.execute env write machine = .ok status written →
        ∃ slot below, machine.SharesTop slot below written ∧ written.stack = .ref slot :: below ∧
          ∀ program, written.KeepsEntry env index program →
            ∀ read : Instruction, read.operation = .fetch index →
              let later := written.after env program
              Exec.execute env read later = .ok .running
                { later with stack := .ref slot :: later.stack, created := later.created + 1 } ∧
              Mutation.MakesAll (written.mutationsOf env slot program) (written.slot slot)
                (later.slot slot)) ∧
    (∀ slot < machine.slots.size, ∀ program, let later := machine.after env program
      Mutation.MakesAll (machine.mutationsOf env slot program) (machine.slot slot)
          (later.slot slot) ∧
        (∀ value, later.value (.ref slot) = .ok value → later.Converts (.ref slot) value) ∧
        ∀ value, later.Converts (.ref slot) value →
          (∃ height, contentTree? (later.tree? height) (later.slot slot) = some value) ∧
            ∀ other, later.Converts (.ref slot) other → other = value) ∧
    (∀ instruction, Exec.Ends (Exec.execute env instruction machine)
      (fun _ after => machine.MutatesTo (machine.writes? instruction.operation)
        (machine.mutation? instruction.operation) after) (machine.MutatesTo none none)) ∧
    (∀ operation target mutation, machine.mutation? operation = some (target, mutation) ↔
      machine.Changes operation target mutation) ∧
    ∀ dup status after, dup.operation = .dup → Exec.execute env dup machine = .ok status after →
      ∃ slot below, machine.SharesTop slot below after ∧
        after.stack = .ref slot :: .ref slot :: below := by
  intro env machine
  have hmachine : machine.WellFormed :=
    wellFormed_of_program env (wellFormed_initial options.buffers) before
  refine ⟨?_, ?_, fun instruction => Exec.mutatesTo_execute env instruction machine,
    fun _ _ _ => mutation?_eq_some_iff, fun dup status after hdup h =>
      Exec.sharesTop_of_dup env hdup h⟩
  · intro write index status written hwrites h
    obtain ⟨slot, below, hshares, hstack, hmemo⟩ := Exec.sharesTop_of_writes env hwrites h
    refine ⟨slot, below, hshares, hstack, fun program hkeeps read hread => ⟨?_, ?_⟩⟩
    · -- The entry still names the slot, so it is read there whatever has become of the slot.
      exact Exec.execute_fetch env hread ((memo_after env hkeeps).trans hmemo)
    · have hslot : slot < written.slots.size := (hmachine.of_execute h).memo index slot hmemo
      exact (slot_after env hslot program).1
  · intro slot hslot program later
    refine ⟨(slot_after env hslot program).1, fun value h => converts_of_value h,
      fun value h => ⟨h.unfolds.content, fun other hother => ?_⟩⟩
    exact hother.unfolds.unique h.unfolds

end Machine

end Pickle
