import Pickle.Proofs.Machine.Concurrence
import Pickle.Proofs.Machine.Padding
import Pickle.Proofs.Machine.Sequences

/-!
# Batches

A container can be made in one go, of a bracket, or start empty and be filled batch by batch: one
item or pair at a time, or with brackets of any lengths, or for pairs also with states that are
dicts or pairs of dicts.  A `Batch` is one instruction of that kind, with the cells that are pushed
for it.

Each batch changes the target on top of the stack and nothing else, and the changes of batches that
follow each other add up.  So what counts is which items or pairs come in which order, and not how
they are spread over batches (`batches_equivalent`).  The machines that result are the same but for
the count of what was created, and that shows only where a value has too many nodes.

A state is read when its batch is carried out.  So that it still spells then what it spelled at
first, it must not be the target itself, nor have the target as a half.
-/

namespace Pickle

/-- Cells that are added to a container by one instruction. -/
inductive Batch where
  /-- One item of a list. -/
  | append (item : Cell)
  /-- A bracket of items of a list. -/
  | appends (items : List Cell)
  /-- A bracket of items of a set. -/
  | addItems (items : List Cell)
  /-- One pair. -/
  | setItem (key value : Cell)
  /-- A bracket of pairs. -/
  | setItems (pairs : List (Cell × Cell))
  /-- The pairs that a state spells. -/
  | build (state : Cell)

open Exec in
/-- Pushes the cells of a batch and adds them to the container on the stack. -/
def Batch.run (env : Environment) : Batch → Exec Unit
  | .append item => do
    push item
    perform env ⟨.append, ()⟩
  | .appends items => bracketed env items ⟨.appends, ()⟩
  | .addItems items => bracketed env items ⟨.addItems, ()⟩
  | .setItem key value => do
    push key
    push value
    perform env ⟨.setItem, ()⟩
  | .setItems pairs => bracketed env (pairCells pairs) ⟨.setItems, ()⟩
  | .build state => do
    push state
    perform env ⟨.build, ()⟩

/-- Adds batches to the container on the stack, one after the other. -/
def Exec.fill (env : Environment) (batches : List Batch) : Exec Unit :=
  batches.forM (Batch.run env)

/-- Whether batches for a kind of container are some items, spread in any way. -/
inductive AddsItems : Kind → List Batch → List Cell → Prop
  | nil (kind : Kind) : AddsItems kind [] []
  | append (item : Cell) {batches : List Batch} {items : List Cell}
      (h : AddsItems .list batches items) :
      AddsItems .list (.append item :: batches) (item :: items)
  | appends (more : List Cell) {batches : List Batch} {items : List Cell}
      (h : AddsItems .list batches items) :
      AddsItems .list (.appends more :: batches) (more ++ items)
  | addItems (more : List Cell) {batches : List Batch} {items : List Cell}
      (h : AddsItems .set batches items) :
      AddsItems .set (.addItems more :: batches) (more ++ items)

namespace Machine

/-- Whether half of a state spells pairs: it is a dict other than the target, or `None`. -/
inductive SpellsHalf (machine : Machine) (target : ℕ) : Cell → List (Cell × Cell) → Prop
  | dict {half : Cell} {pairs : Array (Cell × Cell)} (hne : half ≠ .ref target)
      (hcontent : machine.content half = .dict pairs) : SpellsHalf machine target half pairs.toList
  | none {half : Cell} (hne : half ≠ .ref target) (hcontent : machine.content half = .none) :
      SpellsHalf machine target half []

/-- Whether a state spells pairs: it is a dict other than the target, or a pair of halves. -/
inductive Spells (machine : Machine) (target : ℕ) : Cell → List (Cell × Cell) → Prop
  | dict {state : Cell} {pairs : Array (Cell × Cell)} (hne : state ≠ .ref target)
      (hcontent : machine.content state = .dict pairs) : Spells machine target state pairs.toList
  | halves {state first second : Cell} {pairs more : List (Cell × Cell)}
      (hne : state ≠ .ref target) (hcontent : machine.content state = .tuple [first, second])
      (hfirst : machine.SpellsHalf target first pairs)
      (hsecond : machine.SpellsHalf target second more) :
      Spells machine target state (pairs ++ more)

/-- Whether batches are some pairs, spread in any way. -/
inductive AddsPairs (machine : Machine) (target : ℕ) : List Batch → List (Cell × Cell) → Prop
  | nil : AddsPairs machine target [] []
  | setItem (key value : Cell) {batches : List Batch} {pairs : List (Cell × Cell)}
      (h : AddsPairs machine target batches pairs) :
      AddsPairs machine target (.setItem key value :: batches) ((key, value) :: pairs)
  | setItems (more : List (Cell × Cell)) {batches : List Batch} {pairs : List (Cell × Cell)}
      (h : AddsPairs machine target batches pairs) :
      AddsPairs machine target (.setItems more :: batches) (more ++ pairs)
  | build {state : Cell} {more : List (Cell × Cell)} {batches : List Batch}
      {pairs : List (Cell × Cell)} (hstate : machine.Spells target state more)
      (h : AddsPairs machine target batches pairs) :
      AddsPairs machine target (.build state :: batches) (more ++ pairs)

variable {machine machine' : Machine} {target : ℕ}

theorem SpellsHalf.halfAttributes {half : Cell} {pairs : List (Cell × Cell)}
    (h : machine.SpellsHalf target half pairs) : machine.halfAttributes half = some pairs := by
  cases h with
  | dict _ hcontent => rw [Machine.halfAttributes, hcontent]
  | none _ hcontent =>
    rw [Machine.halfAttributes, hcontent]
    rfl

theorem Spells.stateAttributes {state : Cell} {pairs : List (Cell × Cell)}
    (h : machine.Spells target state pairs) : machine.stateAttributes state = some pairs := by
  cases h with
  | dict _ hcontent => rw [Machine.stateAttributes, hcontent]
  | halves _ hcontent hfirst hsecond =>
    simp only [Machine.stateAttributes, hcontent, hfirst.halfAttributes, hsecond.halfAttributes]
    rfl

section Elsewhere

variable (hcontent : ∀ cell, cell ≠ .ref target → machine'.content cell = machine.content cell)
include hcontent

theorem SpellsHalf.of_content {half : Cell} {pairs : List (Cell × Cell)}
    (h : machine.SpellsHalf target half pairs) : machine'.SpellsHalf target half pairs := by
  cases h with
  | dict hne hhalf => exact .dict hne ((hcontent _ hne).trans hhalf)
  | none hne hhalf => exact .none hne ((hcontent _ hne).trans hhalf)

theorem Spells.of_content {state : Cell} {pairs : List (Cell × Cell)}
    (h : machine.Spells target state pairs) : machine'.Spells target state pairs := by
  cases h with
  | dict hne hstate => exact .dict hne ((hcontent _ hne).trans hstate)
  | halves hne hstate hfirst hsecond =>
    exact .halves hne ((hcontent _ hne).trans hstate) (hfirst.of_content hcontent)
      (hsecond.of_content hcontent)

end Elsewhere

/-! ## Changes of a slot -/

/-- The machine with one slot changed. -/
def modifySlot (machine : Machine) (slot : ℕ) (change : Content → Content) : Machine :=
  { machine with slots := machine.slots.modify slot change }

/-- The machine with a new slot that the stack top refers to. -/
def topped (machine : Machine) (content : Content) : Machine :=
  { machine with
    stack := .ref machine.slots.size :: machine.stack
    slots := machine.slots.push content }

theorem slot_modifySlot (machine : Machine) (slot : ℕ) {change : Content → Content}
    (hnone : change .none = .none) :
    (machine.modifySlot slot change).slot slot = change (machine.slot slot) :=
  (machine.slot_modify hnone slot slot).trans (if_pos rfl)

theorem content_modifySlot {slot : ℕ} {change : Content → Content} (hnone : change .none = .none)
    {cell : Cell} (hne : cell ≠ .ref slot) :
    (machine.modifySlot slot change).content cell = machine.content cell := by
  cases cell with
  | atom value => rfl
  | ref other =>
    have hother : slot ≠ other := fun heq => hne (heq ▸ rfl)
    exact (machine.slot_modify hnone slot other).trans (if_neg hother)

theorem slot_topped (machine : Machine) (content : Content) :
    (machine.topped content).slot machine.slots.size = content := by
  rw [slot_eq, topped, Array.getElem?_push_size]
  rfl

theorem content_topped {content : Content} {cell : Cell}
    (hne : cell ≠ .ref machine.slots.size) :
    (machine.topped content).content cell = machine.content cell := by
  cases cell with
  | atom value => rfl
  | ref slot =>
    have hslot : slot ≠ machine.slots.size := fun heq => hne (heq ▸ rfl)
    show Machine.slot _ slot = machine.slot slot
    rw [slot_eq, slot_eq, topped, Array.getElem?_push, if_neg hslot]

theorem modifySlot_id (machine : Machine) (slot : ℕ) {change : Content → Content}
    (h : ∀ content, change content = content) : machine.modifySlot slot change = machine := by
  have hslots : machine.slots.modify slot change = machine.slots := by
    ext index
    · simp
    · simp [Array.getElem_modify, h]
  rw [modifySlot, hslots]

theorem modifySlot_modifySlot (machine : Machine) (slot : ℕ) (first second : Content → Content) :
    (machine.modifySlot slot first).modifySlot slot second =
      machine.modifySlot slot (second ∘ first) := by
  have hslots : (machine.slots.modify slot first).modify slot second =
      machine.slots.modify slot (second ∘ first) := by
    ext index
    · simp
    · simp only [Array.getElem_modify]
      split <;> rfl
  rw [modifySlot, modifySlot, modifySlot, hslots]

/-- A change of a slot that is new is a change of what it was made with. -/
theorem modifySlot_topped (machine : Machine) (content : Content) (change : Content → Content) :
    (machine.topped content).modifySlot machine.slots.size change =
      machine.topped (change content) := by
  have hslots : (machine.slots.push content).modify machine.slots.size change =
      machine.slots.push (change content) := by
    ext index
    · simp
    · simp only [Array.getElem_modify, Array.getElem_push]
      split <;> grind
  rw [modifySlot, topped, topped, hslots]

end Machine

namespace Content

theorem extend_nil (content : Content) : content.extend [] = content := by
  cases content <;> simp [extend]

theorem kind_extend (cells : List Cell) (content : Content) :
    (content.extend cells).kind = content.kind := by
  cases content <;> rfl

theorem extend_append (cells more : List Cell) :
    extend more ∘ extend cells = extend (cells ++ more) := by
  have hitems : ∀ items : Array Cell, items ++ cells ++ more = items ++ (cells ++ more) :=
    fun items => Array.ext' (by simp)
  funext content
  cases content <;> simp [extend, hitems]

theorem extendPairs_nil (content : Content) : content.extendPairs [] = content := by
  cases content <;> simp [extendPairs]

theorem kind_extendPairs (pairs : List (Cell × Cell)) (content : Content) :
    (content.extendPairs pairs).kind = content.kind := by
  cases content <;> rfl

theorem extendPairs_append (pairs more : List (Cell × Cell)) :
    extendPairs more ∘ extendPairs pairs = extendPairs (pairs ++ more) := by
  have hpairs : ∀ old : Array (Cell × Cell), old ++ pairs ++ more = old ++ (pairs ++ more) :=
    fun old => Array.ext' (by simp)
  funext content
  cases content <;> simp [extendPairs, hpairs]

end Content

namespace Exec

open Machine

variable {env : Environment} {machine : Machine} {slot : ℕ} {below : List Cell}

/-! ## One batch -/

section Batch

variable (hstack : machine.stack = .ref slot :: below)
include hstack

/-- The target is found and changed, whatever was created. -/
theorem changeTop_of_kind {kind : Kind} (hkind : (machine.slot slot).kind = kind)
    (change : Content → Content) (created : ℕ) :
    topKind { machine with created } = .ok kind { machine with created } ∧
      changeTop change { machine with created } =
        .ok () { machine.modifySlot slot change with created } := by
  have hnow : ({ machine with created } : Machine).stack = .ref slot :: below := hstack
  exact ⟨topKind_of_ref hnow hkind, changeTop_of_ref hnow change⟩

theorem leadsTo_run_append (hkind : (machine.slot slot).kind = .list) (item : Cell) :
    LeadsTo (Batch.run env (.append item)) machine (machine.modifySlot slot (.extend [item])) := by
  refine (leadsTo_push item machine).bind fun _ => leadsTo_perform fun created => ?_
  have hpop : pop { machine with stack := item :: machine.stack, created } =
      .ok item { machine with created } := rfl
  obtain ⟨htop, hchange⟩ := changeTop_of_kind hstack hkind (.extend [item]) created
  show step env .append .append _ = _
  rw [step, bind_of_eq_ok hpop, bind_of_eq_ok htop]
  exact bind_of_eq_ok hchange

/-- A bracket of items is closed by the instruction for its kind of container. -/
theorem leadsTo_extend (items : List Cell) {closing : Instruction}
    (hkind : closing.operation = .appends ∧ (machine.slot slot).kind = .list ∨
      closing.operation = .addItems ∧ (machine.slot slot).kind = .set) :
    LeadsTo (bracketed env items closing) machine (machine.modifySlot slot (.extend items)) := by
  refine leadsTo_bracketed fun created => ?_
  let inside : Machine :=
    { machine with stack := items.reverse, saved := machine.stack :: machine.saved, created }
  have hsaved : inside.saved = (.ref slot :: below) :: machine.saved := by
    show machine.stack :: machine.saved = _
    rw [hstack]
  refine (step_extend hsaved hkind).trans ?_
  rw [List.reverse_reverse, ← hstack]
  rfl

theorem leadsTo_run_setItem
    (hkind : (machine.slot slot).kind = .dict ∨ (machine.slot slot).kind = .object)
    (key value : Cell) :
    LeadsTo (Batch.run env (.setItem key value)) machine
      (machine.modifySlot slot (.extendPairs [(key, value)])) := by
  refine (leadsTo_push key machine).bind fun _ => (leadsTo_push value _).bind fun _ =>
    leadsTo_perform fun created => ?_
  have hvalue : pop { machine with stack := value :: key :: machine.stack, created } =
      .ok value { machine with stack := key :: machine.stack, created } := rfl
  have hkey : pop { machine with stack := key :: machine.stack, created } =
      .ok key { machine with created } := rfl
  show step env .setItem .setItem _ = _
  rw [step, bind_of_eq_ok hvalue, bind_of_eq_ok hkey]
  rcases hkind with hkind | hkind
  all_goals
    obtain ⟨htop, hchange⟩ :=
      changeTop_of_kind hstack hkind (.extendPairs [(key, value)]) created
    rw [bind_of_eq_ok htop]
    exact bind_of_eq_ok hchange

theorem leadsTo_run_setItems
    (hkind : (machine.slot slot).kind = .dict ∨ (machine.slot slot).kind = .object)
    (pairs : List (Cell × Cell)) :
    LeadsTo (Batch.run env (.setItems pairs)) machine
      (machine.modifySlot slot (.extendPairs pairs)) := by
  refine leadsTo_bracketed fun created => ?_
  let inside : Machine := { machine with
    stack := (pairCells pairs).reverse, saved := machine.stack :: machine.saved, created }
  have hsaved : inside.saved = (.ref slot :: below) :: machine.saved := by
    show machine.stack :: machine.saved = _
    rw [hstack]
  have hpairs : pairUp inside.stack.reverse = some pairs := by
    rw [List.reverse_reverse, pairUp_pairCells]
  refine (step_setItems hsaved hpairs hkind).trans ?_
  rw [← hstack]
  rfl

theorem leadsTo_run_build
    (hkind : (machine.slot slot).kind = .dict ∨ (machine.slot slot).kind = .object)
    {state : Cell} {pairs : List (Cell × Cell)} (hstate : machine.Spells slot state pairs) :
    LeadsTo (Batch.run env (.build state)) machine
      (machine.modifySlot slot (.extendPairs pairs)) := by
  refine (leadsTo_push state machine).bind fun _ => leadsTo_perform fun created => ?_
  have hpop : pop { machine with stack := state :: machine.stack, created } =
      .ok state { machine with created } := rfl
  have hget : (get : Exec Machine) { machine with created } =
      .ok { machine with created } { machine with created } := rfl
  have hattributes : Machine.stateAttributes { machine with created } state = some pairs :=
    hstate.stateAttributes
  show step env .build .build _ = _
  rw [step, bind_of_eq_ok hpop, bind_of_eq_ok hget]
  dsimp only
  rw [hattributes]
  rcases hkind with hkind | hkind
  all_goals
    obtain ⟨htop, hchange⟩ := changeTop_of_kind hstack hkind (.extendPairs pairs) created
    rw [bind_of_eq_ok htop]
    exact bind_of_eq_ok hchange

end Batch

/-! ## All batches -/

/-- A batch and those that follow it add up. -/
theorem LeadsTo.fill_cons {batch : Batch} {batches : List Batch} {change next : Content → Content}
    (h : LeadsTo (batch.run env) machine (machine.modifySlot slot change))
    (hrest : ∀ created, LeadsTo (fill env batches)
      { machine.modifySlot slot change with created }
      ((machine.modifySlot slot change).modifySlot slot next)) :
    LeadsTo (fill env (batch :: batches)) machine (machine.modifySlot slot (next ∘ change)) := by
  rw [← modifySlot_modifySlot]
  exact h.bind hrest

theorem kind_modifySlot_extend (machine : Machine) (slot : ℕ) (cells : List Cell) :
    ((machine.modifySlot slot (.extend cells)).slot slot).kind = (machine.slot slot).kind := by
  rw [slot_modifySlot machine slot rfl]
  exact Content.kind_extend cells _

/-- A target that takes pairs goes on taking them. -/
theorem takesPairs_modifySlot (pairs : List (Cell × Cell))
    (hkind : (machine.slot slot).kind = .dict ∨ (machine.slot slot).kind = .object) :
    ((machine.modifySlot slot (.extendPairs pairs)).slot slot).kind = .dict ∨
      ((machine.modifySlot slot (.extendPairs pairs)).slot slot).kind = .object := by
  have hsame : ((machine.modifySlot slot (.extendPairs pairs)).slot slot).kind =
      (machine.slot slot).kind := by
    rw [slot_modifySlot machine slot rfl]
    exact Content.kind_extendPairs pairs _
  rwa [hsame]

/-- Items that are added in batches are added. -/
theorem leadsTo_fill_items {kind : Kind} {batches : List Batch} {items : List Cell}
    (h : AddsItems kind batches items) (hstack : machine.stack = .ref slot :: below)
    (hkind : (machine.slot slot).kind = kind) :
    LeadsTo (fill env batches) machine (machine.modifySlot slot (.extend items)) := by
  induction h generalizing machine with
  | nil kind =>
    rw [modifySlot_id _ _ Content.extend_nil]
    exact ⟨machine.created, rfl⟩
  | @append item batches items _ ih =>
    have hall : Content.extend (item :: items) = .extend items ∘ .extend [item] :=
      (Content.extend_append [item] items).symm
    rw [hall]
    refine LeadsTo.fill_cons (leadsTo_run_append hstack hkind item) fun created => ?_
    exact ih hstack ((kind_modifySlot_extend machine slot [item]).trans hkind)
  | appends more _ ih =>
    rw [← Content.extend_append]
    refine LeadsTo.fill_cons (leadsTo_extend hstack more (.inl ⟨rfl, hkind⟩)) fun created => ?_
    exact ih hstack ((kind_modifySlot_extend machine slot more).trans hkind)
  | addItems more _ ih =>
    rw [← Content.extend_append]
    refine LeadsTo.fill_cons (leadsTo_extend hstack more (.inr ⟨rfl, hkind⟩)) fun created => ?_
    exact ih hstack ((kind_modifySlot_extend machine slot more).trans hkind)

/-- Pairs that are added in batches are added.  What the states spell was found in a machine that
may differ in the target. -/
theorem leadsTo_fill_pairs {base : Machine} {batches : List Batch} {pairs : List (Cell × Cell)}
    (h : base.AddsPairs slot batches pairs)
    (hcontent : ∀ cell, cell ≠ .ref slot → machine.content cell = base.content cell)
    (hstack : machine.stack = .ref slot :: below)
    (hkind : (machine.slot slot).kind = .dict ∨ (machine.slot slot).kind = .object) :
    LeadsTo (fill env batches) machine (machine.modifySlot slot (.extendPairs pairs)) := by
  induction h generalizing machine with
  | nil =>
    rw [modifySlot_id _ _ Content.extendPairs_nil]
    exact ⟨machine.created, rfl⟩
  | @setItem key value batches pairs _ ih =>
    have hall : Content.extendPairs ((key, value) :: pairs) =
        .extendPairs pairs ∘ .extendPairs [(key, value)] :=
      (Content.extendPairs_append [(key, value)] pairs).symm
    rw [hall]
    refine LeadsTo.fill_cons (leadsTo_run_setItem hstack hkind key value) fun created => ?_
    exact ih (fun cell hne => (content_modifySlot rfl hne).trans (hcontent cell hne)) hstack
      (takesPairs_modifySlot [(key, value)] hkind)
  | setItems more _ ih =>
    rw [← Content.extendPairs_append]
    refine LeadsTo.fill_cons (leadsTo_run_setItems hstack hkind more) fun created => ?_
    exact ih (fun cell hne => (content_modifySlot rfl hne).trans (hcontent cell hne)) hstack
      (takesPairs_modifySlot more hkind)
  | @build state more batches pairs hstate _ ih =>
    have hnow : machine.Spells slot state more := hstate.of_content hcontent
    rw [← Content.extendPairs_append]
    refine LeadsTo.fill_cons (leadsTo_run_build hstack hkind hnow) fun created => ?_
    exact ih (fun cell hne => (content_modifySlot rfl hne).trans (hcontent cell hne)) hstack
      (takesPairs_modifySlot more hkind)

end Exec

namespace Machine

open Exec

variable {env : Environment}

/-- A container that starts empty and gets items is the container of these items. -/
theorem leadsTo_fill_empty_items {machine : Machine} {empty : Content} {making : Instruction}
    {batches : List Batch} {items : List Cell} (h : AddsItems empty.kind batches items)
    (hmaking : LeadsTo (perform env making) machine (machine.topped empty)) :
    LeadsTo (perform env making >>= fun _ => fill env batches) machine
      (machine.topped (empty.extend items)) := by
  rw [← modifySlot_topped]
  refine hmaking.bind fun created => leadsTo_fill_items h rfl ?_
  exact congrArg Content.kind (slot_topped machine empty)

/-- What comes of batches in a state of the machine, up to the count of what was created. -/
structure FillsAlike (env : Environment) (machine : Machine) : Prop where
  /-- A container on top of the stack gets the items, whatever the batches. -/
  items : ∀ slot below, machine.stack = .ref slot :: below → ∀ batches items,
    AddsItems (machine.slot slot).kind batches items →
      LeadsTo (fill env batches) machine (machine.modifySlot slot (.extend items))
  /-- A dict or an instance on top of the stack gets the pairs, whatever the batches. -/
  pairs : ∀ slot below, machine.stack = .ref slot :: below →
    (machine.slot slot).kind = .dict ∨ (machine.slot slot).kind = .object → ∀ batches pairs,
      machine.AddsPairs slot batches pairs →
        LeadsTo (fill env batches) machine (machine.modifySlot slot (.extendPairs pairs))
  /-- A state of two halves does what two states do one after the other. -/
  halves : ∀ slot below, machine.stack = .ref slot :: below →
    (machine.slot slot).kind = .dict ∨ (machine.slot slot).kind = .object →
      ∀ state left right first second pairs more, machine.content state = .tuple [left, right] →
        machine.SpellsHalf slot left pairs → machine.SpellsHalf slot right more →
        machine.Spells slot first pairs → machine.Spells slot second more →
          ∃ expected, LeadsTo (fill env [.build state]) machine expected ∧
            LeadsTo (fill env [.build first, .build second]) machine expected
  /-- A list is made of a bracket of its items. -/
  list : ∀ items, LeadsTo (bracketed env items ⟨.list, ()⟩) machine
    (machine.topped (.list items.toArray))
  /-- A list starts empty and gets its items in batches. -/
  filledList : ∀ items batches, AddsItems .list batches items →
    LeadsTo (perform env ⟨.emptyList, ()⟩ >>= fun _ => fill env batches) machine
      (machine.topped (.list items.toArray))
  /-- A dict is made of a bracket of its pairs. -/
  dict : ∀ pairs, LeadsTo (bracketed env (pairCells pairs) ⟨.dict, ()⟩) machine
    (machine.topped (.dict pairs.toArray))
  /-- A dict starts empty and gets its pairs in batches. -/
  filledDict : ∀ pairs batches, machine.AddsPairs machine.slots.size batches pairs →
    LeadsTo (perform env ⟨.emptyDict, ()⟩ >>= fun _ => fill env batches) machine
      (machine.topped (.dict pairs.toArray))
  /-- A set starts empty and gets its items in batches. -/
  filledSet : ∀ items batches, AddsItems .set batches items →
    LeadsTo (perform env ⟨.emptySet, ()⟩ >>= fun _ => fill env batches) machine
      (machine.topped (.set items.toArray))

theorem fillsAlike (env : Environment) (machine : Machine) : machine.FillsAlike env where
  items slot below hstack batches items h := leadsTo_fill_items h hstack rfl
  pairs slot below hstack hkind batches pairs h :=
    leadsTo_fill_pairs h (fun _ _ => rfl) hstack hkind
  halves slot below hstack hkind state left right first second pairs more hstate hleft hright
      hfirst hsecond := by
    -- The pair of halves is a tuple, so it is not the target that it is built into.
    have hne : state ≠ .ref slot := by
      rintro rfl
      rw [show machine.slot slot = _ from hstate] at hkind
      rcases hkind with hkind | hkind <;> cases hkind
    have hboth : machine.AddsPairs slot [.build state] ((pairs ++ more) ++ []) :=
      .build (.halves hne hstate hleft hright) .nil
    have heach : machine.AddsPairs slot [.build first, .build second] (pairs ++ (more ++ [])) :=
      .build hfirst (.build hsecond .nil)
    rw [← List.append_assoc] at heach
    exact ⟨_, leadsTo_fill_pairs hboth (fun _ _ => rfl) hstack hkind,
      leadsTo_fill_pairs heach (fun _ _ => rfl) hstack hkind⟩
  list items := by
    refine leadsTo_bracketed fun created => ?_
    refine (step_collect rfl (.inr (.inl ⟨rfl, rfl⟩))).trans ?_
    rw [List.reverse_reverse]
    rfl
  filledList items batches h := by
    have hitems : (Content.list #[]).extend items = .list items.toArray := by simp [Content.extend]
    rw [← hitems]
    exact leadsTo_fill_empty_items h (leadsTo_perform fun _ => rfl)
  dict pairs := by
    refine leadsTo_bracketed fun created => ?_
    exact step_collect_dict rfl (by rw [List.reverse_reverse, pairUp_pairCells])
  filledDict pairs batches h := by
    have hpairs : (Content.dict #[]).extendPairs pairs = .dict pairs.toArray := by
      simp [Content.extendPairs]
    rw [← hpairs, ← modifySlot_topped]
    have hmaking : LeadsTo (perform env ⟨.emptyDict, ()⟩) machine (machine.topped (.dict #[])) :=
      leadsTo_perform fun _ => rfl
    refine hmaking.bind fun created => ?_
    refine leadsTo_fill_pairs h (fun cell hne => content_topped hne) rfl (.inl ?_)
    exact congrArg Content.kind (slot_topped machine (.dict #[]))
  filledSet items batches h := by
    have hitems : (Content.set #[]).extend items = .set items.toArray := by simp [Content.extend]
    rw [← hitems]
    exact leadsTo_fill_empty_items h (leadsTo_perform fun _ => rfl)

/-- What was created shows only where a value has too many nodes. -/
theorem sameValue_of_created (machine : Machine) (created created' : ℕ) (cell : Cell) :
    SameValue { machine with created } cell { machine with created := created' } cell := by
  have hmirrors : ∀ fewer ≤ max created created', Machine.Mirrors True .ref ∅
      { machine with created := fewer } { machine with created := max created created' } :=
    fun fewer hle => { mirrors_refl machine with created := fun _ => hle }
  exact .of_mirrors (hmirrors created (le_max_left ..)) (hmirrors created' (le_max_right ..)) rfl

/-- Batches do not matter, in any state of the machine.

A container on top of the stack to which items are added gets just these items, in their order, in
whatever batches they come; and a dict or an instance gets just the pairs that are added, be it one
at a time, in brackets, or by states that spell them.  In particular a state of two halves is as good
as two states one after the other.  So a list or a dict that is made of a bracket is the same as one
that starts empty and is filled in batches, and a set that is filled in batches depends on its items
alone.

Each time the machines are the same when all is done, but for the count of what was created; and
however much was created, every cell stands for the same trees, and for the same value or the same
failure unless there are too many nodes. -/
theorem batches_equivalent (env : Environment) (machine : Machine) :
    machine.FillsAlike env ∧
      ∀ (after : Machine) (created created' : ℕ) (cell : Cell),
        SameValue { after with created } cell { after with created := created' } cell :=
  ⟨fillsAlike env machine, sameValue_of_created⟩

/-- An instance that gets a pair of a state with `None` as its second half and then another pair with
the same key, or both in one bracket. -/
theorem batches_equivalent_instance :
    let env := ({} : Options).environment
    let key : Cell := .atom (.scalar (.str "a"))
    let yes : Cell := .atom (.scalar (.bool true))
    let no : Cell := .atom (.scalar (.bool false))
    let machine : Machine := { initial none with
      stack := [.ref 0]
      slots := #[.object (.fresh ⟨"m", "C"⟩ [] []), .dict #[(key, yes)],
        .tuple [.ref 1, .atom (.scalar .none)]] }
    machine.AddsPairs 0 [.build (.ref 2), .setItem key no] [(key, yes), (key, no)] ∧
      machine.AddsPairs 0 [.setItems [(key, yes), (key, no)]] [(key, yes), (key, no)] ∧
      ∃ (expected : Machine) (created created' : ℕ),
        fill env [.build (.ref 2), .setItem key no] machine = .ok () { expected with created } ∧
        fill env [.setItems [(key, yes), (key, no)]] machine =
          .ok () { expected with created := created' } ∧
        SameValue { expected with created } (.ref 0) { expected with created := created' }
          (.ref 0) := by
  intro env key yes no machine
  have hstate : machine.Spells 0 (.ref 2) ([(key, yes)] ++ []) :=
    .halves (by simp) rfl (.dict (by simp) rfl) (.none (by simp) rfl)
  have hapart : machine.AddsPairs 0 [.build (.ref 2), .setItem key no] [(key, yes), (key, no)] :=
    .build hstate (.setItem key no .nil)
  have htogether :
      machine.AddsPairs 0 [.setItems [(key, yes), (key, no)]] [(key, yes), (key, no)] :=
    .setItems [(key, yes), (key, no)] .nil
  obtain ⟨hfills, hsame⟩ := batches_equivalent env machine
  obtain ⟨created, hfirst⟩ := hfills.pairs 0 [] rfl (.inr rfl) _ _ hapart
  obtain ⟨created', hsecond⟩ := hfills.pairs 0 [] rfl (.inr rfl) _ _ htogether
  exact ⟨hapart, htogether, _, created, created', hfirst, hsecond, hsame _ _ _ _⟩

end Machine

end Pickle
