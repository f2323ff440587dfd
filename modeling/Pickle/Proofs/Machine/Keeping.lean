import Pickle.Proofs.Machine.Allocation

/-!
# What stands apart from the stack

Most instructions work on the stack, the memo, the slots and the buffers, and take one more slot at
most.  Two parts of the machine stand apart from these: the stacks that marks have set aside, which
only brackets change, and the count of what was created, which only values of the host change once an
instruction has been counted.

`Exec.Keeps` says that an action keeps up a relation between machines that has to do with these two
parts and the number of slots alone, however it ends; `keeps_step` that all plain operations keep up
every such relation.  So whoever follows such a relation through a run has to look at the other
operations alone.
-/

namespace Pickle

/-- Whether a relation, which may allow for some new slots, demands no more than that the stacks set
aside and the count stay the same and that there are no more new slots than allowed for. -/
class Machine.IsApart (relation : ℕ → Machine → Machine → Prop) : Prop where
  of_eq : ∀ {debt : ℕ} {before after : Machine}, after.saved = before.saved →
    after.created = before.created → after.slots.size ≤ before.slots.size + debt →
      relation debt before after
  trans : ∀ {debt more : ℕ} {before middle after : Machine}, relation debt before middle →
    relation more middle after → relation (debt + more) before after

namespace Exec

variable {α β : Type} {relation : ℕ → Machine → Machine → Prop} [Machine.IsApart relation]

/-- Whether an action keeps up a relation to the machine before it, however it ends. -/
def Keeps (relation : ℕ → Machine → Machine → Prop) (debt : ℕ) (action : Exec α) : Prop :=
  ∀ machine, Ends (action machine) (fun _ after => relation debt machine after)
    (relation debt machine)

theorem keeps_refl (debt : ℕ) (machine : Machine) : relation debt machine machine :=
  Machine.IsApart.of_eq rfl rfl (Nat.le_add_right _ _)

namespace Keeps

variable {debt more : ℕ}

theorem pure (value : α) : Keeps relation debt (Pure.pure value) :=
  fun machine => keeps_refl debt machine

theorem fail (failure : Failure) : Keeps relation debt (Exec.fail failure : Exec α) :=
  fun machine => keeps_refl debt machine

theorem ofExcept (result : Except Error α) : Keeps relation debt (Exec.ofExcept result) := by
  cases result with
  | ok value => exact pure value
  | error error => exact fun machine => keeps_refl debt machine

/-- The new slots of two stretches add up. -/
theorem bind {action : Exec α} {next : α → Exec β} (first : Keeps relation debt action)
    (second : ∀ value, Keeps relation more (next value)) :
    Keeps relation (debt + more) (action >>= next) := by
  refine fun machine => ((first machine).imp ?_ fun middle hfirst => ?_).bind
  · intro value middle hfirst
    exact (second value middle).imp (fun _ _ h => Machine.IsApart.trans hfirst h)
      fun _ h => Machine.IsApart.trans hfirst h
  · exact Machine.IsApart.trans hfirst (keeps_refl more middle)

/-- What takes no slot may stand in front of anything else. -/
theorem bind_free {action : Exec α} {next : α → Exec β} (first : Keeps relation 0 action)
    (second : ∀ value, Keeps relation more (next value)) :
    Keeps relation more (action >>= next) := by
  simpa using first.bind second

/-- What takes no slot may stand behind anything else. -/
theorem then_free {action : Exec α} {next : α → Exec β} (first : Keeps relation debt action)
    (second : ∀ value, Keeps relation 0 (next value)) :
    Keeps relation debt (action >>= next) := first.bind second

theorem then_running {action : Exec Unit} (h : Keeps relation debt action) :
    Keeps relation debt (action >>= fun _ => Pure.pure Status.running) :=
  h.then_free fun _ => pure _

theorem mapM {γ : Type} {action : γ → Exec α} (h : ∀ item, Keeps relation 0 (action item))
    (items : List γ) : Keeps relation 0 (items.mapM action) := by
  induction items with
  | nil => exact pure []
  | cons item rest ih =>
    rw [List.mapM_cons]
    exact (h item).bind_free fun value => ih.bind_free fun values => pure _

theorem get : Keeps relation 0 (MonadStateOf.get : Exec Machine) :=
  fun machine => keeps_refl 0 machine

theorem content (cell : Cell) : Keeps relation 0 (Exec.content cell) :=
  fun machine => keeps_refl 0 machine

theorem kind (cell : Cell) : Keeps relation 0 (Exec.kind cell) :=
  fun machine => keeps_refl 0 machine

theorem topKind : Keeps relation 0 Exec.topKind := by
  intro machine
  unfold Exec.topKind
  split
  · exact keeps_refl 0 machine
  · exact keeps_refl 0 machine

theorem value (cell : Cell) : Keeps relation 0 (Exec.value cell) := by
  intro machine
  unfold Exec.value
  split
  · exact keeps_refl 0 machine
  · exact keeps_refl 0 machine

theorem push (cell : Cell) : Keeps relation 0 (Exec.push cell) :=
  fun _ => Machine.IsApart.of_eq rfl rfl le_rfl

theorem pop : Keeps relation 0 Exec.pop := by
  intro machine
  unfold Exec.pop
  split
  · exact Machine.IsApart.of_eq rfl rfl le_rfl
  · exact keeps_refl 0 machine

theorem popMany (number : ℕ) : Keeps relation 0 (Exec.popMany number) := by
  induction number with
  | zero => exact pure []
  | succ number ih => exact pop.bind_free fun last => ih.bind_free fun cells => pure _

theorem alloc (content : Content) : Keeps relation 1 (Exec.alloc content) :=
  fun _ => Machine.IsApart.of_eq rfl rfl (Array.size_push content).le

theorem pushNew (content : Content) : Keeps relation 1 (Exec.pushNew content) :=
  (alloc content).then_free push

theorem changeTop (change : Content → Content) : Keeps relation 0 (Exec.changeTop change) := by
  intro machine
  unfold Exec.changeTop
  split
  · exact Machine.IsApart.of_eq rfl rfl Array.size_modify.le
  · split
    · exact Machine.IsApart.of_eq rfl rfl le_rfl
    · exact keeps_refl 0 machine
  · exact keeps_refl 0 machine

theorem shareTop : Keeps relation 1 Exec.shareTop := by
  intro machine
  unfold Exec.shareTop
  split
  · exact keeps_refl 1 machine
  · exact Machine.IsApart.of_eq rfl rfl (Array.size_push _).le
  · exact keeps_refl 1 machine

theorem fetch (index : ℕ) : Keeps relation 0 (Exec.fetch index) := by
  refine get.bind_free fun machine => ?_
  split
  · exact push _
  · exact fail _

theorem memoize (index : ℕ) : Keeps relation 1 (Exec.memoize index) :=
  shareTop.then_free fun _ _ => Machine.IsApart.of_eq rfl rfl le_rfl

theorem popText : Keeps relation 0 Exec.popText := by
  refine pop.bind_free fun cell => (content cell).bind_free fun content => ?_
  split
  · exact pure _
  · exact fail _

theorem popArguments : Keeps relation 0 Exec.popArguments := by
  refine pop.bind_free fun cell => (content cell).bind_free fun content => ?_
  split
  · exact pure _
  · exact fail _

theorem popKeywords : Keeps relation 0 Exec.popKeywords := by
  refine pop.bind_free fun cell => (content cell).bind_free fun content => ?_
  split
  · exact get.bind_free fun machine => ofExcept _
  · exact pure _
  · exact fail _

end Keeps

end Exec

/-! ## Plain operations -/

/-- Whether an operation has to do with neither marks nor values of the host. -/
def Operation.IsPlain : Operation → Prop
  | .stop | .skip | .dup | .fetch _ | .memoize _ | .push _ | .pushString _ | .tupleOf _ |
    .pushEmpty _ | .append | .setItem | .build | .nextBuffer | .makeReadonly => True
  | _ => False

namespace Exec

variable {relation : ℕ → Machine → Machine → Prop} [Machine.IsApart relation]

/-- A plain operation takes one new slot at most, and keeps all that stands apart. -/
theorem keeps_step (env : Environment) (opcode : Opcode) {operation : Operation}
    (h : operation.IsPlain) : Keeps relation 1 (step env opcode operation) := by
  cases operation with
  | stop => exact Keeps.pop.bind_free fun cell => (Keeps.value cell).bind_free fun _ => .pure _
  | skip => exact .pure _
  | dup => exact Keeps.shareTop.then_free fun slot => (Keeps.push _).then_running
  | fetch index => exact (Keeps.fetch index).bind_free fun _ => .pure _
  | memoize index =>
    cases index with
    | some index => exact (Keeps.memoize index).then_running
    | none => exact Keeps.get.bind_free fun machine => (Keeps.memoize _).then_running
  | push value => exact (Keeps.push _).bind_free fun _ => .pure _
  | pushString value =>
    simp only [step]
    split
    · split
      · exact (Keeps.push _).bind_free fun _ => .pure _
      · exact (Keeps.fail _).bind_free fun _ => .pure _
    · exact (Keeps.push _).bind_free fun _ => .pure _
  | tupleOf number =>
    exact (Keeps.popMany number).bind_free fun cells => (Keeps.pushNew _).then_running
  | pushEmpty container => cases container <;> exact (Keeps.pushNew _).then_running
  | append =>
    refine Keeps.pop.bind_free fun cell => Keeps.topKind.bind_free fun kind => ?_
    split
    · exact (Keeps.changeTop _).bind_free fun _ => .pure _
    · exact (Keeps.kind cell).bind_free fun _ => Keeps.then_running (.fail _)
  | setItem =>
    refine Keeps.pop.bind_free fun value => Keeps.pop.bind_free fun key =>
      Keeps.topKind.bind_free fun kind => ?_
    split
    · exact (Keeps.changeTop _).bind_free fun _ => .pure _
    · exact (Keeps.changeTop _).bind_free fun _ => .pure _
    · exact (Keeps.kind key).bind_free fun _ => Keeps.then_running (.fail _)
  | build =>
    refine Keeps.pop.bind_free fun state => Keeps.get.bind_free fun machine =>
      Keeps.topKind.bind_free fun kind => ?_
    split
    · exact (Keeps.changeTop _).bind_free fun _ => .pure _
    · exact (Keeps.changeTop _).bind_free fun _ => .pure _
    · exact (Keeps.changeTop _).bind_free fun _ => .pure _
    · exact (Keeps.kind state).bind_free fun _ => Keeps.then_running (.fail _)
  | nextBuffer =>
    refine Keeps.get.bind_free fun machine => ?_
    split
    · exact Keeps.then_running (.fail _)
    · exact Keeps.then_running (.fail _)
    · -- None of the relations is about the buffers.
      have hbuffers : ∀ rest, Keeps relation 0
          (modify fun machine : Machine => { machine with buffers := some rest } : Exec Unit) :=
        fun rest machine => Machine.IsApart.of_eq rfl rfl le_rfl
      exact (hbuffers _).bind_free fun _ => (Keeps.push _).bind_free fun _ => .pure _
  | makeReadonly =>
    refine Keeps.topKind.bind_free fun kind => ?_
    split
    · exact (Keeps.changeTop _).bind_free fun _ => .pure _
    · exact .pure _
    · exact Keeps.then_running (.fail _)
  | _ => exact h.elim

end Exec

end Pickle
