import Pickle.Proofs.Machine.Brackets

/-!
# Sequences of instructions as actions

A short sequence of instructions that belong together, such as a bracket with the cells in it, is an
action of the machine, in which pushing a cell stands for the instructions that make it.  What such
an action leads to is put together from what its instructions lead to.  The number of things that
were created on the way is left open: nothing but the budget of conversions depends on it.
-/

namespace Pickle

namespace Exec

variable (env : Environment)

/-- Carries out an instruction after which the machine goes on. -/
def perform (instruction : Instruction) : Exec Unit := do
  let _ ← execute env instruction

/-- Pushes cells behind a mark, and closes the bracket with an instruction. -/
def bracketed (cells : List Cell) (closing : Instruction) : Exec Unit := do
  perform env ⟨.mark, ()⟩
  cells.forM push
  perform env closing

end Exec

namespace Exec

open Machine

/-- Whether an action succeeds and leaves a machine as it is expected, but for the count of what was
created. -/
def LeadsTo (action : Exec Unit) (machine expected : Machine) : Prop :=
  ∃ created, action machine = .ok () { expected with created }

variable {env : Environment} {machine middle expected : Machine}

theorem LeadsTo.bind {action : Exec Unit} {next : Unit → Exec Unit}
    (h : LeadsTo action machine middle)
    (hnext : ∀ created, LeadsTo (next ()) { middle with created } expected) :
    LeadsTo (action >>= next) machine expected := by
  obtain ⟨created, haction⟩ := h
  obtain ⟨more, hmore⟩ := hnext created
  exact ⟨more, (bind_of_eq_ok haction).trans hmore⟩

theorem leadsTo_push (cell : Cell) (machine : Machine) :
    LeadsTo (push cell) machine { machine with stack := cell :: machine.stack } :=
  ⟨machine.created, rfl⟩

theorem leadsTo_forM_push (cells : List Cell) (machine : Machine) :
    LeadsTo (cells.forM push) machine
      { machine with stack := cells.reverse ++ machine.stack } := by
  induction cells generalizing machine with
  | nil => exact ⟨machine.created, rfl⟩
  | cons cell rest ih =>
    rw [List.reverse_cons, List.append_assoc]
    exact (leadsTo_push cell machine).bind fun created => ih _

theorem leadsTo_perform {instruction : Instruction}
    (h : ∀ created, step env instruction.opcode instruction.operation { machine with created } =
      .ok .running { expected with created }) :
    LeadsTo (perform env instruction) machine expected :=
  ⟨_, bind_of_eq_ok (execute_of_step env instruction (h _))⟩

theorem leadsTo_mark (env : Environment) (machine : Machine) :
    LeadsTo (perform env ⟨.mark, ()⟩) machine
      { machine with stack := [], saved := machine.stack :: machine.saved } :=
  leadsTo_perform fun _ => rfl

/-- A bracket is closed on just the cells pushed in it. -/
theorem leadsTo_bracketed {cells : List Cell} {closing : Instruction}
    (h : ∀ created, step env closing.opcode closing.operation { machine with
        stack := cells.reverse, saved := machine.stack :: machine.saved, created } =
      .ok .running { expected with created }) :
    LeadsTo (bracketed env cells closing) machine expected := by
  refine (leadsTo_mark env machine).bind fun _ => (leadsTo_forM_push cells _).bind fun _ =>
    leadsTo_perform fun _ => ?_
  rw [← h, List.append_nil]

end Exec

end Pickle
