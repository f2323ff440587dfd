import Pickle.Proofs.Machine.Accounting
import Pickle.Proofs.Machine.Standing

/-!
# Copies of the values of the host

A value of the host, be it from a table, of a call or of the loader, is taken apart into slots, and
what leaves the machine is put together again from slots.  The one undoes the other: the cell of a
value that was taken apart stands for the value (`builds_embedAt`).  The induction is on the value,
and what it carries along is that the slots of parts before stay what they are when more slots are
added.

`Machine.IsCopy` is what the rest of a run can rely on.  Budget and levels do not come into it: every
node was counted, and so the budget is large enough (`depth_le_of_embed`), and what is too deep to
be converted is too deep to be taken apart.  `pushes_step` finds the operations that push such a
copy, and `copies_isolated` puts this together.
-/

namespace Pickle

namespace Exec

open Machine (Stands PairStands KeywordStands)

variable {α β : Type} {slots : Array Content} {good : Array Content → α → Prop}
  {fine : Array Content → β → Prop}

/-! ## What is built -/

/-- Whether an action that starts with some slots, if it succeeds, adds slots and changes none.  Its
result is good for the slots in the end. -/
def Builds (slots : Array Content) (action : Exec α) (good : Array Content → α → Prop) : Prop :=
  ∀ machine, machine.slots = slots →
    Ends (action machine)
      (fun value after => ∃ others, after.slots = slots ++ others ∧ good (slots ++ others) value)
      fun _ => True

namespace Builds

theorem pure {value : α} (h : good slots value) : Builds slots (Pure.pure value) good :=
  fun _ hslots => ⟨#[], by rw [Array.append_empty]; exact hslots, by rwa [Array.append_empty]⟩

theorem alloc {content : Content} {good : Array Content → Cell → Prop}
    (h : good (slots.push content) (.ref slots.size)) : Builds slots (Exec.alloc content) good := by
  rintro machine rfl
  exact ⟨#[content], Array.append_singleton.symm, by rwa [Array.append_singleton]⟩

theorem bind {action : Exec α} {next : α → Exec β} (h : Builds slots action good)
    (hnext : ∀ others value, good (slots ++ others) value →
      Builds (slots ++ others) (next value) fine) : Builds slots (action >>= next) fine := by
  refine fun machine hslots => ((h machine hslots).imp ?_ fun _ h => h).bind
  rintro value middle ⟨others, hmiddle, hgood⟩
  refine (hnext others value hgood middle hmiddle).imp ?_ fun _ h => h
  rintro result after ⟨more, hafter, hfine⟩
  rw [Array.append_assoc] at hafter hfine
  exact ⟨others ++ more, hafter, hfine⟩

/-- To count a node has nothing to do with slots. -/
theorem enter_bind {levels : ℕ} {next : ℕ → Exec β}
    (h : ∀ levels, Builds slots (next levels) fine) :
    Builds slots (enter levels >>= next) fine := by
  intro machine hslots
  cases levels with
  | zero => trivial
  | succ levels => exact h levels { machine with created := machine.created + 1 } hslots

end Builds

theorem forall₂_push {γ δ : Type} {relation : γ → δ → Prop} {cells : Array γ} {values : List δ}
    {cell : γ} {value : δ} (h : List.Forall₂ relation cells.toList values)
    (hlast : relation cell value) :
    List.Forall₂ relation (cells.push cell).toList (values ++ [value]) := by
  rw [Array.toList_push]
  exact List.rel_append h (.cons hlast .nil)

/-! ## What is taken apart -/

variable {low : ℕ}

theorem le_size_append (hlow : low ≤ slots.size) (others : Array Content) :
    low ≤ (slots ++ others).size := by
  rw [Array.size_append]
  omega

mutual

theorem builds_embedKey {slots : Array Content} (levels : ℕ) (hlow : low ≤ slots.size) :
    (key : Key) → key.IsSorted → Builds slots (embedKey levels key) (Stands low · · key.toValue)
  | .scalar value, _ => by
    rw [embedKey]
    exact .enter_bind fun _ => .pure (.atom (.scalar value))
  | .tuple items, h => by
    rw [embedKey]
    refine .enter_bind fun levels => (builds_embedKeys levels #[] [] hlow .nil items h).bind ?_
    intro others cells hcells
    exact .alloc (.tuple hcells (le_size_append hlow _))
  | .frozenSet items, h => by
    rw [embedKey]
    refine .enter_bind fun levels => (builds_embedKeys levels #[] [] hlow .nil items h.2).bind ?_
    intro others cells hcells
    exact .alloc (.frozenSet hcells h.1 (le_size_append hlow _))

/-- The cells of keys stand for them, after cells that stand for other values. -/
theorem builds_embedKeys {slots : Array Content} (levels : ℕ) (cells : Array Cell)
    (values : List Value) (hlow : low ≤ slots.size)
    (hcells : List.Forall₂ (Stands low slots) cells.toList values) :
    (items : List Key) → Key.AllSorted items →
      Builds slots (embedKeys levels cells items) fun slots cells =>
        List.Forall₂ (Stands low slots) cells.toList (values ++ Key.toValues items)
  | [], _ => by
    rw [embedKeys, Key.toValues, List.append_nil]
    exact .pure hcells
  | item :: rest, h => by
    rw [embedKeys, Key.toValues, List.append_cons]
    refine (builds_embedKey levels hlow item h.1).bind fun others cell hcell => ?_
    refine builds_embedKeys levels (cells.push cell) _ (le_size_append hlow _) ?_ rest h.2
    exact forall₂_push (hcells.imp fun _ _ h => h.append others) hcell

end

mutual

theorem builds_embedAt {slots : Array Content} (levels : ℕ) (hlow : low ≤ slots.size) :
    (value : Value) → value.IsSorted → Builds slots (embedAt levels value) (Stands low · · value)
  | .atom value, _ => by
    rw [embedAt]
    exact .enter_bind fun _ => .pure (.atom value)
  | .list items, h => by
    rw [embedAt]
    refine .enter_bind fun levels => (builds_embedAll levels #[] [] hlow .nil items h).bind ?_
    intro others cells hcells
    exact .alloc (.list hcells (le_size_append hlow _))
  | .tuple items, h => by
    rw [embedAt]
    refine .enter_bind fun levels => (builds_embedAll levels #[] [] hlow .nil items h).bind ?_
    intro others cells hcells
    exact .alloc (.tuple hcells (le_size_append hlow _))
  | .set items, h => by
    rw [embedAt]
    refine .enter_bind fun levels => (builds_embedKeys levels #[] [] hlow .nil items h.2).bind ?_
    intro others cells hcells
    exact .alloc (.set hcells h.1 (le_size_append hlow _))
  | .frozenSet items, h => by
    rw [embedAt]
    refine .enter_bind fun levels => (builds_embedKeys levels #[] [] hlow .nil items h.2).bind ?_
    intro others cells hcells
    exact .alloc (.frozenSet hcells h.1 (le_size_append hlow _))
  | .dict pairs, h => by
    rw [embedAt]
    refine .enter_bind fun levels => (builds_embedPairs levels #[] [] hlow .nil pairs h.2).bind ?_
    intro others cells hcells
    exact .alloc (.dict hcells h.1 (le_size_append hlow _))
  | .object ⟨className, args, kwargs, attributes, state⟩, h => by
    obtain ⟨hargs, ⟨hnames, hkwargs⟩, ⟨hsorted, hattributes⟩, hstate⟩ := h
    rw [embedAt]
    refine .enter_bind fun levels => ?_
    refine (builds_embedAll levels #[] [] hlow .nil args hargs).bind fun first args hargs => ?_
    have hlow₁ := le_size_append hlow first
    refine (builds_embedKeywords levels #[] [] hlow₁ .nil kwargs hkwargs).bind
      fun second kwargs hkwargs => ?_
    have hlow₂ := le_size_append hlow₁ second
    refine (builds_embedPairs levels #[] [] hlow₂ .nil attributes hattributes).bind
      fun third attributes hattributes => ?_
    have hlow₃ := le_size_append hlow₂ third
    refine (builds_embedState levels hlow₃ state hstate).bind fun fourth state hstate => ?_
    refine .alloc (.object className ?_ ?_ hnames ?_ hsorted hstate
      (le_size_append hlow₃ fourth))
    · -- What stands in the slots of one part stands there still when later parts are added.
      exact hargs.imp fun _ _ h => ((h.append second).append third).append fourth
    · exact hkwargs.imp fun _ _ h => (h.append third).append fourth
    · exact hattributes.imp fun _ _ h => h.append fourth

theorem builds_embedAll {slots : Array Content} (levels : ℕ) (cells : Array Cell)
    (values : List Value) (hlow : low ≤ slots.size)
    (hcells : List.Forall₂ (Stands low slots) cells.toList values) :
    (items : List Value) → Value.AllSorted items →
      Builds slots (embedAll levels cells items) fun slots cells =>
        List.Forall₂ (Stands low slots) cells.toList (values ++ items)
  | [], _ => by
    rw [embedAll, List.append_nil]
    exact .pure hcells
  | item :: rest, h => by
    rw [embedAll, List.append_cons]
    refine (builds_embedAt levels hlow item h.1).bind fun others cell hcell => ?_
    refine builds_embedAll levels (cells.push cell) _ (le_size_append hlow _) ?_ rest h.2
    exact forall₂_push (hcells.imp fun _ _ h => h.append others) hcell

theorem builds_embedPairs {slots : Array Content} (levels : ℕ) (cells : Array (Cell × Cell))
    (entries : List (Key × Value)) (hlow : low ≤ slots.size)
    (hcells : List.Forall₂ (PairStands low slots) cells.toList entries) :
    (pairs : List (Key × Value)) → Value.PairsSorted pairs →
      Builds slots (embedPairs levels cells pairs) fun slots cells =>
        List.Forall₂ (PairStands low slots) cells.toList (entries ++ pairs)
  | [], _ => by
    rw [embedPairs, List.append_nil]
    exact .pure hcells
  | (key, value) :: rest, h => by
    rw [embedPairs, List.append_cons]
    refine (builds_embedKey levels hlow key h.1.1).bind fun first keyCell hkey => ?_
    have hlow₁ := le_size_append hlow first
    refine (builds_embedAt levels hlow₁ value h.1.2).bind fun second cell hvalue => ?_
    refine builds_embedPairs levels (cells.push (keyCell, cell)) _ (le_size_append hlow₁ second) ?_
      rest h.2
    exact forall₂_push (hcells.imp fun _ _ h => (h.append first).append second)
      ⟨hkey.append second, hvalue⟩

theorem builds_embedKeywords {slots : Array Content} (levels : ℕ) (cells : Array (String × Cell))
    (arguments : List (String × Value)) (hlow : low ≤ slots.size)
    (hcells : List.Forall₂ (KeywordStands low slots) cells.toList arguments) :
    (kwargs : List (String × Value)) → Value.KeywordsSorted kwargs →
      Builds slots (embedKeywords levels cells kwargs) fun slots cells =>
        List.Forall₂ (KeywordStands low slots) cells.toList (arguments ++ kwargs)
  | [], _ => by
    rw [embedKeywords, List.append_nil]
    exact .pure hcells
  | (name, value) :: rest, h => by
    rw [embedKeywords, List.append_cons]
    refine (builds_embedAt levels hlow value h.1).bind fun others cell hvalue => ?_
    refine builds_embedKeywords levels (cells.push (name, cell)) _
      (le_size_append hlow _) ?_ rest h.2
    exact forall₂_push (hcells.imp fun _ _ h => h.append others) ⟨rfl, hvalue⟩

theorem builds_embedState {slots : Array Content} (levels : ℕ) (hlow : low ≤ slots.size) :
    (state : Option Value) → Value.StateSorted state →
      Builds slots (embedState levels state) fun slots cell =>
        Option.Rel (Stands low slots) cell state
  | none, _ => by
    rw [embedState]
    exact .pure .none
  | some value, h => by
    rw [embedState]
    exact (builds_embedAt levels hlow value h).bind fun others cell hcell => .pure (.some hcell)

end

/-- The cell of a value that was taken apart stands for the value. -/
theorem stands_of_embed {value : Value} {machine after : Machine} {cell : Cell}
    (hlow : low ≤ machine.slots.size) (hvalue : value.IsSorted)
    (h : embed value machine = .ok cell after) : Stands low after.slots cell value := by
  have hbuilds : Builds machine.slots (embed value) (Stands low · · value) :=
    builds_embedAt maxDepth hlow value hvalue
  have hends := hbuilds machine rfl
  rw [h] at hends
  obtain ⟨others, hslots, hstands⟩ := hends
  rwa [← hslots] at hstands

/-- A value of the host can be taken apart anywhere or nowhere: in the former case no node has too
many containers around it. -/
theorem exists_embed_iff (value : Value) (machine : Machine) :
    (∃ cell after, embed value machine = .ok cell after) ↔
      ∀ mark ∈ value.enclosures 0, mark < maxDepth := by
  have hends := visits_embed value machine
  cases hresult : embed value machine with
  | ok cell after =>
    rw [hresult] at hends
    exact iff_of_true ⟨cell, after, rfl⟩ hends.1
  | error error after =>
    rw [hresult] at hends
    refine iff_of_false ?_ hends.1
    rintro ⟨cell, other, ⟨⟩⟩

/-- A value that is not too deep can be taken apart. -/
theorem exists_embed_of_depth_lt {value : Value} (h : value.depth < maxDepth) (machine : Machine) :
    ∃ cell after, embed value machine = .ok cell after := by
  refine (exists_embed_iff value machine).2 fun mark hmark => ?_
  have := (value.marks 0).le mark hmark
  omega

/-- What was taken apart is not too deep, and was counted as a whole. -/
theorem depth_le_of_embed {value : Value} {machine after : Machine} {cell : Cell}
    (h : embed value machine = .ok cell after) :
    value.depth ≤ maxDepth ∧ after.created = machine.created + value.nodes := by
  have hmarks := value.marks 0
  have hends := visits_embed value machine
  rw [h] at hends
  obtain ⟨hall, hcreated⟩ := hends
  have hdepth := hmarks.depth_le maxDepth hall (Nat.zero_le _)
  rw [hmarks.length] at hcreated
  exact ⟨by omega, hcreated⟩

end Exec

/-! ## Copies -/

namespace Machine

/-- How a machine gets a copy of a value of the host.  There are new slots, and the count is larger,
but everything else stays as it is, and every slot.  The copy consists of new slots alone.  As long
as they hold what they hold now, it is converted to the value, and inside of other containers it
fails at most for the want of levels or budget. -/
structure IsCopy (before after : Machine) (cell : Cell) (value : Value) : Prop where
  grows : ∃ new created, after = { before with slots := before.slots ++ new, created }
  stands : Stands before.slots.size after.slots cell value
  value_eq : ∀ later : Machine, later.HasFrom before.slots.size after.slots →
    after.created ≤ later.created → later.value cell = .ok value

variable {before after machine : Machine} {cell : Cell} {value : Value}

theorem isCopy_of_embed (hvalue : value.IsSorted)
    (h : Exec.embed value machine = .ok cell after) : machine.IsCopy after cell value := by
  have hgrows := Exec.allocates_embed 0 value machine (Nat.zero_le _)
  rw [h] at hgrows
  obtain ⟨⟨new, created, hafter, -⟩, -⟩ := hgrows
  have hstands := Exec.stands_of_embed le_rfl hvalue h
  obtain ⟨hdepth, hcreated⟩ := Exec.depth_le_of_embed h
  refine ⟨⟨new, created, hafter⟩, hstands, fun later hhas hle => ?_⟩
  refine hstands.value_eq_ok hhas hdepth ?_
  simp only [nodeLimit, nodeFactor]
  omega

namespace IsCopy

theorem value_eq_ok (h : before.IsCopy after cell value) : after.value cell = .ok value :=
  h.value_eq after (.refl _ _) le_rfl

/-- What was there does not lead into the copy. -/
theorem lt_of_reaches (h : before.IsCopy after cell value) (hbefore : before.WellFormed)
    {other : Cell} {slot : ℕ} (hother : before.Holds other) (hreach : after.Reaches other slot) :
    slot < before.slots.size := by
  obtain ⟨new, created, rfl⟩ := h.grows
  have hbelow := hbefore.isBelow hother
  clear hother
  induction hreach with
  | slot index => exact hbelow
  | @inside index target inner held _ ih =>
    refine ih (hbefore.content (.ref index) inner ?_)
    rw [slot_eq, Array.getElem?_append_left hbelow, ← slot_eq] at held
    exact held

/-- The copy keeps its value through all programs that change none of its slots. -/
theorem value_after (h : before.IsCopy after cell value) (env : Environment)
    {program : List Instruction}
    (hkept : ∀ slot, before.slots.size ≤ slot → slot < after.slots.size →
      after.mutationsOf env slot program = []) :
    (after.after env program).value cell = .ok value := by
  refine h.value_eq _ (fun slot hlow hslot => ?_) ?_
  · obtain ⟨hslots, hsize⟩ := slot_after env hslot program
    rw [hkept slot hlow hslot] at hslots
    rw [getElem?_slots hsize, hslots.eq_of_nil, getElem?_slots hslot]
  · rw [(accounts_after env after program).created]
    omega

end IsCopy

end Machine

/-! ## Instructions that push copies -/

/-- Whether an operation pushes a value that a table has under a name or a code. -/
def Operation.LooksUp : Operation → Prop
  | .constant _ | .stackConstant | .extension _ => True
  | _ => False

namespace Exec

variable {α : Type} {values : Machine → List Value} {later : α → Machine → List Value}
  (env : Environment)

/-- The values of the host of which an operation pushes copies: those that it takes apart, except
for a constant that it calls. -/
def pushed : Operation → Machine → List Value
  | .applyConstant name =>
    follow popMark fun args => follow (constant env name) fun callee =>
      callImports env callee args []
  | operation => imports env operation

/-- Whether an action that comes across a single value of the host pushes a copy of it, and leaves
the memo and all slots before as they are. -/
def Pushes (values : Machine → List Value) (action : Exec Status) : Prop :=
  ∀ machine value status after, values machine = [value] → action machine = .ok status after →
    ∃ below cell copied, machine.MutatesTo none none below ∧ embed value below = .ok cell copied ∧
      after = { copied with stack := cell :: copied.stack }

namespace Pushes

theorem nothing (action : Exec Status) : Pushes (fun _ => []) action := by
  rintro machine value status after ⟨⟩

theorem embed (value : Value) :
    Pushes (fun _ => [value])
      (Exec.embed value >>= fun cell => push cell >>= fun _ => Pure.pure Status.running) := by
  rintro machine _ status after ⟨⟩ hrun
  cases hresult : Exec.embed value machine with
  | ok cell copied =>
    rw [bind_of_eq_ok hresult] at hrun
    cases hrun
    exact ⟨machine, cell, copied, .refl machine, hresult, rfl⟩
  | error error copied =>
    rw [bind_of_eq_error hresult] at hrun
    cases hrun

/-- What leaves memo and slots as they are may stand in front. -/
theorem bind {action : Exec α} {next : α → Exec Status} (hfirst : KeepsSlots action)
    (hnext : ∀ value, Pushes (later value) (next value)) :
    Pushes (follow action later) (action >>= next) := by
  intro machine value status after hvalues hrun
  have hkept := hfirst machine
  unfold follow at hvalues
  cases hresult : action machine with
  | ok result middle =>
    rw [hresult] at hvalues hkept
    rw [bind_of_eq_ok hresult] at hrun
    obtain ⟨below, cell, copied, hbelow, hembed, hafter⟩ :=
      hnext result middle value status after hvalues hrun
    exact ⟨below, cell, copied, hkept.trans hbelow, hembed, hafter⟩
  | error error middle =>
    rw [bind_of_eq_error hresult] at hrun
    cases hrun

end Pushes

theorem pushes_callCell (opcode : Opcode) (callee : Cell) (args : List Cell)
    (kwargs : List (String × Cell)) :
    Pushes (callImports env callee args kwargs)
      (callCell env opcode callee args kwargs >>= fun cell =>
        push cell >>= fun _ => Pure.pure Status.running) := by
  unfold callCell
  rw [bind_assoc]
  refine .bind (.content callee) fun content => ?_
  cases content with
  | atom value =>
    cases value with
    | callable callable =>
      simp only [bind_assoc]
      refine .bind (.mapM .value args) fun args => .bind (.mapM ?_ kwargs) fun kwargs =>
        .bind (.ofExcept _) .embed
      exact fun pair => (KeepsSlots.value pair.2).bind fun _ => .pure _
    | _ => exact .nothing _
  | _ => exact .nothing _

theorem pushes_persistent (id : Value) :
    Pushes (persistentImports env id)
      (persistent env id >>= fun cell => push cell >>= fun _ => Pure.pure Status.running) := by
  unfold persistentImports persistent
  cases env.loader with
  | some load =>
    simp only [bind_assoc]
    exact .bind (.ofExcept _) .embed
  | none => exact .nothing _

theorem pushes_step (opcode : Opcode) (operation : Operation) :
    Pushes (pushed env operation) (step env opcode operation) := by
  cases operation with
  | constant name => exact .embed _
  | stackConstant =>
    exact .bind .popText fun name => .bind .popText fun namespace_ => .embed _
  | apply =>
    exact .bind .popArguments fun args => .bind .pop fun callee =>
      pushes_callCell env _ callee args []
  | applyKeywords =>
    exact .bind .popKeywords fun kwargs => .bind .popArguments fun args => .bind .pop fun callee =>
      pushes_callCell env _ callee args kwargs
  | applyConstant name =>
    exact .bind .popMark fun args => .bind (.constant env name) fun callee =>
      pushes_callCell env _ callee args []
  | applyBracket =>
    refine .bind .popMark fun cells => ?_
    cases cells with
    | cons callee args => exact pushes_callCell env _ callee args []
    | nil => exact .nothing _
  | persistent id => exact pushes_persistent env _
  | stackPersistent =>
    exact .bind .pop fun cell => .bind (.value cell) fun id => pushes_persistent env id
  | extension code =>
    simp only [step, pushed, imports]
    cases env.extensions.lookup code with
    | some value => exact .embed value
    | none => exact .nothing _
  | _ => exact .nothing _

/-- A value that can be taken apart can be looked up, whenever there is a name or a code for it. -/
theorem exists_step_of_looksUp (opcode : Opcode) {operation : Operation} (h : operation.LooksUp)
    {machine : Machine} {value : Value} (hpushed : pushed env operation machine = [value])
    (hembed : ∀ other, ∃ cell copied, embed value other = .ok cell copied) :
    ∃ after, step env opcode operation machine = .ok .running after := by
  -- Whichever machine is reached, the value is embedded and pushed.
  have hpush : ∀ other, ∃ after, (embed value >>= fun cell => push cell >>= fun _ =>
      pure Status.running) other = .ok .running after := by
    intro other
    obtain ⟨cell, copied, hcell⟩ := hembed other
    exact ⟨_, bind_of_eq_ok hcell⟩
  cases operation with
  | constant name =>
    cases hpushed
    exact hpush machine
  | stackConstant =>
    simp only [pushed, imports, follow] at hpushed
    cases hname : popText machine with
    | error error middle => rw [hname] at hpushed; cases hpushed
    | ok name middle =>
      cases hnamespace : popText middle with
      | error error below => simp only [hname, hnamespace] at hpushed; cases hpushed
      | ok namespace_ below =>
        simp only [hname, hnamespace] at hpushed
        cases hpushed
        rw [step, bind_of_eq_ok hname, bind_of_eq_ok hnamespace]
        exact hpush below
  | extension code =>
    simp only [pushed, imports] at hpushed
    cases hlookup : env.extensions.lookup code with
    | none => rw [hlookup] at hpushed; cases hpushed
    | some found =>
      rw [hlookup] at hpushed
      cases hpushed
      simp only [step, hlookup]
      exact hpush machine
  | _ => exact h.elim

end Exec

/-! ## Programs -/

namespace Machine

variable (env : Environment)

/-- The values of the host of which an instruction pushes copies; it counts itself before. -/
def pushed (machine : Machine) (instruction : Instruction) : List Value :=
  Exec.pushed env instruction.operation { machine with created := machine.created + 1 }

/-- Whether a machine becomes another one by taking operands off its stack, and pushing a copy of a
value, which leaves the memo and all slots as they are. -/
def PushesCopy (before after : Machine) (value : Value) : Prop :=
  ∃ below cell copied, before.MutatesTo none none below ∧ below.IsCopy copied cell value ∧
    after = { copied with stack := cell :: copied.stack } ∧ after.value cell = .ok value

variable {env}

theorem pushesCopy_of_execute {instruction : Instruction} {machine after : Machine} {value : Value}
    {status : Status} (hpushed : machine.pushed env instruction = [value]) (hvalue : value.IsSorted)
    (h : Exec.execute env instruction machine = .ok status after) :
    machine.PushesCopy after value ∧
      ∀ other, ∃ cell copied, Exec.embed value other = .ok cell copied := by
  obtain ⟨below, cell, copied, hbelow, hembed, rfl⟩ := Exec.pushes_step env instruction.opcode
    instruction.operation _ value status after hpushed (Exec.step_of_execute env h)
  have hcopy := isCopy_of_embed hvalue hembed
  have hcounted : machine.MutatesTo none none { machine with created := machine.created + 1 } :=
    .of_eq rfl rfl
  refine ⟨⟨below, cell, copied, hcounted.trans hbelow, hcopy, rfl, ?_⟩, fun other => ?_⟩
  · exact hcopy.value_eq _ (fun _ _ _ => rfl) le_rfl
  · exact (Exec.exists_embed_iff value other).2
      ((Exec.exists_embed_iff value below).1 ⟨cell, copied, hembed⟩)

/-- Values of the host survive in the machine, in any run, as long as there are no floats in the keys
of their sets and maps.

A value that is taken apart is put into new slots, which nothing that was there refers to, and which
refer to nothing that was there; nothing else changes.  The new cell is converted to the very same
value, now and for as long as no instruction changes one of these slots, and it fails inside of other
containers only for the want of levels or budget.

So does every instruction that pushes a value of a table, the result of a call or the object of a
persistent id push a copy that is converted to the value.  If it is one that looks a value up, then
the same value can be looked up after any further instructions, whatever they do to the copy, and
the result is a fresh copy again. -/
theorem copies_isolated (options : Options) (program : List Instruction) :
    let env := options.environment
    let machine := options.machine.after env program
    (∀ value cell after, value.IsSorted → Exec.embed value machine = .ok cell after →
      machine.IsCopy after cell value ∧ after.value cell = .ok value ∧
        (∀ slot, after.Reaches cell slot → machine.slots.size ≤ slot ∧ slot < after.slots.size) ∧
        (∀ other slot, machine.Holds other → after.Reaches other slot →
          slot < machine.slots.size) ∧
        ∀ more, (∀ slot, machine.slots.size ≤ slot → slot < after.slots.size →
          after.mutationsOf env slot more = []) → (after.after env more).value cell = .ok value) ∧
    ∀ instruction value status after, machine.pushed env instruction = [value] → value.IsSorted →
      Exec.execute env instruction machine = .ok status after →
        machine.PushesCopy after value ∧
          ∀ more again, let later := after.after env more
            again.operation.LooksUp → later.pushed env again = [value] →
              ∃ afterwards, Exec.execute env again later = .ok .running afterwards ∧
                later.PushesCopy afterwards value := by
  intro env machine
  have hmachine : machine.WellFormed :=
    wellFormed_of_program env (wellFormed_initial options.buffers) program
  refine ⟨?_, ?_⟩
  · -- The copy lies in the new slots, and nothing that was there before names one of them.
    intro value cell after hvalue h
    have hcopy := isCopy_of_embed hvalue h
    exact ⟨hcopy, hcopy.value_eq_ok, hcopy.stands.stays after (.refl _ _),
      fun other slot => hcopy.lt_of_reaches hmachine, fun more => hcopy.value_after env⟩
  · intro instruction value status after hpushed hvalue h
    obtain ⟨hcopy, hembed⟩ := pushesCopy_of_execute hpushed hvalue h
    refine ⟨hcopy, ?_⟩
    -- A later look-up imports the host value once more, and not what has become of the first copy.
    intro more again later hagain hpushed'
    obtain ⟨afterwards, hstep⟩ :=
      Exec.exists_step_of_looksUp env again.opcode hagain hpushed' hembed
    have hexecute := Exec.execute_of_step env again hstep
    exact ⟨afterwards, hexecute, (pushesCopy_of_execute hpushed' hvalue hexecute).1⟩

/-- A list with a float that is no number, with keys of all kinds and with an instance can be looked
up by its code, and again after its copy got one more item. -/
theorem copies_isolated_appended :
    let value : Value := .list [.scalar (.float ⟨0x7ff8000000000000⟩),
      .dict [(.scalar (.bool true), .set [.scalar (.long 7)]),
        (.frozenSet [.scalar .none, .scalar (.short 2)], .none)],
      .object ⟨⟨"host", "Thing"⟩, [.tuple []], [("key", .none)], [(.scalar (.str "x"), .bytes [])],
        some .none⟩]
    let options : Options := { extensions := [(5, value)] }
    let env := options.environment
    let start := options.machine.after env [⟨.emptyList, ()⟩]
    let lookUp : Instruction := ⟨.ext1, (5 : UInt8)⟩
    let append : List Instruction := [⟨.pushNone, ()⟩, ⟨.append, ()⟩]
    (∃ cell after, Exec.embed value start = .ok cell after ∧ after.value cell = .ok value) ∧
      ∃ after, Exec.execute env lookUp start = .ok .running after ∧ start.PushesCopy after value ∧
        ∃ afterwards, Exec.execute env lookUp (after.after env append) = .ok .running afterwards ∧
          (after.after env append).PushesCopy afterwards value := by
  intro value options env start lookUp append
  have hkeys : Key.Ascend [.scalar (.bool true), .frozenSet [.scalar .none, .scalar (.short 2)]] :=
    ⟨by simp [Key.IsFloatFree, Key.All, Key.AllItems], List.pairwise_pair.2 rfl⟩
  have hmembers : Key.Ascend [.scalar .none, .scalar (.short 2)] :=
    ⟨by simp [Key.IsFloatFree, Key.All], List.pairwise_pair.2 rfl⟩
  have hone : Key.Ascend [.scalar (.long 7)] := ⟨by simp [Key.IsFloatFree, Key.All], by simp⟩
  have hname : Key.Ascend [.scalar (.str "x")] := ⟨by simp [Key.IsFloatFree, Key.All], by simp⟩
  have hsorted : value.IsSorted := by
    simp [value, Value.IsSorted, Value.AllSorted, Value.PairsSorted, Value.KeywordsSorted,
      Value.StateSorted, Key.IsSorted, Key.AllSorted, hkeys, hmembers, hone, hname]
  have hdepth : value.depth < maxDepth := by decide
  have hpushed : ∀ machine : Machine, machine.pushed env lookUp = [value] := fun _ => rfl
  obtain ⟨cell, copied, hembed⟩ := Exec.exists_embed_of_depth_lt hdepth start
  have hlooksUp : lookUp.operation.LooksUp := trivial
  obtain ⟨after, hstep⟩ := Exec.exists_step_of_looksUp env .ext1 hlooksUp (hpushed start)
    (Exec.exists_embed_of_depth_lt hdepth)
  have hafter := Exec.execute_of_step env lookUp hstep
  obtain ⟨hembeds, hpushes⟩ := copies_isolated options [⟨.emptyList, ()⟩]
  obtain ⟨hcopy, hagain⟩ := hpushes lookUp value .running after (hpushed start) hsorted hafter
  exact ⟨⟨cell, copied, hembed, (hembeds value cell copied hsorted hembed).2.1⟩, after, hafter,
    hcopy, hagain append lookUp hlooksUp (hpushed _)⟩

end Machine

end Pickle
