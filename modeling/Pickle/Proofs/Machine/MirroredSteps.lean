import Pickle.Proofs.Machine.Mirroring

/-!
# Instructions on machines that mirror each other

An action is `Exec.Mirrored` by another one if it agrees with it from all machines that mirror each
other and leaves such machines; the results correspond.  This is closed under going on after an
action, and all that is done with the stack, with contents and with values of the host has it.

What makes a slot shared or changes an atom has it only where the stack top has a slot in both
machines, so the law for operations, `agreeFrom_step`, has this as a condition.  It also says what
becomes of dead memo entries: they come back to life when they are written.
-/

namespace Pickle

variable {strict : Prop} {f : ℕ → Cell} {dead : Set ℕ}

/-! ## Actions -/

namespace Exec

variable {α β γ : Type}

/-- What comes of an action: its result with the machine that it leaves, or its error. -/
def outcome (action : Exec α) (machine : Machine) : Except Error (α × Machine) :=
  match action machine with
  | .ok value after => .ok (value, after)
  | .error error _ => .error error

theorem outcome_of_eq_ok {action : Exec α} {machine after : Machine} {value : α}
    (h : action machine = .ok value after) : outcome action machine = .ok (value, after) := by
  rw [outcome, h]

theorem outcome_of_eq_error {action : Exec α} {machine after : Machine} {error : Error}
    (h : action machine = .error error after) : outcome action machine = .error error := by
  rw [outcome, h]

theorem outcome_bind (action : Exec α) (next : α → Exec β) (machine : Machine) :
    outcome (action >>= next) machine =
      outcome action machine >>= fun done => outcome (next done.1) done.2 := by
  cases hresult : action machine with
  | ok value after => rw [outcome, bind_of_eq_ok hresult, outcome_of_eq_ok hresult]; rfl
  | error error after => rw [outcome, bind_of_eq_error hresult, outcome_of_eq_error hresult]; rfl

/-- Whether two actions agree from two machines, with a relation between what comes of them. -/
def AgreeFrom (strict : Prop) (action action' : Exec α) (machine machine' : Machine)
    (good : α → Machine → α → Machine → Prop) : Prop :=
  Agree strict Error.IsNodeLimit (fun done done' => good done.1 done.2 done'.1 done'.2)
    (outcome action machine) (outcome action' machine')

theorem AgreeFrom.bind {action action' : Exec α} {next next' : α → Exec β}
    {machine machine' : Machine} {good : α → Machine → α → Machine → Prop}
    {fine : β → Machine → β → Machine → Prop}
    (h : AgreeFrom strict action action' machine machine' good)
    (hnext : ∀ value after value' after', good value after value' after' →
      AgreeFrom strict (next value) (next' value') after after' fine) :
    AgreeFrom strict (action >>= next) (action' >>= next') machine machine' fine := by
  rw [AgreeFrom, outcome_bind, outcome_bind]
  exact Agree.bind h fun done done' hdone => hnext done.1 done.2 done'.1 done'.2 hdone

theorem AgreeFrom.during {action action' : Exec α} {machine machine' : Machine}
    {good : α → Machine → α → Machine → Prop}
    (h : AgreeFrom strict action action' machine machine' good) (operation : String) :
    AgreeFrom strict (Exec.during operation action) (Exec.during operation action') machine machine'
      good := by
  have houtcome : ∀ (action : Exec α) machine, outcome (Exec.during operation action) machine =
      (outcome action machine).mapError (Error.during operation) := by
    intro action machine
    unfold outcome Exec.during
    cases action machine <;> rfl
  rw [AgreeFrom, houtcome, houtcome]
  exact Agree.mapError h fun error => Error.isNodeLimit_during operation

/-- Stack tops that correspond are of one kind, and the machines are as before. -/
theorem agreeFrom_topKind {machine machine' : Machine}
    (h : machine.Mirrors strict f dead machine') :
    AgreeFrom strict topKind topKind machine machine' fun kind after kind' after' =>
      kind' = kind ∧ after = machine ∧ after' = machine' := by
  have hstack := h.stack
  unfold AgreeFrom outcome topKind
  cases hcells : machine.stack with
  | nil =>
    rw [hcells] at hstack
    rw [hstack]
    exact .error _
  | cons cell rest =>
    rw [hcells] at hstack
    rw [hstack]
    exact ⟨by rw [h.content, Content.kind_rename], rfl, rfl⟩

/-- Whether two actions agree from machines that mirror each other, leave such machines, and have
results that correspond. -/
def Mirrored (strict : Prop) (f : ℕ → Cell) (dead : Set ℕ) (g : α → α) (action action' : Exec α) :
    Prop :=
  ∀ machine machine', machine.Mirrors strict f dead machine' →
    AgreeFrom strict action action' machine machine' fun value after value' after' =>
      value' = g value ∧ after.Mirrors strict f dead after'

namespace Mirrored

variable {g : α → α} {g' : β → β}

theorem pure {value value' : α} (h : value' = g value) :
    Mirrored strict f dead g (Pure.pure value) (Pure.pure value') :=
  fun _ _ hmirrors => ⟨h, hmirrors⟩

theorem fail (failure : Failure) :
    Mirrored strict f dead g (Exec.fail failure) (Exec.fail failure) := fun _ _ _ => .error _

theorem ofExcept {result result' : Except Error α} (h : result' = result.map g) :
    Mirrored strict f dead g (Exec.ofExcept result) (Exec.ofExcept result') := by
  subst h
  cases result with
  | ok value => exact pure rfl
  | error error => exact fun _ _ _ => .error _

theorem ofExcept_same (result : Except Error α) :
    Mirrored strict f dead id (Exec.ofExcept result) (Exec.ofExcept result) :=
  ofExcept (by cases result <;> rfl)

theorem bind {action action' : Exec α} {next next' : α → Exec β}
    (h : Mirrored strict f dead g action action')
    (hnext : ∀ value, Mirrored strict f dead g' (next value) (next' (g value))) :
    Mirrored strict f dead g' (action >>= next) (action' >>= next') := by
  refine fun machine machine' hmirrors => (h machine machine' hmirrors).bind ?_
  rintro value after _ after' ⟨rfl, hafter⟩
  exact hnext value after after' hafter

theorem then_running {action action' : Exec Unit} (h : Mirrored strict f dead id action action') :
    Mirrored strict f dead id (action >>= fun _ => Pure.pure Status.running)
      (action' >>= fun _ => Pure.pure Status.running) :=
  h.bind fun _ => pure rfl

theorem mapM {action : γ → Exec α} {action' : β → Exec α} {change : γ → β}
    (h : ∀ item, Mirrored strict f dead id (action item) (action' (change item)))
    (items : List γ) :
    Mirrored strict f dead id (items.mapM action) ((items.map change).mapM action') := by
  induction items with
  | nil => exact pure rfl
  | cons item rest ih =>
    rw [List.map_cons, List.mapM_cons, List.mapM_cons]
    exact (h item).bind fun value => ih.bind fun values => pure rfl

/-- What is done with the machines themselves may depend on how they correspond. -/
theorem get_bind {next next' : Machine → Exec α}
    (h : ∀ machine machine', machine.Mirrors strict f dead machine' →
      Mirrored strict f dead g (next machine) (next' machine')) :
    Mirrored strict f dead g ((MonadStateOf.get : Exec Machine) >>= next)
      ((MonadStateOf.get : Exec Machine) >>= next') :=
  fun machine machine' hmirrors => h machine machine' hmirrors machine machine' hmirrors

theorem of_modify {change change' : Machine → Machine}
    (h : ∀ machine machine', machine.Mirrors strict f dead machine' →
      (change machine).Mirrors strict f dead (change' machine')) :
    Mirrored strict f dead id (modify change : Exec Unit) (modify change') :=
  fun machine machine' hmirrors => ⟨rfl, h machine machine' hmirrors⟩

/-! ### The stack -/

theorem push (cell : Cell) :
    Mirrored strict f dead id (Exec.push cell) (Exec.push (cell.rename f)) :=
  of_modify fun machine machine' h => { h with stack := by simp [h.stack] }

theorem pop : Mirrored strict f dead (Cell.rename f) Exec.pop Exec.pop := by
  intro machine machine' h
  have hstack := h.stack
  unfold AgreeFrom outcome Exec.pop
  cases hcells : machine.stack with
  | nil =>
    rw [hcells] at hstack
    rw [hstack]
    exact .error _
  | cons cell rest =>
    rw [hcells] at hstack
    rw [hstack]
    exact ⟨rfl, { h with stack := rfl }⟩

theorem popMany (number : ℕ) : Mirrored strict f dead (List.map (Cell.rename f))
    (Exec.popMany number) (Exec.popMany number) := by
  induction number with
  | zero => exact pure rfl
  | succ number ih => exact pop.bind fun last => ih.bind fun cells => pure (by simp)

theorem mark : Mirrored strict f dead id Exec.mark Exec.mark :=
  of_modify fun machine machine' h => { h with stack := rfl, saved := by simp [h.stack, h.saved] }

theorem popMark : Mirrored strict f dead (List.map (Cell.rename f)) Exec.popMark Exec.popMark := by
  intro machine machine' h
  have hsaved := h.saved
  unfold AgreeFrom outcome Exec.popMark
  cases hstacks : machine.saved with
  | nil =>
    rw [hstacks] at hsaved
    rw [hsaved]
    exact .error _
  | cons below saved =>
    rw [hstacks] at hsaved
    rw [hsaved]
    exact ⟨by simp [h.stack], { h with stack := rfl, saved := rfl }⟩

theorem content (cell : Cell) : Mirrored strict f dead (Content.rename f) (Exec.content cell)
    (Exec.content (cell.rename f)) :=
  fun _ _ h => ⟨h.content cell, h⟩

theorem kind (cell : Cell) :
    Mirrored strict f dead id (Exec.kind cell) (Exec.kind (cell.rename f)) :=
  fun _ _ h => ⟨by rw [h.content, Content.kind_rename]; rfl, h⟩

theorem topKind : Mirrored strict f dead id Exec.topKind Exec.topKind :=
  fun _ _ h => (agreeFrom_topKind h).imp fun _ _ ⟨hkind, hafter, hafter'⟩ =>
    ⟨hkind, hafter ▸ hafter' ▸ h⟩

theorem value (cell : Cell) :
    Mirrored strict f dead id (Exec.value cell) (Exec.value (cell.rename f)) := by
  intro machine machine' h
  have houtcome : ∀ (cell : Cell) (machine : Machine), outcome (Exec.value cell) machine =
      (machine.value cell).mapError Error.ofFailure >>= fun value => .ok (value, machine) := by
    intro cell machine
    unfold outcome Exec.value
    cases machine.value cell <;> rfl
  have hvalue : Agree strict Error.IsNodeLimit Eq
      ((machine.value cell).mapError Error.ofFailure)
      ((machine'.value (cell.rename f)).mapError Error.ofFailure) :=
    (h.agree_value cell).mapError fun failure hlimit => hlimit
  rw [AgreeFrom, houtcome, houtcome]
  refine hvalue.bind ?_
  rintro value _ rfl
  exact ⟨rfl, h⟩

/-! ### Slots -/

theorem of_parallel {action action' : Exec α} (h : Parallel f g action action') :
    Mirrored strict f dead g action action' := by
  intro machine machine' hmirrors
  obtain ⟨value, new, created, hdone, hdone'⟩ | ⟨error, after, after', hfail, hfail'⟩ :=
    h machine machine' hmirrors.fresh
  · rw [AgreeFrom, outcome_of_eq_ok hdone, outcome_of_eq_ok hdone']
    exact ⟨rfl, hmirrors.grow new created⟩
  · rw [AgreeFrom, outcome_of_eq_error hfail, outcome_of_eq_error hfail']
    exact .error _

theorem pushNew (content : Content) : Mirrored strict f dead id (Exec.pushNew content)
    (Exec.pushNew (content.rename f)) :=
  (of_parallel (.alloc content)).bind push

theorem embed (value : Value) :
    Mirrored strict f dead (Cell.rename f) (Exec.embed value) (Exec.embed value) :=
  of_parallel (parallel_embed value)

end Mirrored

end Exec

/-- Whether an operation shares the stack top, or may change an atom there. -/
def Operation.ActsOnTop : Operation → Prop
  | .dup | .memoize _ | .makeReadonly => True
  | _ => False

/-- The dead memo entries after an operation: those that were dead and were not written. -/
def Operation.leavesDead (dead : Set ℕ) : Operation → Set ℕ
  | .memoize (some index) => dead \ {index}
  | _ => dead

theorem Machine.slot_modify (machine : Machine) {change : Content → Content}
    (hnone : change .none = .none) (index slot : ℕ) :
    ({ machine with slots := machine.slots.modify index change } : Machine).slot slot =
      if index = slot then change (machine.slot slot) else machine.slot slot := by
  simp only [slot_eq, Array.getElem?_modify]
  split
  · cases machine.slots[slot]? with
    | none => exact hnone.symm
    | some content => rfl
  · rfl

namespace Machine.Mirrors

variable {machine machine' : Machine}

/-- Machines that have counted one instruction more. -/
theorem counted (h : machine.Mirrors strict f dead machine') :
    Mirrors strict f dead { machine with created := machine.created + 1 }
      { machine' with created := machine'.created + 1 } :=
  { h with created := fun hstrict => Nat.succ_le_succ (h.created hstrict) }

/-- A change of a slot and the like change of its counterpart. -/
theorem modify (h : machine.Mirrors strict f dead machine') {change change' : Content → Content}
    (hchange : ∀ content, (change content).rename f = change' (content.rename f))
    (hnone : change .none = .none) {slot counterpart : ℕ} (hslot : f slot = .ref counterpart) :
    Mirrors strict f dead { machine with slots := machine.slots.modify slot change }
      { machine' with slots := machine'.slots.modify counterpart change' } := by
  have hnone' : change' .none = .none := by
    have hsame := hchange .none
    rw [hnone] at hsame
    exact hsame.symm
  refine { h with slots := fun other => ?_, fresh := fun number => ?_ }
  · have hold := h.slots other
    rw [slot_modify machine hnone]
    cases hother : f other with
    | atom value =>
      have hne : slot ≠ other := by
        rintro rfl
        rw [hslot] at hother
        cases hother
      rw [if_neg hne, ← hold, hother]
      rfl
    | ref found =>
      rw [hother] at hold
      show Machine.slot _ found = _
      rw [slot_modify machine' hnone']
      by_cases heq : slot = other
      · subst heq
        obtain rfl : counterpart = found := Cell.ref.inj (hslot.symm.trans hother)
        rw [if_pos rfl, if_pos rfl, hchange, ← hold]
        rfl
      · -- Renaming is injective on slots, so no other slot has this counterpart.
        have hne : counterpart ≠ found := by
          rintro rfl
          exact heq (h.injective _ _ _ hslot hother)
        rw [if_neg hne, if_neg heq, ← hold]
        rfl
  · simpa using h.fresh number

/-- A change that leaves the atom as it is that a slot without a counterpart holds. -/
theorem modify_atom (h : machine.Mirrors strict f dead machine') {change : Content → Content}
    (hnone : change .none = .none) {slot : ℕ} {value : Atom} (hslot : f slot = .atom value)
    (hvalue : change (.atom value) = .atom value) :
    Mirrors strict f dead { machine with slots := machine.slots.modify slot change } machine' := by
  refine { h with slots := fun other => ?_, fresh := fun number => ?_ }
  · rw [h.slots, slot_modify machine hnone]
    split
    · next heq =>
      subst heq
      rw [h.slot_of_atom hslot, hvalue]
    · rfl
  · simpa using h.fresh number

end Machine.Mirrors

namespace Exec

section Top

variable {machine machine' : Machine}

/-- A change of the stack top.  If the second machine has an atom where the first has a slot, the
change must leave the atom as it is. -/
theorem agreeFrom_changeTop (h : machine.Mirrors strict f dead machine')
    {change change' : Content → Content}
    (hchange : ∀ content, (change content).rename f = change' (content.rename f))
    (hnone : change .none = .none)
    (htop : ∀ slot value, machine.stack.head? = some (.ref slot) → f slot = .atom value →
      change (.atom value) = .atom value) :
    AgreeFrom strict (changeTop change) (changeTop change') machine machine'
      fun _ after _ after' => after.Mirrors strict f dead after' := by
  have hstack := h.stack
  unfold AgreeFrom outcome changeTop
  rcases hcells : machine.stack with _ | ⟨_ | value, rest⟩
  · rw [hcells] at hstack
    rw [hstack]
    exact .error _
  · next slot =>
    rw [hcells] at hstack
    cases hslot : f slot with
    | ref counterpart =>
      rw [hstack]
      simp only [List.map_cons, Cell.rename, hslot]
      exact { h.modify hchange hnone hslot with stack := by simp [Cell.rename, hslot] }
    | atom value =>
      -- On top is a shared atom, which the other machine holds without a slot.
      have hvalue := htop slot value (by rw [hcells]; rfl) hslot
      have hvalue' := hchange (.atom value)
      rw [hvalue] at hvalue'
      have hsame : change' (.atom value) = .atom value := hvalue'.symm
      rw [hstack]
      simp only [List.map_cons, Cell.rename, hslot, hsame]
      have hmodify := h.modify_atom hnone hslot hvalue
      exact { hmodify with stack := by simp [Cell.rename, hslot] }
  · rw [hcells] at hstack
    have hvalue := hchange (.atom value)
    simp only [Content.rename] at hvalue
    rw [hstack]
    simp only [List.map_cons, Cell.rename, ← hvalue]
    cases change (.atom value) with
    | atom value' => exact { h with stack := rfl }
    | _ => exact h

end Top

theorem Mirrored.changeTop {change change' : Content → Content}
    (hchange : ∀ content, (change content).rename f = change' (content.rename f))
    (hatom : ∀ value, change (.atom value) = .atom value) :
    Mirrored strict f dead id (Exec.changeTop change) (Exec.changeTop change') :=
  fun _ _ h => (agreeFrom_changeTop h hchange (hatom _) fun _ _ _ _ => hatom _).imp
    fun _ _ hafter => ⟨rfl, hafter⟩

theorem Mirrored.extendTop (cells : List Cell) :
    Mirrored strict f dead id (Exec.changeTop (.extend cells))
      (Exec.changeTop (.extend (cells.map (Cell.rename f)))) :=
  changeTop (Content.rename_extend f cells) fun _ => rfl

theorem Mirrored.extendTopPairs (pairs : List (Cell × Cell)) :
    Mirrored strict f dead id (Exec.changeTop (.extendPairs pairs))
      (Exec.changeTop (.extendPairs (pairs.map (renamePair f)))) :=
  changeTop (Content.rename_extendPairs f pairs) fun _ => rfl

/-! ### What operations call -/

end Exec

namespace Machine.Mirrors

variable {machine machine' : Machine}

theorem halfAttributes (h : machine.Mirrors strict f dead machine') (half : Cell) :
    machine'.halfAttributes (half.rename f) =
      (machine.halfAttributes half).map (List.map (renamePair f)) := by
  unfold Machine.halfAttributes
  rw [h.content]
  cases machine.content half with
  | dict pairs => simp [Content.rename]
  | atom value =>
    simp only [Content.rename]
    split <;> first | rfl | simp_all
  | _ => rfl

/-- States that correspond spell attributes that do. -/
theorem stateAttributes (h : machine.Mirrors strict f dead machine') (state : Cell) :
    machine'.stateAttributes (state.rename f) =
      (machine.stateAttributes state).map (List.map (renamePair f)) := by
  unfold Machine.stateAttributes
  rw [h.content]
  cases machine.content state with
  | dict pairs => simp [Content.rename]
  | tuple items =>
    rcases items with _ | ⟨first, _ | ⟨second, _ | _⟩⟩
    · rfl
    · rfl
    · simp only [Content.rename, List.map_cons, List.map_nil, h.halfAttributes]
      cases machine.halfAttributes first <;> cases machine.halfAttributes second <;> simp
    · rfl
  | _ => rfl

theorem keyword (h : machine.Mirrors strict f dead machine') (pair : Cell × Cell) :
    machine'.keyword (renamePair f pair) = (machine.keyword pair).map (renameKeyword f) := by
  unfold Machine.keyword
  rw [show (renamePair f pair).1 = pair.1.rename f from rfl, h.content]
  cases machine.content pair.1 with
  | atom value =>
    simp only [Content.rename]
    split <;> rfl
  | _ => rfl

theorem keywords (h : machine.Mirrors strict f dead machine') (pairs : List (Cell × Cell)) :
    (pairs.map (renamePair f)).mapM machine'.keyword =
      (pairs.mapM machine.keyword).map (List.map (renameKeyword f)) := by
  induction pairs with
  | nil => rfl
  | cons pair rest ih =>
    rw [List.map_cons, List.mapM_cons, List.mapM_cons, h.keyword, ih]
    cases machine.keyword pair with
    | error error => rfl
    | ok first => cases rest.mapM machine.keyword <;> rfl

end Machine.Mirrors

/-- Alternating keys and values that are renamed are paired up as before. -/
theorem pairUp_map_rename (cells : List Cell) :
    pairUp (cells.map (Cell.rename f)) = (pairUp cells).map (List.map (renamePair f)) := by
  fun_induction pairUp cells with
  | case1 => rfl
  | case2 cell => rfl
  | case3 key value rest ih =>
    simp only [List.map_cons, pairUp, ih]
    cases pairUp rest <;> rfl

namespace Exec

namespace Mirrored

theorem popText : Mirrored strict f dead id Exec.popText Exec.popText := by
  refine pop.bind fun cell => (content cell).bind fun content => ?_
  cases content with
  | atom value =>
    simp only [Content.rename]
    split
    · exact pure rfl
    · exact fail _
  | _ => exact fail _

theorem popArguments :
    Mirrored strict f dead (List.map (Cell.rename f)) Exec.popArguments Exec.popArguments := by
  refine pop.bind fun cell => (content cell).bind fun content => ?_
  cases content with
  | tuple items => exact pure rfl
  | _ => exact fail _

theorem popKeywords :
    Mirrored strict f dead (List.map (renameKeyword f)) Exec.popKeywords Exec.popKeywords := by
  refine pop.bind fun cell => (content cell).bind fun content => ?_
  cases content with
  | dict pairs =>
    simp only [Content.rename, Array.toList_map]
    exact get_bind fun machine machine' h => ofExcept (h.keywords pairs.toList)
  | atom value =>
    simp only [Content.rename]
    split
    · next heq => cases heq
    · exact pure rfl
    · exact fail _
  | _ => exact fail _

theorem popPairs :
    Mirrored strict f dead (List.map (renamePair f)) Exec.popPairs Exec.popPairs := by
  refine popMark.bind fun cells => ?_
  rw [pairUp_map_rename]
  cases pairUp cells with
  | some pairs => exact pure rfl
  | none => exact fail _

variable (env : Environment)

theorem constant (name : QualifiedName) :
    Mirrored strict f dead (Cell.rename f) (Exec.constant env name) (Exec.constant env name) :=
  embed _

/-- Calls of callees and with arguments that correspond give results that do. -/
theorem callCell (opcode : Opcode) (callee : Cell) (args : List Cell)
    (kwargs : List (String × Cell)) :
    Mirrored strict f dead (Cell.rename f) (Exec.callCell env opcode callee args kwargs)
      (Exec.callCell env opcode (callee.rename f) (args.map (Cell.rename f))
        (kwargs.map (renameKeyword f))) := by
  refine (content callee).bind fun content => ?_
  cases content with
  | atom atom =>
    simp only [Content.rename]
    split
    · next name _ => exact of_parallel (.alloc (.object (.fresh name args kwargs)))
    · next callable _ =>
      refine (mapM value args).bind fun args => ?_
      refine (mapM (fun pair => ?_) kwargs).bind fun kwargs => ?_
      · exact (value pair.2).bind fun value => pure rfl
      · exact (ofExcept_same _).bind embed
    · exact fail _
  | _ => exact fail _

theorem persistent (id : Value) :
    Mirrored strict f dead (Cell.rename f) (Exec.persistent env id) (Exec.persistent env id) := by
  unfold Exec.persistent
  split
  · exact (ofExcept_same _).bind embed
  · exact fail _

theorem fetch {index : ℕ} (h : index ∉ dead) :
    Mirrored strict f dead id (Exec.fetch index) (Exec.fetch index) := by
  refine get_bind fun machine machine' hmirrors => ?_
  have hmemo := hmirrors.memo index h
  cases hslot : machine.memo[index]? with
  | none =>
    rw [hslot] at hmemo
    rw [Option.map_eq_none_iff.1 hmemo]
    exact fail _
  | some slot =>
    rw [hslot] at hmemo
    obtain ⟨counterpart, hcounterpart, heq⟩ := Option.map_eq_some_iff.1 hmemo
    simp only [hcounterpart, heq]
    exact push (.ref slot)

theorem push_running {action action' : Exec Cell}
    (h : Mirrored strict f dead (Cell.rename f) action action') :
    Mirrored strict f dead id
      (action >>= fun cell => Exec.push cell >>= fun _ => Pure.pure Status.running)
      (action' >>= fun cell => Exec.push cell >>= fun _ => Pure.pure Status.running) :=
  h.bind fun cell => (push cell).then_running

end Mirrored

/-! ## Operations -/

variable (env : Environment) (opcode : Opcode)

/-- All operations act alike on machines that mirror each other, apart from those that may act on an
atom on top of the stack. -/
theorem mirrored_step {operation : Operation} (hplain : ¬ operation.ActsOnTop)
    (hfetch : ∀ index ∈ dead, operation ≠ .fetch index) :
    Mirrored strict f dead id (step env opcode operation) (step env opcode operation) := by
  cases operation with
  | stop => exact Mirrored.pop.bind fun cell => (Mirrored.value cell).bind fun _ => .pure rfl
  | skip => exact .pure rfl
  | mark => exact Mirrored.mark.then_running
  | popMark => exact Mirrored.popMark.bind fun _ => .pure rfl
  | pop =>
    simp only [step]
    refine Mirrored.get_bind fun machine machine' h => ?_
    rw [h.stack, List.isEmpty_map]
    split
    · exact Mirrored.popMark.bind fun _ => .pure rfl
    · exact Mirrored.pop.bind fun _ => .pure rfl
  | fetch index =>
    exact (Mirrored.fetch fun hindex => hfetch index hindex rfl).then_running
  | push value => exact (Mirrored.push (.atom value)).then_running
  | pushString value =>
    simp only [step]
    split
    · split
      · exact (Mirrored.push (.atom _)).then_running
      · exact Mirrored.then_running (.fail _)
    · exact (Mirrored.push (.atom _)).then_running
  | tupleOf number =>
    exact (Mirrored.popMany number).bind fun cells => (Mirrored.pushNew (.tuple cells)).then_running
  | pushEmpty container =>
    have hempty : ∀ content : Content, content.rename f = content →
        Mirrored strict f dead id (pushNew content) (pushNew content) := by
      intro content hcontent
      have hpush : Mirrored strict f dead id (pushNew content) (pushNew (content.rename f)) :=
        .pushNew content
      rwa [hcontent] at hpush
    cases container <;> exact (hempty _ (by simp [Content.rename])).then_running
  | collect container =>
    cases container with
    | tuple =>
      exact Mirrored.popMark.bind fun cells => (Mirrored.pushNew (.tuple cells)).then_running
    | list =>
      refine Mirrored.popMark.bind fun cells => ?_
      rw [← List.map_toArray]
      exact (Mirrored.pushNew (.list cells.toArray)).then_running
    | frozenSet =>
      exact Mirrored.popMark.bind fun cells => (Mirrored.pushNew (.frozenSet cells)).then_running
    | dict =>
      refine Mirrored.popPairs.bind fun pairs => ?_
      rw [← List.map_toArray]
      exact (Mirrored.pushNew (.dict pairs.toArray)).then_running
  | append =>
    refine Mirrored.pop.bind fun cell => Mirrored.topKind.bind fun kind => ?_
    cases kind with
    | list => exact (Mirrored.extendTop [cell]).then_running
    | _ => exact (Mirrored.kind cell).bind fun _ => Mirrored.then_running (.fail _)
  | appends =>
    refine Mirrored.popMark.bind fun cells => Mirrored.topKind.bind fun kind => ?_
    cases kind with
    | list => exact (Mirrored.extendTop cells).then_running
    | _ => exact Mirrored.then_running (.fail _)
  | addItems =>
    refine Mirrored.popMark.bind fun cells => Mirrored.topKind.bind fun kind => ?_
    cases kind with
    | set => exact (Mirrored.extendTop cells).then_running
    | _ => exact Mirrored.then_running (.fail _)
  | setItem =>
    refine Mirrored.pop.bind fun value => Mirrored.pop.bind fun key =>
      Mirrored.topKind.bind fun kind => ?_
    cases kind with
    | dict | object => exact (Mirrored.extendTopPairs [(key, value)]).then_running
    | _ => exact (Mirrored.kind key).bind fun _ => Mirrored.then_running (.fail _)
  | setItems =>
    refine Mirrored.popPairs.bind fun pairs => Mirrored.topKind.bind fun kind => ?_
    cases kind with
    | dict | object => exact (Mirrored.extendTopPairs pairs).then_running
    | _ => exact Mirrored.then_running (.fail _)
  | constant name => exact (Mirrored.constant env name).push_running
  | stackConstant =>
    exact Mirrored.popText.bind fun name => Mirrored.popText.bind fun namespace_ =>
      (Mirrored.constant env ⟨namespace_, name⟩).push_running
  | apply =>
    exact Mirrored.popArguments.bind fun args => Mirrored.pop.bind fun callee =>
      (Mirrored.callCell env opcode callee args []).push_running
  | applyKeywords =>
    exact Mirrored.popKeywords.bind fun kwargs => Mirrored.popArguments.bind fun args =>
      Mirrored.pop.bind fun callee =>
        (Mirrored.callCell env opcode callee args kwargs).push_running
  | applyConstant name =>
    exact Mirrored.popMark.bind fun args => (Mirrored.constant env name).bind fun callee =>
      (Mirrored.callCell env opcode callee args []).push_running
  | applyBracket =>
    refine Mirrored.popMark.bind fun cells => ?_
    cases cells with
    | nil => exact Mirrored.then_running (.fail _)
    | cons callee args => exact (Mirrored.callCell env opcode callee args []).push_running
  | build =>
    refine Mirrored.pop.bind fun state => Mirrored.get_bind fun machine machine' h => ?_
    rw [h.stateAttributes]
    refine Mirrored.topKind.bind fun kind => ?_
    cases machine.stateAttributes state with
    | some attributes =>
      cases kind with
      | object | dict => exact (Mirrored.extendTopPairs attributes).then_running
      | _ => exact (Mirrored.kind state).bind fun _ => Mirrored.then_running (.fail _)
    | none =>
      cases kind with
      | object =>
        exact (Mirrored.changeTop (Content.rename_setState f state) fun _ => rfl).then_running
      | _ => exact (Mirrored.kind state).bind fun _ => Mirrored.then_running (.fail _)
  | persistent id => exact (Mirrored.persistent env (.str id)).push_running
  | stackPersistent =>
    exact Mirrored.pop.bind fun cell => (Mirrored.value cell).bind fun id =>
      (Mirrored.persistent env id).push_running
  | extension code =>
    simp only [step]
    split
    · exact (Mirrored.embed _).push_running
    · exact Mirrored.then_running (.fail _)
  | nextBuffer =>
    refine Mirrored.get_bind fun machine machine' h => ?_
    rw [h.buffers]
    rcases machine.buffers with _ | _ | ⟨buffer, rest⟩
    · exact Mirrored.then_running (.fail _)
    · exact Mirrored.then_running (.fail _)
    · have hbuffers : Mirrored strict f dead id
          (modify fun machine : Machine => { machine with buffers := some rest } : Exec Unit)
          (modify fun machine => { machine with buffers := some rest }) :=
        .of_modify fun _ _ h => { h with buffers := rfl }
      exact hbuffers.bind fun _ => (Mirrored.push (.atom _)).then_running
  | dup | memoize | makeReadonly => exact absurd trivial hplain

/-! ### Operations on the stack top -/

section Top

variable {machine machine' : Machine}

/-- Whether the second machine has a slot where the first has one on top of the stack. -/
def LinksTop (f : ℕ → Cell) (machine : Machine) : Prop :=
  ∀ slot, machine.stack.head? = some (.ref slot) → ∃ counterpart, f slot = .ref counterpart

/-- A stack top that has a slot in both machines is shared in both, and an atom moves into a new
slot of both. -/
theorem agreeFrom_shareTop (h : machine.Mirrors strict f dead machine')
    (hlinks : LinksTop f machine) :
    AgreeFrom strict shareTop shareTop machine machine' fun slot after slot' after' =>
      f slot = .ref slot' ∧ after.Mirrors strict f dead after' := by
  have hstack := h.stack
  unfold AgreeFrom outcome shareTop
  rcases hcells : machine.stack with _ | ⟨_ | value, rest⟩
  · rw [hcells] at hstack
    rw [hstack]
    exact .error _
  · next slot =>
    obtain ⟨counterpart, hslot⟩ := hlinks slot (by rw [hcells]; rfl)
    rw [hcells] at hstack
    rw [hstack]
    simp only [List.map_cons, Cell.rename, hslot]
    exact ⟨hslot, h⟩
  · rw [hcells] at hstack
    rw [hstack]
    simp only [List.map_cons, Cell.rename]
    exact ⟨h.fresh 0, { h.alloc (.atom value) with
      stack := congrArg (· :: rest.map (Cell.rename f)) (h.fresh 0).symm }⟩

theorem agreeFrom_dup (h : machine.Mirrors strict f dead machine') (hlinks : LinksTop f machine) :
    AgreeFrom strict (step env opcode .dup) (step env opcode .dup) machine machine'
      fun status after status' after' => status' = status ∧ after.Mirrors strict f dead after' := by
  refine (agreeFrom_shareTop h hlinks).bind ?_
  rintro slot after slot' after' ⟨hslot, hafter⟩
  have hpush : Mirrored strict f dead id (push (.ref slot)) (push (.ref slot')) := by
    rw [← hslot]
    exact .push (.ref slot)
  exact hpush.then_running after after' hafter

/-- A memo entry that is written is not dead any more. -/
theorem agreeFrom_memoize (h : machine.Mirrors strict f dead machine')
    (hlinks : LinksTop f machine) (index : ℕ) :
    AgreeFrom strict (step env opcode (.memoize (some index)))
      (step env opcode (.memoize (some index))) machine machine'
      fun status after status' after' =>
        status' = status ∧ after.Mirrors strict f (dead \ {index}) after' := by
  have hmemoize : AgreeFrom strict (memoize index) (memoize index) machine machine'
      fun _ after _ after' => after.Mirrors strict f (dead \ {index}) after' := by
    refine (agreeFrom_shareTop h hlinks).bind ?_
    rintro slot after slot' after' ⟨hslot, hafter⟩
    refine { hafter with memo := fun other hother => ?_, entries := fun hstrict => ?_ }
    · simp only [Std.TreeMap.getElem?_insert]
      split
      · exact congrArg some hslot.symm
      · next hne =>
        refine hafter.memo other fun hdead => hother ⟨hdead, fun heq => hne ?_⟩
        exact Nat.compare_eq_eq.2 (Set.mem_singleton_iff.1 heq).symm
    · obtain ⟨rfl, hsize⟩ := hafter.entries hstrict
      have hmemo := congrArg Option.isSome (hafter.memo index (Set.notMem_empty index))
      simp only [Option.isSome_map, ← Std.TreeMap.contains_eq_isSome_getElem?] at hmemo
      refine ⟨Set.empty_sdiff _, ?_⟩
      simp only [Std.TreeMap.size_insert, hmemo, hsize]
  exact hmemoize.bind fun _ after _ after' hafter => ⟨rfl, hafter⟩

theorem agreeFrom_makeReadonly (h : machine.Mirrors strict f dead machine')
    (hlinks : LinksTop f machine) :
    AgreeFrom strict (step env opcode .makeReadonly) (step env opcode .makeReadonly) machine
      machine' fun status after status' after' => status' = status ∧ after.Mirrors strict f dead after' := by
  refine (agreeFrom_topKind h).bind ?_
  rintro kind _ _ _ ⟨rfl, rfl, rfl⟩
  split
  · have hchange := agreeFrom_changeTop h (Content.rename_makeReadonly f) rfl
      fun slot value hslot hvalue => by
        obtain ⟨counterpart, hlinked⟩ := hlinks slot hslot
        rw [hvalue] at hlinked
        cases hlinked
    exact hchange.bind fun _ after _ after' hafter => ⟨rfl, hafter⟩
  · exact ⟨rfl, h⟩
  · exact Mirrored.then_running (.fail _) _ _ h

/-- Operations act alike on machines that mirror each other.  They must not read dead memo entries
nor number an entry by the size of a memo that has dead ones, and what acts on the stack top needs a
slot there in both machines. -/
theorem agreeFrom_step (h : machine.Mirrors strict f dead machine') {operation : Operation}
    (hfetch : ∀ index ∈ dead, operation ≠ .fetch index)
    (hnumbered : operation = .memoize none → strict)
    (hlinks : operation.ActsOnTop → LinksTop f machine) :
    AgreeFrom strict (step env opcode operation) (step env opcode operation) machine machine'
      fun status after status' after' =>
        status' = status ∧ after.Mirrors strict f (operation.leavesDead dead) after' := by
  cases operation with
  | dup => exact agreeFrom_dup env opcode h (hlinks trivial)
  | makeReadonly => exact agreeFrom_makeReadonly env opcode h (hlinks trivial)
  | memoize index =>
    cases index with
    | some index => exact agreeFrom_memoize env opcode h (hlinks trivial) index
    | none =>
      obtain ⟨rfl, hsize⟩ := h.entries (hnumbered rfl)
      have hmemoize := agreeFrom_memoize env opcode h (hlinks trivial) machine.nextIndex
      rw [Set.empty_sdiff] at hmemoize
      have hnone : ∀ machine : Machine, step env opcode (.memoize none) machine =
          step env opcode (.memoize (some machine.nextIndex)) machine := fun _ => rfl
      have hindex : machine'.nextIndex = machine.nextIndex := by
        rw [Machine.nextIndex, hsize, Machine.nextIndex]
      unfold AgreeFrom outcome at hmemoize ⊢
      rw [hnone, hnone, hindex]
      exact hmemoize
  | _ => exact mirrored_step env opcode (by simp [Operation.ActsOnTop]) hfetch machine machine' h

/-- Instructions are carried out alike if their steps are taken alike once they are counted. -/
theorem agreeFrom_execute_of_step {instruction : Instruction}
    {good : Status → Machine → Status → Machine → Prop}
    (h : AgreeFrom strict (step env instruction.opcode instruction.operation)
      (step env instruction.opcode instruction.operation)
      { machine with created := machine.created + 1 }
      { machine' with created := machine'.created + 1 } good) :
    AgreeFrom strict (execute env instruction) (execute env instruction) machine machine' good :=
  h.during instruction.name

/-- Instructions are carried out alike on machines that mirror each other, as long as their
operations are. -/
theorem agreeFrom_execute (h : machine.Mirrors strict f dead machine') (instruction : Instruction)
    (hfetch : ∀ index ∈ dead, instruction.operation ≠ .fetch index)
    (hnumbered : instruction.operation = .memoize none → strict)
    (hlinks : instruction.operation.ActsOnTop → LinksTop f machine) :
    AgreeFrom strict (execute env instruction) (execute env instruction) machine machine'
      fun status after status' after' =>
        status' = status ∧ after.Mirrors strict f (instruction.operation.leavesDead dead) after' :=
  agreeFrom_execute_of_step env
    (agreeFrom_step env instruction.opcode h.counted hfetch hnumbered hlinks)

end Top

end Exec

theorem Machine.Mirrors.linksTop {machine machine' : Machine}
    (h : machine.Mirrors strict f dead machine') (hstrict : strict) : Exec.LinksTop f machine :=
  fun slot _ => h.linked hstrict slot

end Pickle
