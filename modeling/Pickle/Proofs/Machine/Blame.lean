import Pickle.Proofs.Machine.Allocation
import Pickle.Proofs.Machine.Calls
import Pickle.Proofs.Machine.Embedding

/-!
# Whose errors

The machine and the routines that every host has fail with failures alone.  Any other error of an
instruction, such as one of a stream, comes from outside: a routine of the host or the loader for
persistent ids has reported it, and the machine passes it on (`Exec.blames_execute`).
-/

namespace Pickle

/-- Whether an error is the failure of an execution. -/
def Error.IsFailure : Error → Prop
  | .execution _ _ => True
  | .stream _ | .shape _ => False

/-- Whether a routine of the host or the loader can come to an error. -/
def Environment.Reports (env : Environment) (error : Error) : Prop :=
  (∃ routine args kwargs, env.host routine args kwargs = .error error) ∨
    ∃ load id, env.loader = some load ∧ load id = .error error

/-! ## Routines -/

/-- Whether a result is an error of a certain kind if it is an error at all. -/
def FailsOnly {α : Type} (kind : Error → Prop) : Except Error α → Prop
  | .ok _ => True
  | .error error => kind error

namespace FailsOnly

variable {α β : Type} {kind other : Error → Prop}

theorem imp {result : Except Error α} (h : FailsOnly kind result)
    (himp : ∀ error, kind error → other error) : FailsOnly other result := by
  cases result with
  | ok value => trivial
  | error error => exact himp error h

theorem bind {first : Except Error α} {next : α → Except Error β} (hfirst : FailsOnly kind first)
    (hnext : ∀ value, FailsOnly kind (next value)) : FailsOnly kind (first >>= next) := by
  cases first with
  | ok value => exact hnext value
  | error error => exact hfirst

theorem mapM {γ : Type} {action : γ → Except Error α} (h : ∀ item, FailsOnly kind (action item))
    (items : List γ) : FailsOnly kind (items.mapM action) := by
  induction items with
  | nil => trivial
  | cons item rest ih =>
    rw [List.mapM_cons]
    exact (h item).bind fun value => ih.bind fun values => trivial

end FailsOnly

namespace Builtin

theorem isFailure_keys (items : List Value) : FailsOnly Error.IsFailure (keys items) := by
  unfold keys
  split <;> trivial

theorem isFailure_members (name : String) (args : List Value) :
    FailsOnly Error.IsFailure (members name args) := by
  unfold members
  split
  case h_2 | h_3 => exact isFailure_keys _
  all_goals trivial

theorem isFailure_encodeText (text encoding : String) :
    FailsOnly Error.IsFailure (encodeText text encoding) := by
  unfold encodeText
  split
  · trivial
  · split
    · refine FailsOnly.bind (.mapM (fun c => ?_) _) fun bytes => trivial
      split <;> trivial
    · trivial

theorem isFailure_byte (name : String) (item : Value) :
    FailsOnly Error.IsFailure (byte name item) := by
  unfold byte
  split
  · split <;> trivial
  · trivial

theorem isFailure_bytesOf (name : String) (args : List Value) :
    FailsOnly Error.IsFailure (bytesOf name args) := by
  unfold bytesOf
  split
  case h_4 | h_5 => exact FailsOnly.bind (.mapM (isFailure_byte name) _) fun bytes => trivial
  case h_6 => exact isFailure_encodeText _ _
  all_goals trivial

/-- A routine that every host has comes to no error but a failure. -/
theorem isFailure_make (routine : Builtin) (args : List Value) :
    FailsOnly Error.IsFailure (routine.make args) := by
  cases routine with
  | set | frozenSet => exact FailsOnly.bind (isFailure_members _ args) fun members => trivial
  | bytes | byteArray => exact FailsOnly.bind (isFailure_bytesOf _ args) fun bytes => trivial
  | reconstructor => trivial
  | encode =>
    simp only [make]
    split
    · trivial
    · exact FailsOnly.bind (isFailure_encodeText _ _) fun bytes => trivial
    · trivial

end Builtin

namespace Environment

variable (env : Environment)

/-- Whether an error can come up during an execution: the failure of an instruction, or what the
host reports. -/
def Blames (error : Error) : Prop := error.IsFailure ∨ env.Reports error

theorem blames_host (routine : String) (args : List Value) (kwargs : List (String × Value)) :
    FailsOnly env.Blames (env.host routine args kwargs) := by
  cases hresult : env.host routine args kwargs with
  | ok value => trivial
  | error error => exact .inr (.inl ⟨routine, args, kwargs, hresult⟩)

theorem blames_make (routine : Builtin) (args : List Value) :
    FailsOnly env.Blames (routine.make args) :=
  (routine.isFailure_make args).imp fun _ => .inl

theorem blames_callPlain (callee : Value) (args : List Value) :
    FailsOnly env.Blames (callPlain env.host callee args) := by
  unfold callPlain
  split
  · trivial
  · exact env.blames_make _ args
  · exact env.blames_host _ args []
  · exact .inl trivial

theorem blames_reconstruct (className state : Value) :
    FailsOnly env.Blames (reconstruct env.host className state) := by
  fun_induction reconstruct env.host className state with
  | case1 _ _ _ _ _ ih | case3 _ _ _ _ _ ih => exact ih
  | _ => exact env.blames_callPlain _ _

theorem blames_run (callable : Callable) (args : List Value) (kwargs : List (String × Value)) :
    FailsOnly env.Blames (callable.run env.host args kwargs) := by
  unfold Callable.run
  split
  · exact env.blames_host _ args _
  · exact .inl trivial
  · split
    · exact env.blames_reconstruct _ _
    · exact .inl trivial
  · exact env.blames_make _ args

end Environment

/-! ## Actions -/

namespace Exec

variable {α β : Type} {env : Environment}

/-- Whether every error of an action is a failure, or one that the host reports. -/
def Blames (env : Environment) (action : Exec α) : Prop :=
  ∀ machine error after, action machine = .error error after → env.Blames error

namespace Blames

theorem pure (value : α) : Blames env (Pure.pure value) := by
  rintro machine error after ⟨⟩

theorem fail (failure : Failure) : Blames env (Exec.fail failure : Exec α) := by
  rintro machine error after ⟨⟩
  exact .inl trivial

theorem ofExcept {result : Except Error α} (h : FailsOnly env.Blames result) :
    Blames env (Exec.ofExcept result) := by
  cases result with
  | ok value => exact pure value
  | error error =>
    rintro machine _ after ⟨⟩
    exact h

/-- What comes after an action need only be looked at for results that the action can have. -/
theorem bind_of_results {action : Exec α} {next : α → Exec β} (first : Blames env action)
    (second : ∀ machine value middle, action machine = .ok value middle →
      Blames env (next value)) : Blames env (action >>= next) := by
  intro machine error after herror
  cases hresult : action machine with
  | ok value middle =>
    rw [bind_of_eq_ok hresult] at herror
    exact second machine value middle hresult middle error after herror
  | error error' middle =>
    rw [bind_of_eq_error hresult] at herror
    cases herror
    exact first machine error after hresult

theorem bind {action : Exec α} {next : α → Exec β} (first : Blames env action)
    (second : ∀ value, Blames env (next value)) : Blames env (action >>= next) :=
  first.bind_of_results fun _ value _ _ => second value

theorem mapM {γ : Type} {action : γ → Exec α} (h : ∀ item, Blames env (action item))
    (items : List γ) : Blames env (items.mapM action) := by
  induction items with
  | nil => exact pure []
  | cons item rest ih =>
    rw [List.mapM_cons]
    exact (h item).bind fun value => ih.bind fun values => pure _

theorem during {action : Exec α} (h : Blames env action) (operation : String) :
    Blames env (Exec.during operation action) := by
  intro machine error after herror
  unfold Exec.during at herror
  cases hresult : action machine with
  | ok value middle =>
    rw [hresult] at herror
    cases herror
  | error error' middle =>
    rw [hresult] at herror
    cases herror
    have hblames := h machine error' after hresult
    cases error' with
    | execution failure name? => cases name? <;> exact .inl trivial
    | stream _ => exact hblames
    | shape _ => exact hblames

theorem get : Blames env (MonadStateOf.get : Exec Machine) := by
  rintro machine error after ⟨⟩

theorem count (created : ℕ) : Blames env (Exec.count created) := by
  rintro machine error after ⟨⟩

theorem push (cell : Cell) : Blames env (Exec.push cell) := by
  rintro machine error after ⟨⟩

theorem mark : Blames env Exec.mark := by
  rintro machine error after ⟨⟩

theorem pop : Blames env Exec.pop := by
  intro machine error after herror
  unfold Exec.pop at herror
  split at herror
  · cases herror
  · cases herror
    exact .inl trivial

theorem popMark : Blames env Exec.popMark := by
  intro machine error after herror
  unfold Exec.popMark at herror
  split at herror
  · cases herror
  · cases herror
    exact .inl trivial

theorem popMany (number : ℕ) : Blames env (Exec.popMany number) := by
  induction number with
  | zero => exact pure []
  | succ number ih => exact pop.bind fun last => ih.bind fun cells => pure _

theorem alloc (content : Content) : Blames env (Exec.alloc content) := by
  rintro machine error after ⟨⟩

theorem pushNew (content : Content) : Blames env (Exec.pushNew content) :=
  (alloc content).bind push

theorem content (cell : Cell) : Blames env (Exec.content cell) := by
  rintro machine error after ⟨⟩

theorem kind (cell : Cell) : Blames env (Exec.kind cell) := by
  rintro machine error after ⟨⟩

theorem topKind : Blames env Exec.topKind := by
  intro machine error after herror
  unfold Exec.topKind at herror
  split at herror
  · cases herror
  · cases herror
    exact .inl trivial

theorem changeTop (change : Content → Content) : Blames env (Exec.changeTop change) := by
  intro machine error after herror
  unfold Exec.changeTop at herror
  split at herror
  · cases herror
  · split at herror <;> cases herror
  · cases herror
    exact .inl trivial

theorem shareTop : Blames env Exec.shareTop := by
  intro machine error after herror
  unfold Exec.shareTop at herror
  split at herror
  · cases herror
  · cases herror
  · cases herror
    exact .inl trivial

theorem value (cell : Cell) : Blames env (Exec.value cell) := by
  intro machine error after herror
  unfold Exec.value at herror
  split at herror
  · cases herror
  · cases herror
    exact .inl trivial

theorem fetch (index : ℕ) : Blames env (Exec.fetch index) := by
  refine get.bind fun machine => ?_
  split
  · exact push _
  · exact fail _

theorem memoize (index : ℕ) : Blames env (Exec.memoize index) := by
  refine shareTop.bind fun slot => ?_
  rintro machine error after ⟨⟩

theorem popText : Blames env Exec.popText := by
  refine pop.bind fun cell => (content cell).bind fun content => ?_
  split
  · exact pure _
  · exact fail _

theorem popArguments : Blames env Exec.popArguments := by
  refine pop.bind fun cell => (content cell).bind fun content => ?_
  split
  · exact pure _
  · exact fail _

/-- The name of a keyword argument is a text, or else that is a failure. -/
theorem keyword (machine : Machine) (pair : Cell × Cell) :
    FailsOnly env.Blames (machine.keyword pair) := by
  unfold Machine.keyword
  split
  · trivial
  · exact .inl trivial

theorem popKeywords : Blames env Exec.popKeywords := by
  refine pop.bind fun cell => (content cell).bind fun content => ?_
  split
  · exact get.bind fun machine => ofExcept (.mapM (keyword machine) _)
  · exact pure _
  · exact fail _

theorem popPairs : Blames env Exec.popPairs := by
  refine popMark.bind fun cells => ?_
  split
  · exact pure _
  · exact fail _

/-- A law of taking values apart, for what is to blame and for the results beside it. -/
theorem isLaw : EmbeddingLaw (fun _ => True) fun action fine => Blames env action ∧
    ∀ machine value after, action machine = .ok value after → fine value where
  pure h := ⟨pure _, by rintro machine value after ⟨⟩; exact h⟩
  bind {_ _ _ _ action _} hfirst hsecond := by
    refine ⟨hfirst.1.bind_of_results fun machine value middle hvalue =>
      (hsecond value (hfirst.2 machine value middle hvalue)).1, ?_⟩
    intro machine result after hresult
    cases hvalue : action machine with
    | ok value middle =>
      rw [bind_of_eq_ok hvalue] at hresult
      exact (hsecond value (hfirst.2 machine value middle hvalue)).2 middle result after hresult
    | error error middle =>
      rw [bind_of_eq_error hvalue] at hresult
      cases hresult
  enter levels := by
    refine ⟨?_, fun _ _ _ _ => trivial⟩
    cases levels with
    | zero => exact fail _
    | succ levels => exact (count 1).bind fun _ => pure _
  alloc _ := ⟨alloc _, by rintro machine value after ⟨⟩; trivial⟩

/-- Taking a value of the host apart comes to no error but a failure. -/
theorem embed (value : Value) : Blames env (Exec.embed value) := by
  have hatoms : value.AllAtoms fun _ => True := fun _ _ _ => trivial
  exact (isLaw.embed hatoms).1

theorem running : Blames env (Pure.pure Status.running) := pure _

theorem then_running {action : Exec α} (h : Blames env action) :
    Blames env (action >>= fun _ => Pure.pure Status.running) := h.bind fun _ => running

theorem push_running {action : Exec Cell} (h : Blames env action) :
    Blames env (action >>= fun cell => Exec.push cell >>= fun _ => Pure.pure Status.running) :=
  h.bind fun cell => (push cell).then_running

end Blames

/-! ## One law for each operation -/

variable (env) (opcode : Opcode)

theorem blames_callCell (callee : Cell) (args : List Cell) (kwargs : List (String × Cell)) :
    Blames env (callCell env opcode callee args kwargs) := by
  refine (Blames.content callee).bind fun content => ?_
  split
  · exact .alloc _
  · next callable =>
    have hkeyword : ∀ pair : String × Cell, Blames env (do return (pair.1, ← value pair.2)) :=
      fun pair => (Blames.value pair.2).bind fun _ => .pure _
    refine (Blames.mapM .value args).bind fun args => ?_
    refine (Blames.mapM hkeyword kwargs).bind fun kwargs => ?_
    exact (Blames.ofExcept (env.blames_run callable args _)).bind .embed
  · exact .fail _

theorem blames_persistent (id : Value) : Blames env (persistent env id) := by
  unfold persistent
  cases hloader : env.loader with
  | none => exact .fail _
  | some load =>
    refine (Blames.ofExcept ?_).bind .embed
    cases hresult : load id with
    | ok value => trivial
    | error error => exact .inr (.inr ⟨load, id, hloader, hresult⟩)

theorem blames_step (operation : Operation) : Blames env (step env opcode operation) := by
  cases operation with
  | stop => exact Blames.pop.bind fun cell => (Blames.value cell).bind fun _ => .pure _
  | skip => exact .running
  | mark => exact Blames.mark.then_running
  | popMark => exact Blames.popMark.then_running
  | pop =>
    refine Blames.get.bind fun machine => ?_
    split
    · exact Blames.popMark.then_running
    · exact Blames.pop.then_running
  | dup => exact Blames.shareTop.bind fun slot => (Blames.push _).then_running
  | fetch index => exact (Blames.fetch index).then_running
  | memoize index =>
    cases index with
    | some index => exact (Blames.memoize index).then_running
    | none => exact Blames.get.bind fun machine => (Blames.memoize _).then_running
  | push value => exact (Blames.push _).then_running
  | pushString value =>
    simp only [step]
    split
    · split
      · exact (Blames.push _).then_running
      · exact (Blames.fail _).then_running
    · exact (Blames.push _).then_running
  | tupleOf number => exact (Blames.popMany number).bind fun _ => (Blames.pushNew _).then_running
  | pushEmpty container => cases container <;> exact (Blames.pushNew _).then_running
  | collect container =>
    cases container with
    | dict => exact Blames.popPairs.bind fun _ => (Blames.pushNew _).then_running
    | tuple | list | frozenSet =>
      exact Blames.popMark.bind fun _ => (Blames.pushNew _).then_running
  | append =>
    refine Blames.pop.bind fun cell => Blames.topKind.bind fun kind => ?_
    split
    · exact (Blames.changeTop _).then_running
    · exact (Blames.kind cell).bind fun _ => (Blames.fail _).then_running
  | appends | addItems =>
    refine Blames.popMark.bind fun cells => Blames.topKind.bind fun kind => ?_
    split
    · exact (Blames.changeTop _).then_running
    · exact (Blames.fail _).then_running
  | setItem =>
    refine Blames.pop.bind fun value => Blames.pop.bind fun key => ?_
    refine Blames.topKind.bind fun kind => ?_
    split
    · exact (Blames.changeTop _).then_running
    · exact (Blames.changeTop _).then_running
    · exact (Blames.kind key).bind fun _ => (Blames.fail _).then_running
  | setItems =>
    refine Blames.popPairs.bind fun pairs => Blames.topKind.bind fun kind => ?_
    split
    · exact (Blames.changeTop _).then_running
    · exact (Blames.changeTop _).then_running
    · exact (Blames.fail _).then_running
  | constant name => exact (Blames.embed _).push_running
  | stackConstant =>
    exact Blames.popText.bind fun _ => Blames.popText.bind fun _ => (Blames.embed _).push_running
  | apply =>
    refine Blames.popArguments.bind fun args => Blames.pop.bind fun callee => ?_
    exact (blames_callCell env opcode callee args []).push_running
  | applyKeywords =>
    refine Blames.popKeywords.bind fun kwargs => Blames.popArguments.bind fun args => ?_
    refine Blames.pop.bind fun callee => ?_
    exact (blames_callCell env opcode callee args kwargs).push_running
  | applyConstant name =>
    refine Blames.popMark.bind fun args => Blames.bind (.embed _) fun callee => ?_
    exact (blames_callCell env opcode callee args []).push_running
  | applyBracket =>
    refine Blames.popMark.bind fun cells => ?_
    cases cells with
    | nil => exact (Blames.fail _).then_running
    | cons callee args => exact (blames_callCell env opcode callee args []).push_running
  | build =>
    refine Blames.pop.bind fun state => Blames.get.bind fun machine => Blames.topKind.bind
      fun kind => ?_
    split
    · exact (Blames.changeTop _).then_running
    · exact (Blames.changeTop _).then_running
    · exact (Blames.changeTop _).then_running
    · exact (Blames.kind state).bind fun _ => (Blames.fail _).then_running
  | persistent id => exact (blames_persistent env _).push_running
  | stackPersistent =>
    refine Blames.pop.bind fun cell => (Blames.value cell).bind fun id => ?_
    exact (blames_persistent env id).push_running
  | extension code =>
    simp only [step]
    split
    · exact (Blames.embed _).push_running
    · exact (Blames.fail _).then_running
  | nextBuffer =>
    refine Blames.get.bind fun machine => ?_
    split
    · exact (Blames.fail _).then_running
    · exact (Blames.fail _).then_running
    · refine Blames.bind ?_ fun _ => (Blames.push _).then_running
      rintro machine error after ⟨⟩
  | makeReadonly =>
    refine Blames.topKind.bind fun kind => ?_
    split
    · exact (Blames.changeTop _).then_running
    · exact .running
    · exact (Blames.fail _).then_running

/-- Whatever an instruction comes to that is no failure, the host has reported. -/
theorem blames_execute (instruction : Instruction) : Blames env (execute env instruction) :=
  (Blames.count 1).bind fun _ =>
    (blames_step env instruction.opcode instruction.operation).during instruction.name

end Exec

end Pickle
