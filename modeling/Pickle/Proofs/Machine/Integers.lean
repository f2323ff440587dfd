import Pickle.Proofs.Machine.Atoms
import Pickle.Proofs.Machine.Padding

/-!
# Integers

Seven opcodes spell integers, in decimal or in bytes, and most integers can be spelled by several of
them.  What is pushed is one and the same for all spellings, `Scalar.ofInt`: short if it fits, long if
not.

Nothing that happens afterwards makes another integer (`Machine.allAtoms_of_run`), so an integer in
the result has this form, whatever it went through, and is one that the program spelled.  And as runs
do not depend on what was pushed how, programs and pickles that spell the same integers have the same
result (`integers_normal`).
-/

namespace Pickle

/-! ## Spellings -/

/-- The integer that an opcode spells with its argument. -/
def Opcode.integer? : (opcode : Opcode) → opcode.layout.Argument → Option ℤ
  | .int, .int value => some value
  | .long, value => some value
  | .long1, value => some value.payload
  | .long4, value => some value.payload
  | .binInt, value => some (Int32.toInt value)
  | .binInt1, value => some (UInt8.toNat value)
  | .binInt2, value => some (UInt16.toNat value)
  | _, _ => none

/-- The integer that an instruction spells. -/
def Instruction.integer? (instruction : Instruction) : Option ℤ :=
  instruction.opcode.integer? instruction.argument

/-- An integer is found in either form. -/
theorem Atom.integer?_ofInt (value : ℤ) : (Atom.scalar (.ofInt value)).integer? = some value := by
  unfold Scalar.ofInt
  split
  · next hfits =>
    unfold Scalar.FitsShort at hfits
    exact congrArg some (Int64.toInt_ofInt_of_le (by omega) (by omega))
  · rfl

namespace Instruction

variable {instruction first second : Instruction} {value : ℤ}

theorem operation_of_integer? (h : instruction.integer? = some value) :
    instruction.operation = .pushInt value := by
  obtain ⟨opcode, argument⟩ := instruction
  cases opcode
  case int =>
    cases argument <;> cases h
    rfl
  case long | long1 | long4 | binInt | binInt1 | binInt2 =>
    cases h
    rfl
  all_goals cases h

/-- An integer that is pushed was spelled, and is in its one form. -/
theorem integer?_of_push {atom : Atom} (h : instruction.operation = .push atom)
    (hatom : atom.integer? = some value) :
    atom = .scalar (.ofInt value) ∧ instruction.integer? = some value := by
  have hpushed : ∀ found : ℤ, Operation.pushInt found = .push atom →
      atom = .scalar (.ofInt value) ∧ some found = some value := by
    rintro found ⟨⟩
    rw [Atom.integer?_ofInt] at hatom
    exact ⟨by rw [Option.some.inj hatom], hatom⟩
  obtain ⟨opcode, argument⟩ := instruction
  cases opcode
  case int =>
    cases argument with
    | bool found =>
      cases h
      cases hatom
    | int found => exact hpushed found h
  case long | long1 | long4 | binInt | binInt1 | binInt2 => exact hpushed _ h
  -- What else is pushed is no integer.
  all_goals cases h <;> cases hatom

/-- Whether two instructions spell the same integer, or do nothing both of them, or are the same.
Frames differ in length where their contents are spelled differently. -/
inductive Respells : Instruction → Instruction → Prop
  | same (instruction : Instruction) : Respells instruction instruction
  | integer {first second : Instruction} {value : ℤ} (hfirst : first.integer? = some value)
      (hsecond : second.integer? = some value) : Respells first second
  | skip {first second : Instruction} (hfirst : first.operation = .skip)
      (hsecond : second.operation = .skip) : Respells first second

variable (env : Environment) (machine : Machine)

theorem execute_of_integer? (h : instruction.integer? = some value) :
    Exec.execute env instruction machine = .ok .running
      { machine with
        stack := .atom (.scalar (.ofInt value)) :: machine.stack
        created := machine.created + 1 } := by
  refine Exec.execute_of_step env instruction ?_
  rw [operation_of_integer? h]
  rfl

theorem execute_of_skip (h : instruction.operation = .skip) :
    Exec.execute env instruction machine =
      .ok .running { machine with created := machine.created + 1 } := by
  refine Exec.execute_of_step env instruction ?_
  rw [h]
  rfl

/-- Different spellings have the same effect on every machine. -/
theorem Respells.execute_eq (h : Respells first second) :
    Exec.execute env first machine = Exec.execute env second machine := by
  cases h with
  | same => rfl
  | integer hfirst hsecond =>
    rw [execute_of_integer? env machine hfirst, execute_of_integer? env machine hsecond]
  | skip hfirst hsecond =>
    rw [execute_of_skip env machine hfirst, execute_of_skip env machine hsecond]

end Instruction

open Instruction (Respells)

/-- Programs that differ in spellings run alike. -/
theorem Machine.run_eq_of_respells {env : Environment} {program respelled : List Instruction}
    (h : List.Forall₂ Respells program respelled) (machine : Machine) :
    machine.run env program = machine.run env respelled := by
  induction h generalizing machine with
  | nil => rfl
  | @cons first second program respelled hfirst _ ih =>
    rw [run_cons, run_cons]
    unfold Exec.outcome
    rw [hfirst.execute_eq env machine]
    cases Exec.execute env second machine with
    | error error after => rfl
    | ok status after =>
      cases status with
      | halted value => rfl
      | running => exact ih after

/-! ## Integers in results -/

/-- Whether an atom is no integer, or one in its one form that a program spells. -/
def Atom.IsNormal (program : List Instruction) (atom : Atom) : Prop :=
  ∀ value, atom.integer? = some value → atom = .scalar (.ofInt value) ∧
    ∃ instruction ∈ program, instruction.integer? = some value

/-- Whether all integers in a value are normal, wherever they are, and come from a program: only those
that do not fit the short form are in the long one, and an instruction spells each of them. -/
structure Value.HasNormalIntegers (program : List Instruction) (value : Value) : Prop where
  long (levels : ℕ) (integer : ℤ) (h : value.Encloses levels (.scalar (.long integer))) :
    ¬ Scalar.FitsShort integer ∧ ∃ instruction ∈ program, instruction.integer? = some integer
  short (levels : ℕ) (integer : Int64) (h : value.Encloses levels (.scalar (.short integer))) :
    ∃ instruction ∈ program, instruction.integer? = some integer.toInt

theorem Scalar.not_fitsShort_of_ofInt {integer : ℤ} (h : .long integer = ofInt integer) :
    ¬ FitsShort integer := by
  intro hfits
  rw [ofInt, if_pos hfits] at h
  cases h

theorem Value.AllAtoms.hasNormalIntegers {program : List Instruction} {value : Value}
    (h : value.AllAtoms (Atom.IsNormal program)) : value.HasNormalIntegers program where
  long levels integer hfound := by
    obtain ⟨hform, hspelled⟩ := h levels _ hfound integer rfl
    exact ⟨Scalar.not_fitsShort_of_ofInt (Atom.scalar.inj hform), hspelled⟩
  short levels integer hfound := (h levels _ hfound integer.toInt rfl).2

/-- The default constants are single nodes, and as they are no keys they are no integers either. -/
theorem Constants.allAtoms_resolve_default {good : Atom → Prop} (hgood : Atom.AllOthers good)
    (name : QualifiedName) : ((default.overlay empty).resolve name).AllAtoms good := by
  have hnodes := nodes_resolve_default name
  have hkey : ((default.overlay empty).resolve name).toKey?.isNone = true :=
    of_resolve (fun value => value.toKey?.isNone = true) (by decide) name rfl
  refine .of_parts (fun part hpart => ?_) fun atom hatom => hgood atom ?_
  · have hless := Value.nodes_lt_of_mem_parts hpart
    have hpos := part.nodes_pos
    omega
  · rw [hatom] at hkey
    cases atom with
    | scalar value => cases hkey
    | byteArray _ | class_ _ | callable _ => rfl

theorem hasNormalIntegers_of_run {program : List Instruction} {decodesStrings allowsTrailing : Bool}
    {protocol : Option UInt8} {buffers : Option (List Bytes)} {value : Value}
    (h : run program { decodesStrings, protocol, buffers, allowsTrailing } = .ok value) :
    value.HasNormalIntegers program := by
  have hgood : Atom.AllOthers (Atom.IsNormal program) := fun atom hatom integer hinteger => by
    rw [hatom] at hinteger
    cases hinteger
  refine (Machine.allAtoms_of_run hgood (Options.isBare_environment decodesStrings protocol
    allowsTrailing) (Constants.allAtoms_resolve_default hgood) ?_
    (Machine.allAtoms_initial _ buffers) h).hasNormalIntegers
  intro instruction hinstruction atom hpush integer hinteger
  obtain ⟨hform, hspelled⟩ := Instruction.integer?_of_push hpush hinteger
  exact ⟨hform, instruction, hinstruction, hspelled⟩

theorem Instruction.Respells.notStop {body respelled : List Instruction}
    (h : List.Forall₂ Respells body respelled)
    (hbody : ∀ instruction ∈ body, instruction.operation ≠ .stop) :
    ∀ instruction ∈ respelled, instruction.operation ≠ .stop := by
  induction h with
  | nil => simp
  | @cons first second body respelled hfirst _ ih =>
    obtain ⟨hstop, hrest⟩ := List.forall_mem_cons.1 hbody
    refine List.forall_mem_cons.2 ⟨?_, ih hrest⟩
    cases hfirst with
    | same => exact hstop
    | integer _ hsecond =>
      rw [operation_of_integer? hsecond]
      rintro ⟨⟩
    | skip _ hsecond =>
      rw [hsecond]
      rintro ⟨⟩

/-- Integers have one form, whichever opcode spells them, in all runs with default constants and
without extensions or a loader.

What an opcode spells is pushed in this form.  Whatever a run comes to, all integers in it are in this
form, wherever they are, and the program has an instruction that spells each; so it is when a feed is
loaded, with the instructions that are decoded.

So it makes no difference how an integer is spelled.  Programs that differ in nothing else come to the
same, a value or an error, and so do feeds that are decoded to such pickles, whichever protocols
they are in. -/
theorem integers_normal (decodesStrings allowsTrailing : Bool) (buffers : Option (List Bytes)) :
    let options (protocol : Option UInt8) : Options :=
      { decodesStrings, protocol, buffers, allowsTrailing }
    (∀ instruction integer protocol, instruction.integer? = some integer →
      run [instruction, ⟨.stop, ()⟩] (options protocol) = .ok (.scalar (.ofInt integer))) ∧
    (∀ program protocol value, run program (options protocol) = .ok value →
      value.HasNormalIntegers program) ∧
    (∀ feed protocol value, load feed (options protocol) = .ok value →
      ∃ decoder program after, Decoder.ofFeed feed protocol = .ok decoder ∧
        decoder.Yields program after ∧ value.HasNormalIntegers program) ∧
    (∀ program respelled protocol, List.Forall₂ Respells program respelled →
      run program (options protocol) = run respelled (options protocol)) ∧
    ∀ feed other protocol protocol' body respelled,
      decodeAll feed protocol = .ok (body ++ [⟨.stop, ()⟩]) →
      decodeAll other protocol' = .ok (respelled ++ [⟨.stop, ()⟩]) →
      (∀ instruction ∈ body, instruction.operation ≠ .stop) →
      List.Forall₂ Respells body respelled →
        load feed (options protocol) = load other (options protocol') := by
  intro options
  refine ⟨?_, ?_, ?_, ?_, ?_⟩
  · intro instruction integer protocol h
    rw [run, Machine.run, Instruction.execute_of_integer? _ _ h]
    rfl
  · exact fun program protocol value => hasNormalIntegers_of_run
  · intro feed protocol value h
    obtain ⟨decoder, program, after, hdecoder, hyields, hrun⟩ := exists_run_of_load h
    exact ⟨decoder, program, after, hdecoder, hyields, hasNormalIntegers_of_run hrun⟩
  · exact fun program respelled protocol h => Machine.run_eq_of_respells h _
  · intro feed other protocol protocol' body respelled hfeed hother hbody h
    rw [load_of_decodeAll hbody hfeed, load_of_decodeAll (Respells.notStop h hbody) hother]
    exact Machine.run_eq_of_respells (List.rel_append h (.cons (.same _) .nil)) _

/-- A dict with a key that does not fit, spelled in as few bytes as possible, in more of them, and in
decimal. -/
theorem integers_normal_dict :
    let spelled (key item : Instruction) : List Instruction :=
      [⟨.emptyDict, ()⟩, key, item, ⟨.setItem, ()⟩]
    let narrow := spelled ⟨.long1, ⟨9, 2 ^ 63⟩⟩ ⟨.binInt1, (7 : UInt8)⟩
    let decimal := spelled ⟨.long, (2 ^ 63 : ℤ)⟩ ⟨.int, .int 7⟩
    let narrowFeed := Feed.ofBytes
      [0x80, 2, 0x7d, 0x8a, 9, 0, 0, 0, 0, 0, 0, 0, 0x80, 0, 0x4b, 7, 0x73, 0x2e]
    let wideFeed := Feed.ofBytes
      [0x80, 2, 0x7d, 0x8b, 9, 0, 0, 0, 0, 0, 0, 0, 0, 0, 0, 0x80, 0, 0x4d, 7, 0, 0x73, 0x2e]
    let value : Value := .dict [(.scalar (.long (2 ^ 63)), .scalar (.short 7))]
    load narrowFeed {} = .ok value ∧ load wideFeed {} = .ok value ∧
      run (narrow ++ [⟨.stop, ()⟩]) {} = .ok value ∧
      run (decimal ++ [⟨.stop, ()⟩]) {} = .ok value ∧
      value.HasNormalIntegers (decimal ++ [⟨.stop, ()⟩]) := by
  intro spelled narrow decimal narrowFeed wideFeed value
  let wide := spelled ⟨.long4, ⟨9, 2 ^ 63⟩⟩ ⟨.binInt2, (7 : UInt16)⟩
  let proto : Instruction := ⟨.proto, (2 : UInt8)⟩
  obtain ⟨-, hnormal, -, hrun, hload⟩ := integers_normal false false none
  have hnarrow : decodeAll narrowFeed none = .ok (proto :: narrow ++ [⟨.stop, ()⟩]) := by cbv
  have hwide : decodeAll wideFeed none = .ok (proto :: wide ++ [⟨.stop, ()⟩]) := by cbv
  have hwider : List.Forall₂ Respells (proto :: narrow) (proto :: wide) :=
    .cons (.same _) (.cons (.same _) (.cons (.integer rfl rfl) (.cons (.integer rfl rfl)
      (.cons (.same _) .nil))))
  have hdecimal : List.Forall₂ Respells (narrow ++ [⟨.stop, ()⟩]) (decimal ++ [⟨.stop, ()⟩]) :=
    .cons (.same _) (.cons (.integer rfl rfl) (.cons (.integer rfl rfl) (.cons (.same _)
      (.cons (.same _) .nil))))
  have hloaded : load narrowFeed {} = .ok value := by cbv
  have hvalue : run (narrow ++ [⟨.stop, ()⟩]) {} = .ok value := by cbv
  have hrespelled : run (decimal ++ [⟨.stop, ()⟩]) {} = .ok value := by
    rw [← hvalue]
    exact (hrun _ _ none hdecimal).symm
  refine ⟨hloaded, ?_, hvalue, hrespelled, hnormal _ none value hrespelled⟩
  rw [← hloaded]
  -- The feeds are not compared value by value: they are two spellings of one program.
  exact (hload narrowFeed wideFeed none none (proto :: narrow) (proto :: wide) hnarrow hwide
    (by decide) hwider).symm

end Pickle
