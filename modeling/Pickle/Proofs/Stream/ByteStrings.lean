import Pickle.Proofs.Host.Latin1
import Pickle.Proofs.Machine.Doubling
import Pickle.Proofs.Machine.Padding

/-!
# Byte strings in protocols without them

The protocols before the third one have no opcode for byte strings.  They write a byte string as a
call of the host instead: of a constant that makes bytes, with the text that stands for them and the
name of Latin-1 (`encodingCall`).

On any machine, such a call comes to whatever the routine of the constant makes of its two arguments
(`Machine.run_encodingCall`).  So the bytes come back, all of them and whichever they are, and a
character that is no byte is an error (`byte_strings_load_back`).  What is written to a feed is
loaded to the same (`load_encodeAll`).
-/

namespace Pickle

/-- Calls a constant with a text and the name of an encoding. -/
def encodingCall (maker : QualifiedName) (text encoding : Counted String) : List Instruction :=
  [⟨.global, maker⟩, ⟨.binUnicode, text⟩, ⟨.binUnicode, encoding⟩, ⟨.tuple2, ()⟩, ⟨.reduce, ()⟩]

theorem encodingCall_notStop {maker : QualifiedName} {text encoding : Counted String} :
    ∀ instruction ∈ encodingCall maker text encoding, instruction.operation ≠ .stop := by
  simp only [encodingCall, List.forall_mem_cons]
  refine ⟨?_, ?_, ?_, ?_, ?_, by simp⟩
  all_goals exact Operation.noConfusion

/-! ## Running a call -/

namespace Machine

variable {env : Environment} {machine : Machine}

theorem execute_constant {name : QualifiedName} {value : Atom}
    (h : env.constants.resolve name = .atom value) :
    Exec.execute env ⟨.global, name⟩ machine = .ok .running
      { machine with
        stack := .atom value :: machine.stack
        created := machine.created + 2 } := by
  refine Exec.execute_of_step env ⟨.global, name⟩ ?_
  have hconstant : Exec.constant env name { machine with created := machine.created + 1 } =
      .ok (.atom value) { machine with created := machine.created + 2 } := by
    rw [Exec.constant, h]
    rfl
  change Exec.step env .global (.constant name) _ = _
  rw [Exec.step, Exec.bind_of_eq_ok hconstant]
  rfl

theorem execute_text (text : Counted String) :
    Exec.execute env ⟨.binUnicode, text⟩ machine = .ok .running
      { machine with
        stack := .atom (.scalar (.str text.payload)) :: machine.stack
        created := machine.created + 1 } := rfl

end Machine

/-- A constant is called with a text and the name of an encoding, and what its routine makes of
these is the result. -/
theorem Machine.run_encodingCall {env : Environment} (machine : Machine) {maker : QualifiedName}
    {text encoding : Counted String} {callable : Callable} {result : Except Error Atom}
    (hmaker : env.constants.resolve maker = .atom (.callable callable))
    (hrun : callable.run env.host [.str text.payload, .str encoding.payload] [] =
      result.map Value.atom) :
    machine.run env (encodingCall maker text encoding ++ [⟨.stop, ()⟩]) =
      (result.map Value.atom).mapError (Error.during "REDUCE") := by
  let args : List Cell :=
    [.atom (.scalar (.str text.payload)), .atom (.scalar (.str encoding.payload))]
  -- The machine as the call finds it: the maker below the pair of text and encoding.
  let paired : Machine :=
    { machine with
      stack := .ref machine.slots.size :: .atom (.callable callable) :: machine.stack
      slots := machine.slots.push (.tuple args)
      created := machine.created + 5 }
  let called : Machine := { paired with stack := machine.stack, created := paired.created + 1 }
  have hpaired : RunsAbove env 0 machine
      [⟨.global, maker⟩, ⟨.binUnicode, text⟩, ⟨.binUnicode, encoding⟩, ⟨.tuple2, ()⟩] paired :=
    .cons (execute_constant hmaker) (Nat.zero_le _) <|
      .cons (execute_text text) (Nat.zero_le _) <|
      .cons (execute_text encoding) (Nat.zero_le _) <|
      .cons (execute_tuple2 rfl) (Nat.zero_le _) (.nil _)
  have hargs : paired.slot machine.slots.size = .tuple args := by simp [slot, paired]
  have hvalues : args.mapM Exec.value called =
      .ok [.str text.payload, .str encoding.payload] called :=
    Exec.mapM_value_of_forall₂ (.cons (value_atom _ _) (.cons (value_atom _ _) .nil))
  have hpushed : machine.run env (encodingCall maker text encoding ++ [⟨.stop, ()⟩]) =
      paired.run env [⟨.reduce, ()⟩, ⟨.stop, ()⟩] := hpaired.run_append _
  rw [hpushed, run]
  cases result with
  | ok value =>
    have hcall : Exec.callCell env .reduce (.atom (.callable callable)) args [] called =
        .ok (.atom value) { called with created := called.created + 1 } :=
      Exec.callCell_of_run hvalues hrun
    rw [execute_reduce rfl hargs hcall]
    exact run_stop rfl (value_atom _ _)
  | error error =>
    have hcall : Exec.callCell env .reduce (.atom (.callable callable)) args [] called =
        .error error called := Exec.callCell_of_run_error hvalues hrun
    rw [execute_reduce_error rfl hargs hcall]
    rfl

/-! ## Constants that make bytes -/

namespace Builtin.MakesBytes

variable {maker : QualifiedName} {make : Bytes → Atom} {text encoding : Counted String}

/-- With a name of Latin-1, a call of such a constant comes to what the encoder comes to. -/
theorem run_encodingCall (h : MakesBytes maker make) (hencoding : IsLatinName encoding.payload)
    (machine : Machine) :
    machine.run ({} : Options).environment (encodingCall maker text encoding ++ [⟨.stop, ()⟩]) =
      (((latin1 text.payload).map make).map Value.atom).mapError (Error.during "REDUCE") := by
  obtain ⟨callable, hmaker, hcallable⟩ := h.exists_callable
  refine machine.run_encodingCall hmaker ((hcallable _ _ _ hencoding).trans ?_)
  cases latin1 text.payload <;> rfl

/-- The constants that make bytes have names that can stand on lines. -/
theorem isBare (h : MakesBytes maker make) :
    Line.IsBare maker.namespace_ ∧ Line.IsBare maker.name := by
  cases h with
  | encode => decide
  | bytes hmodule | byteArray hmodule =>
    simp only [Constants.builtinModules, List.mem_cons, List.not_mem_nil, or_false] at hmodule
    obtain rfl | rfl := hmodule
    all_goals decide

/-- A call of such a constant can be written down if its texts can. -/
theorem isWritable (h : MakesBytes maker make)
    (hcounted : ∀ counted ∈ [text, encoding],
      counted.length = counted.payload.utf8ByteSize ∧ counted.length < 2 ^ 32) :
    ∀ instruction ∈
      (⟨.proto, (2 : UInt8)⟩ :: encodingCall maker text encoding ++ [⟨.stop, ()⟩] :
        List Instruction),
      Decoder.IsWritable 2 instruction := by
  intro instruction hinstruction
  simp only [encodingCall, List.cons_append, List.nil_append, List.mem_cons, List.not_mem_nil,
    or_false] at hinstruction
  obtain rfl | rfl | rfl | rfl | rfl | rfl | rfl := hinstruction
  · exact ⟨rfl, by simp, trivial⟩
  · exact ⟨rfl, by simp, h.isBare⟩
  · exact ⟨rfl, by simp, hcounted text (by simp)⟩
  · exact ⟨rfl, by simp, hcounted encoding (by simp)⟩
  all_goals exact ⟨rfl, by simp, trivial⟩

end Builtin.MakesBytes

/-! ## Loading -/

/-- A pickle that is written out, beginning with the announcement of its version, is loaded to what
it is run to. -/
theorem load_encodeAll {options : Options} {version : UInt8} {body : List Instruction}
    (hprotocol : options.protocol = none) (hversion : version.toNat ≤ Opcode.highestVersion)
    (hbody : ∀ instruction ∈ body, instruction.operation ≠ .stop)
    (hwritable : ∀ instruction ∈ (⟨.proto, version⟩ :: body ++ [⟨.stop, ()⟩] : List Instruction),
      Decoder.IsWritable version.toNat instruction) :
    load (Feed.ofBytes (Instruction.encodeAll (⟨.proto, version⟩ :: body ++ [⟨.stop, ()⟩])))
        options =
      run (⟨.proto, version⟩ :: body ++ [⟨.stop, ()⟩]) options := by
  have hbytes := Feed.bytes_ofBytes
    (Instruction.encodeAll (⟨.proto, version⟩ :: body ++ [⟨.stop, ()⟩]))
  have hat := Source.isAt_ofFeed
    (Feed.ofBytes (Instruction.encodeAll (⟨.proto, version⟩ :: body ++ [⟨.stop, ()⟩])))
  rw [hbytes] at hat
  obtain ⟨_, after, last, hyields, hlast, rfl⟩ :=
    Decoder.collect_eq_ok_iff.1 (Decoder.collect_of_isAt hwritable hat [])
  have hfinish := Decoder.finish_of_finished (hyields.failed rfl) hlast
  have hnone : ∀ instruction ∈ (⟨.proto, version⟩ :: body : List Instruction),
      instruction.operation ≠ .stop := by
    rintro instruction (_ | ⟨_, hinstruction⟩)
    · exact Operation.noConfusion
    · exact hbody instruction hinstruction
  exact load_of_yields rfl hversion (Options.readsBy_of_announced hprotocol hbytes) hyields hfinish
    hnone

/-- Byte strings that are written as calls come back.

A constant that makes bytes is called with a text and a name of Latin-1.  If the text stands for
bytes, then what the constant makes of just these bytes is the result: a byte string or, marked as
Latin-1, a byte array.  If any characters of the text are no bytes, then the arguments are not
valid, and the first such character is named.

If the texts can be written down at all, the pickle of the second version that consists of this call
is loaded to the same. -/
theorem byte_strings_load_back {maker : QualifiedName} {make : Bytes → Atom}
    (h : Builtin.MakesBytes maker make) (text encoding : Counted String)
    (hencoding : IsLatinName encoding.payload) :
    let call := encodingCall maker text encoding
    (∀ bytes, text.payload = latinText bytes →
        run (call ++ [⟨.stop, ()⟩]) {} = .ok (.atom (make bytes))) ∧
      (∀ c, (text.payload.toList.find? fun c => decide (256 ≤ c.toNat)) = some c →
        run (call ++ [⟨.stop, ()⟩]) {} =
          .error (.execution (.invalidArguments (.notLatin1 c)) (some "REDUCE"))) ∧
      ((∀ counted ∈ [text, encoding],
          counted.length = counted.payload.utf8ByteSize ∧ counted.length < 2 ^ 32) →
        load (Feed.ofBytes
            (Instruction.encodeAll (⟨.proto, (2 : UInt8)⟩ :: call ++ [⟨.stop, ()⟩]))) {} =
          run (call ++ [⟨.stop, ()⟩]) {}) := by
  intro call
  let options : Options := {}
  refine ⟨fun bytes hbytes => ?_, fun c hc => ?_, fun hcounted => ?_⟩
  · rw [run, h.run_encodingCall hencoding, hbytes, Builtin.latin1_latinText]
    rfl
  · rw [run, h.run_encodingCall hencoding, Builtin.latin1_of_find? hc]
    rfl
  · have hload : load (Feed.ofBytes
        (Instruction.encodeAll (⟨.proto, (2 : UInt8)⟩ :: call ++ [⟨.stop, ()⟩]))) options =
          run (⟨.proto, (2 : UInt8)⟩ :: call ++ [⟨.stop, ()⟩]) options :=
      load_encodeAll rfl (by decide) encodingCall_notStop (h.isWritable hcounted)
    -- The announcement is counted, but what the call comes to does not depend on the machine.
    have hskip : run (⟨.proto, (2 : UInt8)⟩ :: call ++ [⟨.stop, ()⟩]) options =
        Machine.run options.environment { options.machine with created := 1 }
          (call ++ [⟨.stop, ()⟩]) := rfl
    rw [hload, hskip, h.run_encodingCall hencoding, run, h.run_encodingCall hencoding]

/-- A byte array of three bytes, whose text is written as five, and a text with two characters that
are no bytes. -/
theorem byte_strings_load_back_array :
    let encoding : Counted String := ⟨7, "Latin-1"⟩
    let call := fun text => encodingCall ⟨"__builtin__", "bytearray"⟩ text encoding
    let three : Counted String := ⟨5, "Aéÿ"⟩
    (three.payload = latinText [0x41, 0xe9, 0xff] ∧ IsLatinName encoding.payload) ∧
      run (call three ++ [⟨.stop, ()⟩]) {} =
        .ok (.atom (.byteArray { bytes := [0x41, 0xe9, 0xff], encoding := .latin1 })) ∧
      load (Feed.ofBytes
          (Instruction.encodeAll (⟨.proto, (2 : UInt8)⟩ :: call three ++ [⟨.stop, ()⟩]))) {} =
        .ok (.atom (.byteArray { bytes := [0x41, 0xe9, 0xff], encoding := .latin1 })) ∧
      run (call ⟨5, "éĀā"⟩ ++ [⟨.stop, ()⟩]) {} =
        .error (.execution (.invalidArguments (.notLatin1 'Ā')) (some "REDUCE")) := by
  intro encoding call three
  have hname : IsLatinName encoding.payload := ⟨"latin-1", by decide, by simp [IsCaseOf, encoding]⟩
  have hmaker : Builtin.MakesBytes ⟨"__builtin__", "bytearray"⟩ _ := .byteArray (by decide)
  have hthree : three.payload = latinText [0x41, 0xe9, 0xff] := by decide
  obtain ⟨hbytes, -, hload⟩ := byte_strings_load_back hmaker three encoding hname
  obtain ⟨-, herror, -⟩ := byte_strings_load_back hmaker ⟨5, "éĀā"⟩ encoding hname
  have hrun := hbytes _ hthree
  exact ⟨⟨hthree, hname⟩, hrun, (hload (by decide)).trans hrun, herror 'Ā' (by decide)⟩

end Pickle
