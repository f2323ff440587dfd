import Mathlib
import Pickle.Proofs.Machine.Calls
import Pickle.Proofs.Stream.Headerless

/-!
# Machines that are fed by decoders

A machine asks a decoder for one instruction after another and is done at the first stop.  So if
it comes to a value, the decoder has given a pickle: instructions of which just the last one stops,
and which the machine runs to the same value (`Decoder.exists_stop_of_runDecoder`).  If the decoder
gives a pickle, conversely, the machine comes to what it runs the pickle to
(`Decoder.runDecoder_of_yields`).

With the check that no byte follows, this is what loading comes to (`exists_run_of_load`,
`load_eq_run`).
-/

namespace Pickle

open Source

/-- There is only one instruction that stops. -/
theorem Instruction.eq_stop {instruction : Instruction} (h : instruction.operation = .stop) :
    instruction = ⟨.stop, ()⟩ := by
  obtain ⟨opcode, argument⟩ := instruction
  cases opcode with
  | stop => rfl
  | int =>
    cases argument with
    | bool value => cases h
    | int value => cases h
  | _ => cases h

namespace Decoder

/-! ## Decoders that have not failed -/

/-- Where instructions come to an end without an error, no byte follows. -/
theorem finish_of_finished {decoder last : Decoder} (hfailed : decoder.failed = false)
    (h : decoder.next = (.finished, last)) : decoder.finish.1 = .ok () := by
  rw [next, if_neg (by simp [hfailed])] at h
  split at h
  · cases h
  · next rest hrun =>
    have hend : Read.atEnd decoder.source = .ok () rest :=
      Read.bind_of_eq_ok (Read.nextByte_of_instruction hrun)
    rw [finish, hend]
  · cases h

/-- A decoder that gives instructions has not failed and does not fail. -/
theorem Yields.failed {start after : Decoder} {program : List Instruction}
    (h : start.Yields program after) (hfailed : start.failed = false) : after.failed = false := by
  induction h with
  | nil => exact hfailed
  | @cons decoder middle after instruction rest hnext _ ih =>
    obtain ⟨source, version, failed⟩ := decoder
    obtain rfl : failed = false := hfailed
    refine ih ?_
    rw [(instruction_of_next hnext).2]

theorem failed_of_ofFeed {feed : Feed} {version : Option UInt8} {decoder : Decoder}
    (h : ofFeed feed version = .ok decoder) : decoder.failed = false := by
  unfold ofFeed ofSource at h
  split at h
  · split at h
    · cases h
      rfl
    · cases h
  · split at h
    · split at h
      · cases h
        rfl
      · cases h
    · cases h

/-! ## Running -/

variable {env : Environment} {body : List Instruction} {start after : Decoder}

/-- A machine that gets its instructions from a decoder comes to a value at the first stop among
them, and running the instructions that it got comes to the same value. -/
theorem exists_stop_of_runDecoder {machine : Machine} {value : Value}
    (h : machine.runDecoder env start = .ok (value, after)) :
    ∃ body before, start.Yields body before ∧ before.next = (.instruction ⟨.stop, ()⟩, after) ∧
      (∀ instruction ∈ body, instruction.operation ≠ .stop) ∧
      machine.run env (body ++ [⟨.stop, ()⟩]) = .ok value := by
  fun_induction Machine.runDecoder env machine start with
  | case1 => cases h
  | case2 => cases h
  | case3 machine decoder instruction middle hnext value machine' hexecute =>
    cases h
    have hstop : instruction.operation = .stop := by
      by_contra hne
      cases Exec.running_of_execute hne hexecute
    obtain rfl := Instruction.eq_stop hstop
    refine ⟨[], decoder, .nil _, hnext, by simp, ?_⟩
    rw [List.nil_append, Machine.run, hexecute]
  | case4 machine decoder instruction middle hnext machine' hexecute ih =>
    obtain ⟨body, before, hyields, hbefore, hbody, hrun⟩ := ih h
    refine ⟨instruction :: body, before, .cons hnext hyields, hbefore, ?_, ?_⟩
    · rintro other (_ | ⟨_, hother⟩)
      · intro hstop
        obtain ⟨_, ⟨⟩, -⟩ := Exec.halted_of_execute hstop hexecute
      · exact hbody other hother
    · rw [List.cons_append, Machine.run, hexecute]
      exact hrun
  | case5 => cases h

/-- A machine that gets the instructions of a pickle from a decoder runs them, and leaves the
decoder at their end. -/
theorem runDecoder_of_yields (machine : Machine)
    (hbody : ∀ instruction ∈ body, instruction.operation ≠ .stop)
    (hyields : start.Yields (body ++ [⟨.stop, ()⟩]) after) :
    machine.runDecoder env start =
      (machine.run env (body ++ [⟨.stop, ()⟩])).map fun value => (value, after) := by
  induction body generalizing machine start with
  | nil =>
    cases hyields with
    | cons hnext hrest =>
      cases hrest
      rw [Machine.runDecoder_eq, hnext, List.nil_append, Machine.run]
      cases hexecute : Exec.execute env ⟨.stop, ()⟩ machine with
      | error error machine' => simp only [hexecute]; rfl
      | ok status machine' =>
        obtain ⟨value, rfl, -⟩ := Exec.halted_of_execute rfl hexecute
        simp only [hexecute]
        rfl
  | cons instruction body ih =>
    cases hyields with
    | cons hnext hrest =>
      rw [Machine.runDecoder_eq, hnext, List.cons_append, Machine.run]
      cases hexecute : Exec.execute env instruction machine with
      | error error machine' => simp only [hexecute]; rfl
      | ok status machine' =>
        obtain rfl := Exec.running_of_execute (hbody instruction List.mem_cons_self) hexecute
        simp only [hexecute]
        exact ih machine' (fun other hother => hbody other (List.mem_cons_of_mem _ hother)) hrest

end Decoder

/-! ## Loading -/

/-- A feed that is loaded gives the instructions of a program with the same value. -/
theorem exists_run_of_load {feed : Feed} {options : Options} {value : Value}
    (h : load feed options = .ok value) :
    ∃ decoder program after, Decoder.ofFeed feed options.protocol = .ok decoder ∧
      decoder.Yields program after ∧ run program options = .ok value := by
  cases hdecoder : Decoder.ofFeed feed options.protocol with
  | error error =>
    rw [load, hdecoder] at h
    cases h
  | ok decoder =>
    rw [load_of_ofFeed hdecoder] at h
    obtain ⟨⟨result, after⟩, hresult, h⟩ := exists_of_bind_eq_ok h
    obtain ⟨body, before, hyields, hbefore, -, hrun⟩ := Decoder.exists_stop_of_runDecoder hresult
    refine ⟨decoder, _, after, rfl, hyields.append (.cons hbefore (.nil after)), ?_⟩
    dsimp only at h
    split at h
    · cases h
      exact hrun
    · obtain ⟨_, _, hvalue⟩ := exists_of_bind_eq_ok h
      cases hvalue
      exact hrun

/-- A feed whose decoder gives a pickle and nothing more is loaded to what the pickle is run to. -/
theorem load_eq_run {feed : Feed} {options : Options} {decoder after : Decoder}
    {body : List Instruction} (hdecoder : Decoder.ofFeed feed options.protocol = .ok decoder)
    (hyields : decoder.Yields (body ++ [⟨.stop, ()⟩]) after) (hfinish : after.finish.1 = .ok ())
    (hbody : ∀ instruction ∈ body, instruction.operation ≠ .stop) :
    load feed options = run (body ++ [⟨.stop, ()⟩]) options := by
  rw [load_of_ofFeed hdecoder, Decoder.runDecoder_of_yields _ hbody hyields, run]
  cases options.machine.run options.environment (body ++ [⟨.stop, ()⟩]) with
  | error error => rfl
  | ok value =>
    show (if options.allowsTrailing then _ else _) = _
    split
    · rfl
    · simp only [hfinish]
      rfl

/-- A feed that is decoded to the instructions of a pickle is loaded to what these are run to. -/
theorem load_of_decodeAll {feed : Feed} {options : Options} {body : List Instruction}
    (hbody : ∀ instruction ∈ body, instruction.operation ≠ .stop)
    (h : decodeAll feed options.protocol = .ok (body ++ [⟨.stop, ()⟩])) :
    load feed options = run (body ++ [⟨.stop, ()⟩]) options := by
  obtain ⟨decoder, hdecoder, hcollect⟩ := exists_of_bind_eq_ok h
  obtain ⟨program, after, last, hyields, hlast, hprogram⟩ := Decoder.collect_eq_ok_iff.1 hcollect
  obtain rfl : body ++ [⟨.stop, ()⟩] = program := hprogram
  have hfinish := Decoder.finish_of_finished
    (hyields.failed (Decoder.failed_of_ofFeed hdecoder)) hlast
  exact load_eq_run hdecoder hyields hfinish hbody

/-- The number seven in the second version. -/
example : load (.ofBytes [0x80, 2, 0x4b, 7, 0x2e]) {} = .ok (.scalar (.short 7)) := by cbv

end Pickle
