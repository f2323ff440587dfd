import Mathlib
import Pickle.Proofs.Machine.MirroredSteps
import Pickle.Proofs.Stream.Loading

/-!
# Announcements and frames make no difference

An announcement of the version and a frame do nothing when they are carried out, but they are
counted, and with the count grows the budget of every conversion that follows.  So a program and the
same program with announcements and frames put in between run in step, on machines that mirror each
other slot by slot, and what the first one has room for the second one has
(`agree_run_of_isPadded`).

Framed bytes are decoded to a program with frames among its instructions.  As frames are no
instructions of the program, the bytes with and without them are loaded to the same value
(`neutral_instructions`).
-/

namespace Pickle

open Source

/-! ## Programs with more instructions -/

/-- Whether a program is another one with announcements and frames put in. -/
inductive IsPadded : List Instruction → List Instruction → Prop
  | nil : IsPadded [] []
  | keep (instruction : Instruction) {program padded : List Instruction}
      (h : IsPadded program padded) : IsPadded (instruction :: program) (instruction :: padded)
  | insert {instruction : Instruction} {program padded : List Instruction}
      (hneutral : instruction.opcode = .proto ∨ instruction.opcode = .frame)
      (h : IsPadded program padded) : IsPadded program (instruction :: padded)

namespace IsPadded

theorem append {first second padded more : List Instruction} (hfirst : IsPadded first padded)
    (hsecond : IsPadded second more) : IsPadded (first ++ second) (padded ++ more) := by
  induction hfirst with
  | nil => exact hsecond
  | keep instruction _ ih => exact .keep instruction ih
  | insert hneutral _ ih => exact .insert hneutral ih

end IsPadded

/-- Framing puts in frames and nothing else. -/
theorem Decoder.IsFraming.isPadded {version : UInt8} {plain : List (Bytes × Instruction)}
    {framed : Bytes} {program : List Instruction} (h : IsFraming version plain framed program) :
    IsPadded (plain.map Prod.snd) program := by
  induction h with
  | nil => exact .nil
  | instruction h _ ih => exact .keep _ ih
  | frame count hcount hbody hrest ihbody ihrest =>
    rw [List.map_append]
    exact .insert (.inr rfl) (ihbody.append ihrest)

/-! ## Runs in step -/

theorem Cell.rename_ref (cell : Cell) : cell.rename .ref = cell := by cases cell <;> rfl

theorem Content.rename_ref (content : Content) : content.rename .ref = content := by
  have hcell : Cell.rename .ref = id := funext Cell.rename_ref
  have hpair : renamePair .ref = id := funext fun pair => by simp [renamePair, hcell]
  have hkeyword : renameKeyword .ref = id := funext fun pair => by simp [renameKeyword, hcell]
  cases content <;> simp [rename, hcell, hpair, hkeyword]

namespace Machine

variable {env : Environment} {machine machine' : Machine}

/-- Every machine mirrors itself. -/
theorem mirrors_refl (machine : Machine) : machine.Mirrors True .ref ∅ machine where
  stack := by simp [funext Cell.rename_ref]
  saved := by simp [funext Cell.rename_ref]
  memo := fun _ _ => rfl
  slots := fun slot => (Content.rename_ref _).symm
  buffers := rfl
  fresh := fun _ => rfl
  injective := fun _ _ _ hslot hother => Cell.ref.inj (hslot.trans hother.symm)
  linked := fun _ slot => ⟨slot, rfl⟩
  entries := fun _ => ⟨rfl, rfl⟩
  created := fun _ => le_rfl

theorem run_cons (env : Environment) (machine : Machine) (instruction : Instruction)
    (rest : List Instruction) :
    machine.run env (instruction :: rest) =
      Exec.outcome (Exec.execute env instruction) machine >>= fun done =>
        match done.1 with
        | .halted value => .ok value
        | .running => done.2.run env rest := by
  rw [run, Exec.outcome]
  rcases Exec.execute env instruction machine with ⟨_ | value, after⟩ | ⟨error, after⟩ <;> rfl

/-- A program and what it is padded to agree on machines that mirror each other. -/
theorem agree_run_of_isPadded {f : ℕ → Cell} {program padded : List Instruction}
    (hpadded : IsPadded program padded) (h : machine.Mirrors True f ∅ machine') :
    Agree True Error.IsNodeLimit Eq (machine.run env program) (machine'.run env padded) := by
  induction hpadded generalizing machine machine' with
  | nil => exact .error _
  | keep instruction _ ih =>
    rw [run_cons, run_cons]
    have hexecute := Exec.agreeFrom_execute env h instruction
      (fun index hindex => absurd hindex (Set.notMem_empty index)) (fun _ => trivial)
      fun _ => h.linksTop trivial
    refine Agree.bind hexecute ?_
    rintro ⟨_, after⟩ ⟨status, after'⟩ ⟨rfl, hafter⟩
    cases status with
    | halted value => exact rfl
    | running =>
      have hdead : instruction.operation.leavesDead ∅ = ∅ := by
        unfold Operation.leavesDead
        split
        · exact Set.empty_sdiff _
        · rfl
      rw [hdead] at hafter
      exact ih hafter
  | @insert instruction program padded hneutral _ ih =>
    obtain ⟨opcode, argument⟩ := instruction
    have hskip : Exec.execute env ⟨opcode, argument⟩ machine' =
        .ok .running { machine' with created := machine'.created + 1 } := by
      obtain rfl | rfl : opcode = .proto ∨ opcode = .frame := hneutral <;> rfl
    rw [run, hskip]
    exact ih { h with created := fun hstrict => (h.created hstrict).trans (Nat.le_succ _) }

end Machine

/-- What agrees strictly with an outcome is this outcome, unless it is that there are too many
nodes. -/
theorem Agree.eq {ε α : Type} {isLimit : ε → Prop} {outcome outcome' : Except ε α}
    (h : Agree True isLimit Eq outcome outcome') :
    (∀ value, outcome = .ok value → outcome' = .ok value) ∧
      ∀ error, outcome = .error error → ¬ isLimit error → outcome' = .error error := by
  refine ⟨?_, ?_⟩
  · rintro value rfl
    cases outcome' with
    | ok value' => exact congrArg Except.ok h.symm
    | error error' => exact (h.1 trivial).elim
  · rintro error rfl hlimit
    cases outcome' with
    | ok value' => exact absurd (h trivial) hlimit
    | error error' => exact congrArg Except.error ((h trivial).resolve_left hlimit)

/-! ## Loading -/

/-- Whether a feed is read by a version under some options: it is given, or inferred. -/
def Options.ReadsBy (options : Options) (feed : Feed) (version : UInt8) : Prop :=
  options.protocol = some version ∨
    options.protocol = none ∧ ∃ source, Read.inferVersion (Source.ofFeed feed) = .ok version source

/-- A pickle that begins with the announcement of a version is read by this version if none is
given. -/
theorem Options.readsBy_of_announced {options : Options} {feed : Feed} {version : UInt8}
    {tail : Bytes} (hprotocol : options.protocol = none)
    (hbytes : feed.bytes = 0x80 :: version :: tail) : options.ReadsBy feed version := by
  have htells : LookAhead.opcode.Tells [0x80, version] version := .next rfl (.version rfl)
  have hwindow : (Source.ofFeed feed).window = [0x80, version] ++ tail := hbytes
  refine .inr ⟨hprotocol, ?_⟩
  rw [Source.inferVersion_eq, LookAhead.run_of_tells htells hwindow []]
  exact ⟨_, rfl⟩

/-- A feed from which a decoder gets a pickle and nothing more, under a version that is given or
inferred, is loaded to what the pickle is run to. -/
theorem load_of_yields {feed : Feed} {options : Options} {version : UInt8} {after : Decoder}
    {body : List Instruction} (hending : feed.ending = .finished)
    (hversion : version.toNat ≤ Opcode.highestVersion) (hreads : options.ReadsBy feed version)
    (hyields : Decoder.Yields ⟨Source.ofFeed feed, version.toNat, false⟩
      (body ++ [⟨.stop, ()⟩]) after)
    (hfinish : after.finish.1 = .ok ())
    (hbody : ∀ instruction ∈ body, instruction.operation ≠ .stop) :
    load feed options = run (body ++ [⟨.stop, ()⟩]) options := by
  have hgiven : load feed { options with protocol := some version } =
      run (body ++ [⟨.stop, ()⟩]) options := by
    have hdecoder : Decoder.ofFeed feed (some version) =
        .ok ⟨Source.ofFeed feed, version.toNat, false⟩ := Decoder.ofFeed_eq_ok hversion
    exact load_eq_run hdecoder hyields hfinish hbody
  obtain ⟨decodes, protocol, constants, extensions, buffers, loader, trailing, host⟩ := options
  rcases hreads with hprotocol | ⟨hprotocol, source, hinfer⟩
  · obtain rfl : protocol = some version := hprotocol
    exact hgiven
  · obtain rfl : protocol = none := hprotocol
    rw [← hgiven]
    exact load_of_inferVersion hending hversion hinfer
      ⟨decodes, none, constants, extensions, buffers, loader, trailing, host⟩

/-- Announcements of a version and frames make no difference to what a program comes to, wherever
they are put in.

If the program has a value, then so has the program with them, and it is the same; if it fails, then
the program with them fails in the same way, unless the failure is that a value has too many nodes.

So it makes no difference either whether a pickle is framed, be its version given or inferred: what
the bytes without frames are loaded to, the bytes with frames are loaded to. -/
theorem neutral_instructions (options : Options) :
    (∀ program padded, IsPadded program padded →
      (∀ value, run program options = .ok value → run padded options = .ok value) ∧
        ∀ error, run program options = .error error → ¬ error.IsNodeLimit →
          run padded options = .error error) ∧
    ∀ (version : UInt8) (plain : List (Bytes × Instruction)) (body : List Instruction)
      (unframed framed : Feed), 4 ≤ version.toNat → version.toNat ≤ Opcode.highestVersion →
      Decoder.IsFraming version plain framed.bytes (body ++ [⟨.stop, ()⟩]) →
      (∀ instruction ∈ body, instruction.operation ≠ .stop) →
      unframed.bytes = plain.flatMap Prod.fst →
      unframed.ending = .finished → framed.ending = .finished →
      options.ReadsBy unframed version → options.ReadsBy framed version →
        (∀ value, load unframed options = .ok value → load framed options = .ok value) ∧
          ∀ error, load unframed options = .error error → ¬ error.IsNodeLimit →
            load framed options = .error error := by
  have hrun : ∀ program padded, IsPadded program padded →
      (∀ value, run program options = .ok value → run padded options = .ok value) ∧
        ∀ error, run program options = .error error → ¬ error.IsNodeLimit →
          run padded options = .error error := fun program padded hpadded =>
    (Machine.agree_run_of_isPadded hpadded options.machine.mirrors_refl).eq
  refine ⟨hrun, ?_⟩
  intro version plain body unframed framed hlegal hversion hframing hbody hbytes hunframed hframed
    hreads hreads'
  -- Without its frames, the framed sequence is what the unframed feed is read as.
  let inside := body.filter fun instruction => instruction.opcode ≠ .frame
  have hplain : plain.map Prod.snd = inside ++ [⟨.stop, ()⟩] := by
    rw [← hframing.filter_notFrame, List.filter_append]
    rfl
  have hinside : ∀ instruction ∈ inside, instruction.operation ≠ .stop :=
    fun instruction h => hbody instruction (List.mem_filter.1 h).1
  obtain ⟨after, -, hyields, -, hfinish⟩ := hframing.exists_yields hlegal rfl hframed
  obtain ⟨after', -, hyields', -, hfinish'⟩ :=
    hframing.unframed.exists_yields hlegal hbytes hunframed
  rw [hplain] at hyields'
  rw [load_of_yields hframed hversion hreads' hyields hfinish hbody,
    load_of_yields hunframed hversion hreads hyields' hfinish' hinside]
  exact hrun _ _ (hplain ▸ hframing.isPadded)

/-- A list of one item in a frame, and the same program with another announcement in it. -/
theorem neutral_instructions_framed :
    let proto : Instruction := ⟨.proto, (4 : UInt8)⟩
    let item : Instruction := ⟨.binInt1, (7 : UInt8)⟩
    let stop : Instruction := ⟨.stop, ()⟩
    let frame : Instruction := ⟨.frame, (3 : UInt64)⟩
    let unframed := Feed.ofBytes [0x80, 4, 0x4b, 7, 0x2e]
    let framed := Feed.ofBytes [0x80, 4, 0x95, 3, 0, 0, 0, 0, 0, 0, 0, 0x4b, 7, 0x2e]
    (IsPadded [item, stop] [item, proto, frame, stop] ∧
        run [item, stop] {} = .ok (.scalar (.short 7))) ∧
      run [item, proto, frame, stop] {} = .ok (.scalar (.short 7)) ∧
      load unframed {} = .ok (.scalar (.short 7)) ∧ load framed {} = .ok (.scalar (.short 7)) := by
  intro proto item stop frame unframed framed
  have hversion : (4 : UInt8).toNat ≤ Opcode.highestVersion := by decide
  have hpadded : IsPadded [item, stop] [item, proto, frame, stop] :=
    .keep item (.insert (.inl rfl) (.insert (.inr rfl) (.keep stop .nil)))
  have hrun : run [item, stop] {} = .ok (.scalar (.short 7)) := by cbv
  have hload : load unframed {} = .ok (.scalar (.short 7)) := by cbv
  obtain ⟨hpad, hframe⟩ := neutral_instructions {}
  have hproto : Decoder.IsSpelling 4 proto.encode proto :=
    Decoder.isSpelling_encode hversion ⟨rfl, by decide, trivial⟩
  have hitem : Decoder.IsSpelling 4 item.encode item :=
    Decoder.isSpelling_encode hversion ⟨rfl, by decide, trivial⟩
  have hstop : Decoder.IsSpelling 4 stop.encode stop :=
    Decoder.isSpelling_encode hversion ⟨rfl, by decide, trivial⟩
  have hframing : Decoder.IsFraming 4
      [(proto.encode, proto), (item.encode, item), (stop.encode, stop)] framed.bytes
      ([proto, frame, item] ++ [stop]) := by
    rw [Feed.bytes_ofBytes]
    exact .instruction hproto (.frame 3 rfl (.instruction hitem (.instruction hstop .nil)) .nil)
  have hreads : ∀ bytes : Bytes, Options.ReadsBy {} (.ofBytes (0x80 :: 4 :: bytes)) 4 :=
    fun bytes => Options.readsBy_of_announced rfl (Feed.bytes_ofBytes _)
  refine ⟨⟨hpadded, hrun⟩, (hpad _ _ hpadded).1 _ hrun, hload, ?_⟩
  exact (hframe 4 _ [proto, frame, item] unframed framed (le_refl _) hversion hframing (by decide)
    (Feed.bytes_ofBytes _) rfl rfl (hreads _) (hreads _)).1 _ hload

end Pickle
