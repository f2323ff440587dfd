import Pickle.Proofs.Machine.Blame
import Pickle.Proofs.Stream.Loading
import Pickle.Proofs.Stream.Offsets

/-!
# Faults around the instructions

Three faults of a pickle are not faults of an instruction.  The look ahead meets an opcode that
tells no version, the version that it finds is not supported, or bytes follow the stop.

The first one is reported at the opcode.  The others are reported where the source stands when they
are noticed: the look ahead has put everything back by then, so that a version that is not supported
is always reported at the start, and the byte behind the stop has been taken, so that it is reported
one byte too far (`load_fault_offset`, `load_misplaces_fault`).
-/

namespace Pickle

open Source

/-- Whether a fault is none of an instruction, but comes up before all of them or behind. -/
def Fault.IsAround : Fault → Prop
  | .uninferableOpcode _ | .unsupportedProtocol _ | .trailingBytes => True
  | _ => False

/-! ## Before the instructions -/

namespace LookAhead

variable {stage : LookAhead} {byte found : UInt8} {path : Bytes}

/-- An opcode that tells no version is the only thing that a look ahead does not know what to do
with. -/
theorem step_eq_unknown {fault : Fault} (h : stage.step byte = .unknown fault) :
    stage = .opcode ∧ fault = .uninferableOpcode byte := by
  cases stage with
  | line later => cases h
  | version => cases h
  | opcode =>
    simp only [step, ofOpcode] at h
    split at h
    · cases h
      exact ⟨rfl, rfl⟩
    · cases h
    · split at h
      · cases h
      · split at h
        · cases h
        · cases h
          exact ⟨rfl, rfl⟩

/-- Only an announcement leads to a version. -/
theorem step_eq_next_version (h : stage.step byte = .next .version) :
    stage = .opcode ∧ byte = Opcode.proto.byte := by
  have hskip : ∀ lines, skip lines ≠ .version := by
    intro lines
    cases lines <;> nofun
  cases stage with
  | line later =>
    have hnext := Finding.next.inj h
    split at hnext
    · exact absurd hnext (hskip later)
    · cases hnext
  | version => cases h
  | opcode =>
    simp only [step, ofOpcode] at h
    split at h
    · cases h
    · next hbyte => exact ⟨rfl, (Opcode.byte_of_ofByte? hbyte).symm⟩
    · split at h
      · next lines _ => exact absurd (Finding.next.inj h) (hskip lines)
      · split at h
        · cases h
        · cases h

/-- A version above one is told by an announcement, at the end of what is looked at. -/
theorem Tells.announced (h : stage.Tells path found) (hfound : 1 < found.toNat) :
    (stage = .version ∧ path = [found]) ∨
      ∃ front, stage.Leads front .opcode ∧ path = front ++ [Opcode.proto.byte, found] := by
  induction h with
  | @version stage byte found hstep =>
    cases stage with
    | opcode => exact absurd (toNat_le_one_of_step hstep) (not_le.2 hfound)
    | line later => cases hstep
    | version =>
      cases hstep
      exact .inl ⟨rfl, rfl⟩
  | @next stage later byte found path hstep _ ih =>
    right
    obtain ⟨rfl, rfl⟩ | ⟨front, hleads, rfl⟩ := ih hfound
    · obtain ⟨rfl, rfl⟩ := step_eq_next_version hstep
      exact ⟨[], .nil _, rfl⟩
    · exact ⟨byte :: front, .cons hstep hleads, rfl⟩

/-- A look ahead gives up at the end of the bytes, or at an opcode that tells no version. -/
theorem run_eq_error (stage : LookAhead) (taken : Bytes) (source : Source) {fault : Fault}
    {offset : ℕ} (h : (run stage taken source).verdict = .error (.malformed fault offset)) :
    fault = .unexpectedEnd ∨ ∃ front byte, fault = .uninferableOpcode byte ∧
      offset = source.position + front.length ∧ front ++ [byte] <+: source.window ∧
      stage.Leads front .opcode := by
  fun_induction run stage taken source with
  | case1 stage taken source error rest hrun =>
    obtain ⟨_, _, hok, -⟩ | hfail := nextByte_cases source
    · rw [hok] at hrun
      cases hrun
    · rw [hfail] at hrun
      cases hrun
      cases h
  -- The source ends before it tells its version.
  | case2 stage taken source rest hrun =>
    cases h
    exact .inl rfl
  | case3 => cases h
  | case4 stage taken source byte rest hrun fault' hstep =>
    cases h
    obtain ⟨rfl, rfl⟩ := step_eq_unknown hstep
    refine .inr ⟨[], byte, rfl, rfl, ?_, .nil _⟩
    rw [(handsOut_of_nextByte hrun).window]
    exact List.prefix_append ..
  | case5 stage taken source byte rest hrun later hstep ih =>
    have hrest : source.HandsOut [byte] rest := handsOut_of_nextByte hrun
    obtain hend | ⟨front, last, rfl, rfl, hfront, hleads⟩ := ih h
    · exact .inl hend
    · refine .inr ⟨byte :: front, last, rfl, ?_, ?_, .cons hstep hleads⟩
      · have hposition := hrest.position
        rw [List.length_singleton] at hposition
        rw [hposition, List.length_cons]
        omega
      · rw [hrest.window]
        exact (List.prefix_cons_inj byte).2 hfront

end LookAhead

namespace Decoder

variable {start decoder after : Decoder} {program : List Instruction} {fault : Fault} {offset : ℕ}

/-- Where it is noticed that a version is not supported. -/
theorem ofSource_eq_error {source : Source} {version : UInt8} {error : StreamError}
    (h : ofSource source version = .error error) :
    error = .malformed (.unsupportedProtocol version) source.position ∧
      Opcode.highestVersion < version.toNat := by
  unfold ofSource at h
  split at h
  · cases h
  · next hversion =>
    cases h
    exact ⟨rfl, not_le.1 hversion⟩

/-- What is wrong where there is no decoder: the bytes end, or else the look ahead meets an opcode
that tells no version, or else the version is too high. -/
theorem ofFeed_eq_error {feed : Feed} {version? : Option UInt8}
    (h : ofFeed feed version? = .error (.malformed fault offset)) :
    fault = .unexpectedEnd ∨
      (∃ front byte, fault = .uninferableOpcode byte ∧ version? = none ∧ offset = front.length ∧
        front ++ [byte] <+: feed.bytes ∧ LookAhead.opcode.Leads front .opcode) ∨
      ∃ version, fault = .unsupportedProtocol version ∧ offset = 0 ∧
        Opcode.highestVersion < version.toNat ∧ (version? = none →
          ∃ front, LookAhead.opcode.Leads front .opcode ∧
            front ++ [Opcode.proto.byte, version] <+: feed.bytes) := by
  have hwindow : (Source.ofFeed feed).window = feed.bytes := rfl
  unfold ofFeed at h
  split at h
  · next version =>
    obtain ⟨herror, hversion⟩ := ofSource_eq_error h
    cases herror
    exact .inr (.inr ⟨version, rfl, rfl, hversion, nofun⟩)
  · split at h
    · next version source hinfer =>
      obtain ⟨herror, hversion⟩ := ofSource_eq_error h
      cases herror
      obtain ⟨halike, htells⟩ := tells_of_inferVersion hinfer rfl
      -- Inference comes to such a version only where the source announces it.
      have hhigh : 1 < version.toNat := lt_trans (by decide) hversion
      refine .inr (.inr ⟨version, rfl, halike.position, hversion, fun _ => ?_⟩)
      obtain ⟨⟨⟩, -⟩ | ⟨front, hleads, hpath⟩ := htells.announced hhigh
      refine ⟨front, hleads, ?_⟩
      rw [← hpath, ← hwindow, ← halike.window]
      exact List.prefix_append ..
    · next error source hinfer =>
      cases h
      rw [inferVersion_eq] at hinfer
      split at hinfer
      · cases hinfer
      · next hverdict =>
        cases hinfer
        obtain hend | ⟨front, byte, rfl, rfl, hfront, hleads⟩ :=
          LookAhead.run_eq_error _ _ _ hverdict
        · exact .inl hend
        · exact .inr (.inl ⟨front, byte, rfl, rfl, Nat.zero_add _, hfront, hleads⟩)

/-! ## Behind the instructions -/

theorem Reaches.yields (hreaches : start.Reaches decoder) (h : decoder.Yields program after) :
    start.Reaches after := by
  induction h with
  | nil => exact hreaches
  | @cons decoder middle after instruction rest hnext _ ih =>
    have hmiddle := hreaches.next
    rw [hnext] at hmiddle
    exact ih hmiddle

variable {input : Bytes} {found : UInt8}

/-- An instruction is never at fault with what is around the instructions. -/
theorem IsSited.not_isAround (h : decoder.IsSited input found)
    (hnext : decoder.next = (.error (.malformed fault offset), after)) : ¬ fault.IsAround := by
  rw [Decoder.next] at hnext
  split at hnext
  · cases hnext
  · next hfailed =>
    have hreports := Reports.instruction decoder.source decoder.version
    split at hnext
    · cases hnext
    · cases hnext
    · next hrun =>
      rw [hrun] at hreports
      cases hnext
      cases hreports with
      | malformed hfault =>
        have hpoints := h.pointsAt (Bool.eq_false_iff.2 hfailed) hfault
        intro haround
        cases fault with
        | uninferableOpcode | unsupportedProtocol | trailingBytes => exact hpoints
        | _ => exact haround

/-- Where a decoder that gives a stop finds it, and where it stands then. -/
theorem IsSited.stop (h : decoder.IsSited input found) (hfailed : decoder.failed = false)
    (hnext : decoder.next = (.instruction ⟨.stop, ()⟩, after)) :
    input[decoder.position]? = some Opcode.stop.byte ∧ after.position = decoder.position + 1 := by
  have hwindow := h.window hfailed
  obtain ⟨source, version, failed⟩ := decoder
  obtain rfl : failed = false := hfailed
  obtain ⟨byte, middle, inside, hbyte, hdecode, hread, hafter⟩ :=
    Read.instruction_eq_ok (instruction_of_next hnext).1
  cases hread
  have hmiddle : source.HandsOut [byte] middle := handsOut_of_nextByte hbyte
  have hstop : Opcode.stop.byte = byte :=
    Opcode.byte_of_ofByte? (Option.filter_eq_some_iff.1 hdecode).1
  constructor
  · obtain ⟨rest, hrest⟩ := hwindow
    rw [hmiddle.window] at hrest
    have hget := congrArg (·[0]?) hrest
    rw [List.getElem?_drop] at hget
    rw [hstop]
    exact hget.symm
  · rw [position, hafter, position_settled]
    exact hmiddle.position

/-- Behind the stop there is only one fault, a byte, and it is noticed when the byte is taken. -/
theorem IsSited.finish (h : decoder.IsSited input found) (hfailed : decoder.failed = false)
    (hfinish : decoder.finish.1 = .error (.malformed fault offset)) :
    fault = .trailingBytes ∧ decoder.position < input.length ∧ offset = decoder.position + 1 := by
  rw [Decoder.finish] at hfinish
  obtain ⟨byte?, rest, hbyte, hrest⟩ | hbyte := nextByte_cases decoder.source
  · rw [Read.atEnd, Read.bind_of_eq_ok hbyte] at hfinish
    cases byte? with
    | none => cases hfinish
    | some byte =>
      cases hfinish
      refine ⟨rfl, ?_, hrest.position⟩
      have hlength := (h.window hfailed).length_le
      rw [hrest.window, List.length_append, List.length_drop] at hlength
      simp only [Option.toList_some, List.length_singleton] at hlength
      omega
  · rw [Read.atEnd, Read.bind_of_eq_error hbyte] at hfinish
    cases hfinish

end Decoder

/-! ## Loading -/

/-- What a machine comes to with a decoder that is an error of a stream, the decoder or the host has
reported. -/
theorem Machine.runDecoder_eq_stream {env : Environment} {machine : Machine} {decoder : Decoder}
    {error : StreamError} (h : machine.runDecoder env decoder = .error (.stream error)) :
    env.Reports (.stream error) ∨ ∃ program reached after,
      decoder.Yields program reached ∧ reached.next = (.error error, after) := by
  fun_induction Machine.runDecoder env machine decoder with
  | case1 => cases h
  | case2 machine decoder error' after hnext =>
    cases h
    exact .inr ⟨[], decoder, after, .nil _, hnext⟩
  | case3 => cases h
  | case4 machine decoder instruction middle hnext machine' hexecute ih =>
    obtain hreports | ⟨program, reached, after, hyields, hreached⟩ := ih h
    · exact .inl hreports
    · exact .inr ⟨instruction :: program, reached, after, .cons hnext hyields, hreached⟩
  | case5 machine decoder instruction middle hnext error' machine' hexecute =>
    cases h
    exact .inl ((Exec.blames_execute env instruction _ _ _ hexecute).resolve_left id)

/-- Whether a pickle is carried out up to a stop the opcode of which stands at an offset. -/
def StopsAt (feed : Feed) (options : Options) (offset : ℕ) : Prop :=
  ∃ (start before after : Decoder) (body : List Instruction) (value : Value),
    Decoder.ofFeed feed options.protocol = .ok start ∧ start.Yields body before ∧
      before.next = (.instruction ⟨.stop, ()⟩, after) ∧
      (∀ instruction ∈ body, instruction.operation ≠ .stop) ∧
      run (body ++ [⟨.stop, ()⟩]) options = .ok value ∧
      before.position = offset ∧ feed.bytes[offset]? = some Opcode.stop.byte

section

variable {feed : Feed} {options : Options} {fault : Fault} {offset : ℕ}

/-- A fault that is around the instructions comes up when there is no decoder yet, or behind a
stop. -/
theorem ofFeed_or_stopsAt_of_load
    (hload : load feed options = .error (.stream (.malformed fault offset)))
    (hhost : ¬ options.environment.Reports (.stream (.malformed fault offset)))
    (haround : fault.IsAround) :
    Decoder.ofFeed feed options.protocol = .error (.malformed fault offset) ∨
      fault = .trailingBytes ∧
        ∃ stop, StopsAt feed options stop ∧ stop + 1 < feed.bytes.length ∧ offset = stop + 2 := by
  cases hstart : Decoder.ofFeed feed options.protocol with
  | error error =>
    rw [load, hstart] at hload
    cases hload
    exact .inl rfl
  | ok start =>
    right
    obtain ⟨found, hsited⟩ := Decoder.isSited_ofFeed hstart
    rw [load_of_ofFeed hstart] at hload
    cases hrun : options.machine.runDecoder options.environment start with
    | error error =>
      rw [hrun] at hload
      cases hload
      obtain hreports | ⟨program, reached, after, hyields, hreached⟩ :=
        Machine.runDecoder_eq_stream hrun
      · exact absurd hreports hhost
      · have hreachedSited := hsited.reaches (Decoder.Reaches.refl.yields hyields)
        exact absurd haround (hreachedSited.not_isAround hreached)
    | ok result =>
      obtain ⟨value, after⟩ := result
      obtain ⟨body, before, hyields, hbefore, hbody, hvalue⟩ :=
        Decoder.exists_stop_of_runDecoder hrun
      have hfailed := hyields.failed (Decoder.failed_of_ofFeed hstart)
      have hbeforeSited := hsited.reaches (Decoder.Reaches.refl.yields hyields)
      obtain ⟨hstop, hposition⟩ := hbeforeSited.stop hfailed hbefore
      have hafterFailed : after.failed = false :=
        (Decoder.Yields.cons hbefore (.nil after)).failed hfailed
      have hafterSited := hbeforeSited.next
      rw [hbefore] at hafterSited
      -- The value was not the result, so the byte behind the stop was asked for.
      have hfinish : after.finish.1 = .error (.malformed fault offset) := by
        rw [hrun] at hload
        simp only [bind, Except.bind] at hload
        split at hload
        · cases hload
        · cases hanswer : after.finish.1 with
          | ok _ =>
            rw [hanswer] at hload
            cases hload
          | error error =>
            rw [hanswer] at hload
            cases hload
            rfl
      obtain ⟨rfl, hlt, rfl⟩ := hafterSited.finish hafterFailed hfinish
      rw [hposition] at hlt
      refine ⟨rfl, before.position, ?_, hlt, by rw [hposition]⟩
      exact ⟨start, before, after, body, value, hstart, hyields, hbefore, hbody, hvalue, rfl, hstop⟩

end

/-- Where the faults around the instructions are reported, unless the host reports an error of the
stream on its own account.

* Bytes behind the stop are reported one byte behind the first of them.  The stop is the one that
  ended the run, in a frame or outside.
* An opcode that tells no version is reported where it stands, behind opcodes that tell nothing and
  their lines.  This is said only if the version is inferred.
* A version that is not supported is reported at the start.  If it is inferred, it was announced,
  and the announcement may stand anywhere behind opcodes that tell nothing. -/
theorem load_fault_offset (feed : Feed) (options : Options) (fault : Fault) (offset : ℕ)
    (hload : load feed options = .error (.stream (.malformed fault offset)))
    (hhost : ¬ options.environment.Reports (.stream (.malformed fault offset))) :
    (fault = .trailingBytes →
      ∃ stop, StopsAt feed options stop ∧ stop + 1 < feed.bytes.length ∧ offset = stop + 2) ∧
    (∀ byte, fault = .uninferableOpcode byte →
      options.protocol = none ∧ feed.bytes[offset]? = some byte ∧
        LookAhead.opcode.Leads (feed.bytes.take offset) .opcode) ∧
    ∀ version, fault = .unsupportedProtocol version →
      offset = 0 ∧ Opcode.highestVersion < version.toNat ∧ (options.protocol = none →
        ∃ front, LookAhead.opcode.Leads front .opcode ∧
          front ++ [Opcode.proto.byte, version] <+: feed.bytes) := by
  refine ⟨?_, fun byte => ?_, fun version => ?_⟩
  · rintro rfl
    obtain hstart | ⟨-, hstop⟩ := ofFeed_or_stopsAt_of_load hload hhost trivial
    · obtain ⟨⟨⟩⟩ | ⟨_, _, ⟨⟩, _⟩ | ⟨_, ⟨⟩, _⟩ := Decoder.ofFeed_eq_error hstart
    · exact hstop
  · rintro rfl
    obtain hstart | ⟨⟨⟩, -⟩ := ofFeed_or_stopsAt_of_load hload hhost trivial
    obtain ⟨⟨⟩⟩ | ⟨front, _, ⟨⟩, hprotocol, rfl, hfront, hleads⟩ | ⟨_, ⟨⟩, _⟩ :=
      Decoder.ofFeed_eq_error hstart
    obtain ⟨rest, hrest⟩ := hfront
    rw [List.append_assoc] at hrest
    rw [← hrest, List.getElem?_append_right (le_refl _), Nat.sub_self, List.take_left]
    exact ⟨hprotocol, rfl, hleads⟩
  · rintro rfl
    obtain hstart | ⟨⟨⟩, -⟩ := ofFeed_or_stopsAt_of_load hload hhost trivial
    obtain ⟨⟨⟩⟩ | ⟨_, _, ⟨⟩, _⟩ | ⟨_, ⟨⟩, hspec⟩ := Decoder.ofFeed_eq_error hstart
    exact hspec

/-- Bytes behind a stop that ends its frame but not the pickle, an opcode of a later version behind
one that tells nothing, and an announcement behind a mark. -/
theorem load_fault_offset_default :
    let trailing : Bytes := [0x80, 4, 0x95, 2, 0, 0, 0, 0, 0, 0, 0, 0x4e, 0x2e, 0x4e, 0x4e]
    let options : Options := {}
    (∀ error, ¬ options.environment.Reports (.stream error)) ∧
      (load (.ofBytes trailing) options = .error (.stream (.malformed .trailingBytes 14)) ∧
        ∃ stop, StopsAt (.ofBytes trailing) options stop ∧ 14 = stop + 2) ∧
      (load (.ofBytes [0x4e, 0x88]) options =
          .error (.stream (.malformed (.uninferableOpcode 0x88) 1)) ∧
        LookAhead.opcode.Leads [0x4e] .opcode) ∧
      load (.ofBytes [0x28, 0x80, 6]) options =
          .error (.stream (.malformed (.unsupportedProtocol 6) 0)) ∧
        ∃ front, LookAhead.opcode.Leads front .opcode ∧
          front ++ [Opcode.proto.byte, 6] <+: [0x28, 0x80, 6] := by
  intro trailing options
  have hhost : ∀ error, ¬ options.environment.Reports (.stream error) := by
    rintro error (⟨_, _, _, ⟨⟩⟩ | ⟨_, _, ⟨⟩, _⟩)
  have htrailing : load (.ofBytes trailing) options =
      .error (.stream (.malformed .trailingBytes 14)) := by cbv
  have huninferable : load (.ofBytes [0x4e, 0x88]) options =
      .error (.stream (.malformed (.uninferableOpcode 0x88) 1)) := by cbv
  have hunsupported : load (.ofBytes [0x28, 0x80, 6]) options =
      .error (.stream (.malformed (.unsupportedProtocol 6) 0)) := by cbv
  obtain ⟨stop, hstop, -, hoffset⟩ := (load_fault_offset _ _ _ _ htrailing (hhost _)).1 rfl
  have hleads := ((load_fault_offset _ _ _ _ huninferable (hhost _)).2.1 _ rfl).2.2
  have hfront := ((load_fault_offset _ _ _ _ hunsupported (hhost _)).2.2 _ rfl).2.2 rfl
  rw [Feed.bytes_ofBytes] at hleads hfront
  exact ⟨hhost, ⟨htrailing, stop, hstop, hoffset⟩, ⟨huninferable, hleads⟩, hunsupported, hfront⟩

/-- The offset is not that of the first byte behind the stop, nor that of the version. -/
theorem load_misplaces_fault :
    let trailing : Bytes := [0x4e, 0x2e, 0x4e]
    let announced : Bytes := [0x80, 6]
    (StopsAt (.ofBytes trailing) {} 1 ∧ ∃ offset, offset ≠ 1 + 1 ∧
      load (.ofBytes trailing) {} = .error (.stream (.malformed .trailingBytes offset))) ∧
    ∃ offset, announced[offset]? ≠ some 6 ∧
      load (.ofBytes announced) {} =
        .error (.stream (.malformed (.unsupportedProtocol 6) offset)) := by
  intro trailing announced
  have htrailing : load (.ofBytes trailing) {} =
      .error (.stream (.malformed .trailingBytes 3)) := by cbv
  have hannounced : load (.ofBytes announced) {} =
      .error (.stream (.malformed (.unsupportedProtocol 6) 0)) := by cbv
  have hhost : ¬ ({} : Options).environment.Reports (.stream (.malformed .trailingBytes 3)) := by
    rintro (⟨_, _, _, ⟨⟩⟩ | ⟨_, _, ⟨⟩, _⟩)
  refine ⟨⟨?_, 3, by decide, htrailing⟩, 0, by decide, hannounced⟩
  obtain hstart | ⟨-, stop, hstop, -, hoffset⟩ := ofFeed_or_stopsAt_of_load htrailing hhost trivial
  · obtain ⟨⟨⟩⟩ | ⟨_, _, ⟨⟩, _⟩ | ⟨_, ⟨⟩, _⟩ := Decoder.ofFeed_eq_error hstart
  · obtain rfl : stop = 1 := by omega
    exact hstop

end Pickle
