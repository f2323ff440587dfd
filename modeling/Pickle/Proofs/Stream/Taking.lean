import Pickle.Proofs.Stream.Reading

/-!
# What was read is what was written

In the other direction, whatever an action takes is the next of the bytes to come, in frames and out
of them: `Source.pending` lists them in their order, and entering or leaving a frame does not change
the list.  `Takes` says of an action what it takes when it succeeds, in relation to what it gives.
An argument that stands in no line is taken in the one spelling that it has, and is well formed
(`Takes.layout`); of lines the spelling is free.

As long as nothing is put back, which only the look ahead for a version does, frames stand in front
of the feed in the order in which their bytes come.
-/

namespace Pickle

namespace Source

/-- All bytes to come. -/
def pending (source : Source) : Bytes := source.frames.flatten ++ source.feed.bytes

/-- Whether an action that succeeds without bytes put back takes the next bytes to come, and these
and its value are in some relation. -/
def Takes {α : Type} (action : Read α) (spells : α → Bytes → Prop) : Prop :=
  ∀ ⦃source rest value⦄, source.pushback = [] → action source = .ok value rest →
    rest.pushback = [] ∧ ∃ taken, spells value taken ∧ source.pending = taken ++ rest.pending ∧
      rest.position = source.position + taken.length

namespace Takes

variable {α β : Type} {first : α → Bytes → Prop} {second : β → Bytes → Prop}

theorem pure {value : α} (h : first value []) : Takes (Pure.pure value) first := by
  intro source rest result hpushback hrun
  cases hrun
  exact ⟨hpushback, [], h, rfl, rfl⟩

theorem failAt (fault : Fault) (offset : ℕ) : Takes (Read.failAt fault offset : Read α) first := by
  intro source rest value _ hrun
  cases hrun

theorem imp {other : α → Bytes → Prop} {action : Read α} (h : Takes action first)
    (himp : ∀ value taken, first value taken → other value taken) : Takes action other := by
  intro source rest value hpushback hrun
  obtain ⟨hrest, taken, hfirst, hpending, hposition⟩ := h hpushback hrun
  exact ⟨hrest, taken, himp _ _ hfirst, hpending, hposition⟩

theorem bind {action : Read α} {next : α → Read β} (hfirst : Takes action first)
    (hsecond : ∀ value front, first value front →
      Takes (next value) fun result back => second result (front ++ back)) :
    Takes (action >>= next) second := by
  intro source rest result hpushback hrun
  obtain ⟨value, middle, haction, hnext⟩ := Read.bind_eq_ok hrun
  obtain ⟨hmiddle, front, hfront, hpending, hposition⟩ := hfirst hpushback haction
  obtain ⟨hrest, back, hback, hpending', hposition'⟩ := hsecond value front hfront hmiddle hnext
  refine ⟨hrest, front ++ back, hback, ?_, ?_⟩
  · rw [hpending, hpending', List.append_assoc]
  · rw [hposition', hposition, List.length_append, Nat.add_assoc]

theorem map {action : Read α} (h : Takes action first) {f : α → β}
    (hsecond : ∀ value taken, first value taken → second (f value) taken) :
    Takes (action >>= fun value => Pure.pure (f value)) second := by
  refine h.bind fun value front hfront => pure ?_
  rw [List.append_nil]
  exact hsecond value front hfront

theorem position : Takes Read.position fun _ taken => taken = [] := by
  intro source rest value hpushback hrun
  cases hrun
  exact ⟨hpushback, [], rfl, rfl, rfl⟩

theorem position_bind {next : ℕ → Read α} (h : ∀ start, Takes (next start) first) :
    Takes (Read.position >>= next) first := by
  refine position.bind fun start front hfront => ?_
  subst hfront
  exact h start

theorem nextByte : Takes Read.nextByte fun byte? taken => taken = byte?.toList := by
  rintro ⟨feed, offset, _, frames⟩ rest value rfl hrun
  unfold Read.nextByte at hrun
  dsimp only at hrun
  split at hrun
  · cases hrun
    exact ⟨rfl, [], rfl, rfl, rfl⟩
  · next byte left outer =>
    cases hrun
    exact ⟨rfl, [byte], rfl, rfl, rfl⟩
  · split at hrun
    · cases hrun
    · next after hpull =>
      cases hrun
      obtain ⟨hbytes, -⟩ := Feed.bytes_of_pull hpull
      exact ⟨rfl, [], rfl, hbytes, rfl⟩
    · next byte after hpull =>
      cases hrun
      obtain ⟨hbytes, -⟩ := Feed.bytes_of_pull hpull
      exact ⟨rfl, [byte], rfl, hbytes, rfl⟩

theorem byte : Takes Read.byte fun byte taken => taken = [byte] := by
  refine nextByte.bind fun byte? front hfront => ?_
  split
  · exact pure (by simp [hfront])
  · exact position_bind fun start => failAt _ start

theorem upTo {count : ℕ} {source rest : Source} {taken : Bytes} (hpushback : source.pushback = [])
    (h : Read.upTo count source = .ok taken rest) :
    rest.pushback = [] ∧ source.pending = taken ++ rest.pending ∧
      rest.position = source.position ∧ taken.length ≤ count := by
  obtain ⟨feed, offset, pushback, frames⟩ := source
  obtain rfl : pushback = [] := hpushback
  have hputBack : Read.putBack count ⟨feed, offset, [], frames⟩ =
      .ok [] ⟨feed, offset, [], frames⟩ := by
    simp [Read.putBack]
  rw [Read.upTo, Read.bind_of_eq_ok hputBack] at h
  split at h
  · obtain ⟨back, middle, hback, hdone⟩ := Read.bind_eq_ok h
    cases hdone
    unfold Read.available at hback
    dsimp only at hback
    split at hback
    · next frame outer =>
      rw [List.splitAt_eq] at hback
      cases hback
      refine ⟨rfl, ?_, rfl, List.length_take_le ..⟩
      simp only [pending, List.flatten_cons, List.nil_append, ← List.append_assoc,
        List.take_append_drop]
    · split at hback
      · next after htake =>
        cases hback
        obtain ⟨hbytes, hlength⟩ := Feed.bytes_of_take htake
        exact ⟨rfl, hbytes, rfl, hlength⟩
      · cases hback
  · cases h
    exact ⟨rfl, rfl, rfl, Nat.zero_le count⟩

theorem bytes (count : ℕ) :
    Takes (Read.bytes count) fun value taken => taken = value ∧ value.length = count := by
  intro source rest value hpushback hrun
  obtain ⟨taken, middle, htaken, hmove⟩ := Read.bind_eq_ok hrun
  obtain ⟨_, moved, hmoved, hdone⟩ := Read.bind_eq_ok hmove
  cases hmoved
  obtain ⟨hmiddle, hpending, hposition, hmost⟩ := upTo hpushback htaken
  split at hdone
  · cases hdone
  · next hleast =>
    cases hdone
    refine ⟨hmiddle, value, ⟨rfl, by omega⟩, hpending, ?_⟩
    exact congrArg (· + value.length) hposition

/-! ## Integers and lengths -/

theorem littleEndian (width : ℕ) : Takes (Read.littleEndian width) fun n taken =>
    taken.length = width ∧ n = Word.ofLittleEndian taken := by
  refine (bytes width).map ?_
  rintro value taken ⟨rfl, hlength⟩
  exact ⟨hlength, rfl⟩

/-- A number of some width is written back. -/
theorem toLittleEndian {width n : ℕ} {taken : Bytes}
    (h : taken.length = width ∧ n = Word.ofLittleEndian taken) :
    taken = Word.toLittleEndian width n ∧ n < Word.modulus width := by
  obtain ⟨rfl, rfl⟩ := h
  exact ⟨(Word.toLittleEndian_ofLittleEndian taken).symm, Word.ofLittleEndian_lt taken⟩

theorem int32 : Takes Read.int32 fun n taken => taken = Word.toTwosComplement 4 n.toInt := by
  refine (littleEndian 4).map ?_
  rintro n taken ⟨hlength, rfl⟩
  exact (Word.toTwosComplement_toInt32 hlength).symm

theorem double : Takes Read.double fun x taken => taken = Word.toBigEndian 8 x.bits.toNat := by
  refine (bytes 8).map ?_
  rintro value taken ⟨rfl, hlength⟩
  have hlt : Word.ofBigEndian taken < 2 ^ 64 := by
    have hmodulus := Word.ofLittleEndian_lt taken.reverse
    rw [List.length_reverse, hlength] at hmodulus
    exact hmodulus
  have hwrite := Word.toBigEndian_ofBigEndian taken
  rw [hlength] at hwrite
  rw [UInt64.toNat_ofNat', Nat.mod_eq_of_lt hlt, hwrite]

/-- A length is one that its field can announce. -/
theorem length (field : LengthField) : Takes (Read.length field) fun n taken =>
    taken = field.write n ∧ n < field.bound := by
  cases field with
  | u8 =>
    refine byte.map ?_
    rintro byte taken rfl
    refine ⟨?_, byte.toNat_lt⟩
    simp [LengthField.write, LengthField.width, Word.toLittleEndian]
  | u32 => exact (littleEndian 4).imp fun n taken h => toLittleEndian h
  | u64 => exact (littleEndian 8).imp fun n taken h => toLittleEndian h
  | i32 =>
    refine position_bind fun start => int32.bind fun n front hfront => ?_
    split
    · exact failAt _ _
    · next hsign =>
      have hlt := n.toInt_lt
      refine pure ⟨?_, ?_⟩
      · rw [List.append_nil, hfront, Word.toTwosComplement,
          Int.emod_eq_of_lt (by omega) (lt_of_lt_of_le hlt (by decide))]
        rfl
      · show n.toInt.toNat < 0x80000000
        omega

/-! ## Lines -/

theorem lineAfter (taken : Bytes) : Takes (Read.lineAfter taken) fun _ _ => True := by
  intro source rest value hpushback hrun
  fun_induction Read.lineAfter taken source with
  | case1 => cases hrun
  | case2 | case3 =>
    cases hrun
    obtain ⟨hrest, front, -, hpending⟩ := byte hpushback ‹_›
    exact ⟨hrest, front, trivial, hpending⟩
  | case4 source taken next middle hbyte hnewline ih =>
    obtain ⟨hmiddle, front, -, hpending, hposition⟩ := byte hpushback hbyte
    obtain ⟨hrest, back, -, hpending', hposition'⟩ := ih hmiddle hrun
    refine ⟨hrest, front ++ back, trivial, ?_, ?_⟩
    · rw [hpending, hpending', List.append_assoc]
    · rw [hposition', hposition, List.length_append, Nat.add_assoc]

theorem lineAs (meaning : Bytes → Except LineFault α) :
    Takes (Read.lineAs meaning) fun _ _ => True := by
  refine position_bind fun start => (lineAfter []).bind fun line front _ => ?_
  split
  · exact pure trivial
  · exact failAt _ _

/-! ## Arguments -/

theorem counted {field : LengthField} {payload : ℕ → Read α} {spells : Counted α → Bytes → Prop}
    (h : ∀ count, count < field.bound → Takes (payload count) fun value taken =>
      spells ⟨count, value⟩ (field.write count ++ taken)) :
    Takes (Read.counted field payload) spells := by
  refine (length field).bind ?_
  rintro count front ⟨rfl, hbound⟩
  exact (h count hbound).map fun value taken hspells => hspells

theorem text (count : ℕ) : Takes (Read.text count) fun value taken =>
    taken = Utf8.encode value ∧ count = value.utf8ByteSize := by
  refine position_bind fun start => (bytes count).bind ?_
  rintro value front ⟨rfl, hlength⟩
  split
  · next text hdecode =>
    have hencode := Utf8.encode_of_decode hdecode
    refine pure ⟨?_, ?_⟩
    · rw [List.append_nil, hencode]
    · rw [← hlength, ← hencode, Utf8.length_encode]
  · exact failAt _ _

/-- Entering a frame takes no bytes: those in the frame are still to come. -/
theorem enterFrame (count : ℕ) : Takes (Read.enterFrame count) fun _ taken => taken = [] := by
  intro source rest value hpushback hrun
  obtain ⟨frame, middle, hframe, hmove⟩ := Read.bind_eq_ok hrun
  obtain ⟨hmiddle, taken, ⟨rfl, -⟩, hpending, hposition⟩ := bytes count hpushback hframe
  cases hmove
  refine ⟨hmiddle, [], rfl, ?_, ?_⟩
  · rw [hpending]
    simp [pending]
  · show middle.position - taken.length = source.position
    omega

/-- Leaving frames takes no bytes: they are exhausted. -/
theorem leaveExhaustedFrames :
    Takes Read.leaveExhaustedFrames fun _ taken => taken = [] := by
  intro source rest value hpushback hrun
  unfold Read.leaveExhaustedFrames at hrun
  split at hrun
  · cases hrun
    refine ⟨hpushback, [], rfl, ?_, rfl⟩
    simp only [pending, Read.flatten_dropWhile_isEmpty, List.nil_append]
  · cases hrun
    exact ⟨hpushback, [], rfl, rfl, rfl⟩

end Takes

end Source

/-- Whether an argument of a layout stands in lines. -/
def Layout.IsLine : Layout → Prop
  | .indexLine | .intLine | .longLine | .floatLine | .quotedLine | .escapedLine | .textLine
  | .nameLines => True
  | _ => False

namespace Source.Takes

/-- An argument that stands in no line is taken as it would be written. -/
theorem layout (layout : Layout) : Takes layout.read fun argument taken =>
    ¬ layout.IsLine → layout.WellFormed argument ∧ taken = layout.write argument := by
  cases layout with
  | absent => exact pure fun _ => ⟨trivial, rfl⟩
  | u8 => exact byte.imp fun n taken h _ => ⟨trivial, h⟩
  | u16 =>
    refine (littleEndian 2).map fun n taken h _ => ⟨trivial, ?_⟩
    obtain ⟨htaken, hlt⟩ := toLittleEndian h
    have hlt' : n < 2 ^ 16 := hlt
    show taken = Word.toLittleEndian 2 (UInt16.ofNat n).toNat
    rw [UInt16.toNat_ofNat', Nat.mod_eq_of_lt hlt', htaken]
  | u32 =>
    refine (littleEndian 4).map fun n taken h _ => ⟨trivial, ?_⟩
    obtain ⟨htaken, hlt⟩ := toLittleEndian h
    have hlt' : n < 2 ^ 32 := hlt
    show taken = Word.toLittleEndian 4 (UInt32.ofNat n).toNat
    rw [UInt32.toNat_ofNat', Nat.mod_eq_of_lt hlt', htaken]
  | i32 => exact int32.imp fun n taken h _ => ⟨trivial, h⟩
  | frame =>
    refine (littleEndian 8).bind fun n front h => (enterFrame n).bind ?_
    rintro _ back rfl
    refine pure fun _ => ⟨trivial, ?_⟩
    obtain ⟨htaken, hlt⟩ := toLittleEndian h
    have hlt' : n < 2 ^ 64 := hlt
    show front ++ ([] ++ []) = Word.toLittleEndian 8 (UInt64.ofNat n).toNat
    rw [UInt64.toNat_ofNat', Nat.mod_eq_of_lt hlt', htaken]
    simp
  | double => exact double.imp fun x taken h _ => ⟨trivial, h⟩
  -- Several lines spell the same argument, so nothing is said about their bytes.
  | indexLine | intLine | longLine | floatLine | quotedLine | escapedLine | textLine =>
    exact (lineAs _).imp fun _ _ _ h => absurd trivial h
  | nameLines =>
    refine (lineAs _).bind fun _ _ _ => (lineAs _).bind fun _ _ _ => pure ?_
    exact fun h => absurd trivial h
  | bytes field =>
    refine counted fun count hbound => (bytes count).imp ?_
    rintro value taken ⟨rfl, hlength⟩ _
    exact ⟨⟨hlength.symm, hbound⟩, rfl⟩
  | text field =>
    refine counted fun count hbound => (text count).imp ?_
    rintro value taken ⟨rfl, hlength⟩ _
    exact ⟨⟨hlength, hbound⟩, rfl⟩
  | integer field =>
    refine counted fun count hbound => (bytes count).map ?_
    rintro value taken ⟨rfl, rfl⟩ _
    refine ⟨⟨Word.fits_ofTwosComplement taken, hbound⟩, ?_⟩
    show _ = field.write taken.length ++
      Word.toTwosComplement taken.length (Word.ofTwosComplement taken)
    rw [Word.toTwosComplement_ofTwosComplement]

theorem mapError {α : Type} {spells : α → Bytes → Prop} {action : Read α}
    (change : StreamError → StreamError) (h : Takes action spells) :
    Takes (Read.mapError change action) spells := by
  intro source rest value hpushback hrun
  unfold Read.mapError at hrun
  split at hrun
  · next haction =>
    cases hrun
    exact h hpushback haction
  · cases hrun

/-- Whether bytes were taken for an instruction of a version: the encoding of the instruction, unless
that has lines. -/
def IsInstruction (version : ℕ) (instruction : Instruction) (taken : Bytes) : Prop :=
  instruction.opcode.isLegal version ∧ (¬ instruction.opcode.layout.IsLine →
    instruction.WellFormed ∧ taken = instruction.encode)

/-- What is taken for an instruction is its encoding. -/
theorem instruction (version : ℕ) : Takes (Read.instruction version) fun instruction? taken =>
    ∀ instruction ∈ instruction?, IsInstruction version instruction taken := by
  refine position_bind fun start => nextByte.bind ?_
  rintro byte? front rfl
  split
  · exact pure (by simp)
  · next byte =>
    split
    · next opcode hdecode =>
      obtain ⟨hopcode, hlegal⟩ := Option.filter_eq_some_iff.1 hdecode
      have hargument : Takes (Read.argument opcode) fun instruction taken =>
          IsInstruction version instruction (byte :: taken) := by
        refine ((layout opcode.layout).mapError _).bind fun argument taken htaken => ?_
        refine leaveExhaustedFrames.bind ?_
        rintro _ _ rfl
        refine pure ⟨hlegal, fun hline => ?_⟩
        obtain ⟨hwell, rfl⟩ := htaken hline
        refine ⟨hwell, ?_⟩
        rw [Instruction.encode, Opcode.byte_of_ofByte? hopcode]
        simp
      refine hargument.map ?_
      rintro instruction taken h _ ⟨⟩
      exact h
    · exact failAt _ _

end Source.Takes

end Pickle
