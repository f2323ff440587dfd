import Mathlib.Data.Nat.Basic
import Pickle.Instruction.Encoding
import Pickle.Proofs.Instruction.Words
import Pickle.Proofs.Line.Floats
import Pickle.Proofs.Line.Strings
import Pickle.Stream.Decoder

/-!
# Reading what was written

What a source hands out depends on the bytes that its feed still delivers, and not on the deliveries
they come in.  `Source.IsAt` forgets all else of a source without detours, and `Reads` says of an
action that it takes given bytes from any such source, whatever comes after them, and what it
gives.  Actions that read one after the other read bytes one after the other (`Reads.bind`), so each
reader needs one law, and a program is read as the concatenation of its instructions.
-/

namespace Pickle

/-! ## Feeds -/

namespace Feed

variable {feed rest : Feed} {byte : UInt8} {front tail : Bytes}

theorem flatMap_bytes_of_pullFrom {deliveries : List Delivery}
    (h : pullFrom deliveries = none) : deliveries.flatMap Delivery.bytes = [] := by
  induction deliveries with
  | nil => rfl
  | cons delivery others ih =>
    cases delivery with
    | interruption =>
      rw [List.flatMap_cons, ih h]
      rfl
    | chunk head tail => cases h

/-- Some next byte means that bytes are left, and none that there are none. -/
theorem bytes_of_pull {answer : Option UInt8} (h : feed.pull = some ⟨answer, rest⟩) :
    feed.bytes = answer.toList ++ rest.bytes ∧ rest.ending = feed.ending := by
  unfold pull at h
  cases hpull : pullFrom feed.deliveries with
  | some pair =>
    rw [hpull] at h
    cases h
    exact ⟨bytes_of_pullFrom hpull, rfl⟩
  | none =>
    rw [hpull] at h
    have hbytes : feed.bytes = [] := flatMap_bytes_of_pullFrom hpull
    cases hending : feed.ending with
    | finished =>
      rw [hending] at h
      cases h
      exact ⟨hbytes, rfl⟩
    | failure =>
      rw [hending] at h
      cases h

theorem pull_of_bytes (h : feed.bytes = byte :: tail) :
    ∃ rest, feed.pull = some ⟨some byte, rest⟩ ∧ rest.bytes = tail ∧
      rest.ending = feed.ending := by
  cases hpull : pullFrom feed.deliveries with
  | none =>
    rw [bytes, flatMap_bytes_of_pullFrom hpull] at h
    cases h
  | some pair =>
    obtain ⟨first, others⟩ := pair
    rw [bytes, bytes_of_pullFrom hpull] at h
    obtain ⟨rfl, htail⟩ := List.cons.inj h
    refine ⟨⟨others, feed.ending⟩, ?_, htail, rfl⟩
    rw [pull, hpull]

theorem pull_of_bytes_eq_nil (h : feed.bytes = []) (hending : feed.ending = .finished) :
    ∃ rest, feed.pull = some ⟨none, rest⟩ := by
  cases hpull : pullFrom feed.deliveries with
  | some pair =>
    obtain ⟨first, others⟩ := pair
    rw [bytes, bytes_of_pullFrom hpull] at h
    cases h
  | none =>
    refine ⟨⟨[], .finished⟩, ?_⟩
    rw [pull, hpull, hending]

theorem bytes_of_take {count : ℕ} {taken : Bytes} (h : feed.take count = some ⟨taken, rest⟩) :
    feed.bytes = taken ++ rest.bytes ∧ taken.length ≤ count := by
  have hspec := takeFrom_eq_take_drop count [] feed.deliveries
  unfold take at h
  generalize takeFrom count [] feed.deliveries = pair at h hspec
  obtain ⟨front, left⟩ := pair
  obtain ⟨hfront, hleft⟩ := hspec
  dsimp only at h
  split at h
  · cases h
  · cases h
    have htaken : taken = feed.bytes.take count := hfront
    have hrest : left.flatMap Delivery.bytes = feed.bytes.drop count := hleft
    constructor
    · show feed.bytes = taken ++ left.flatMap Delivery.bytes
      rw [hrest, htaken, List.take_append_drop]
    · rw [htaken]
      exact List.length_take_le ..

theorem take_of_bytes (h : feed.bytes = front ++ tail) :
    ∃ rest, feed.take front.length = some ⟨front, rest⟩ ∧ rest.bytes = tail ∧
      rest.ending = feed.ending := by
  have hspec := takeFrom_eq_take_drop front.length [] feed.deliveries
  have hbytes : feed.deliveries.flatMap Delivery.bytes = front ++ tail := h
  rw [hbytes, List.take_left, List.drop_left, List.reverse_nil, List.nil_append] at hspec
  obtain ⟨hfront, hleft⟩ := hspec
  refine ⟨⟨(takeFrom front.length [] feed.deliveries).2, feed.ending⟩, ?_, hleft, rfl⟩
  unfold take
  simp only [hfront, lt_irrefl, false_and, if_false]

end Feed

/-- Frames have a layout of their own. -/
theorem Opcode.layout_ne_frame {opcode : Opcode} (h : opcode ≠ .frame) :
    opcode.layout ≠ .frame := by
  revert h
  cases opcode <;> decide

/-! ## Sources without detours -/

namespace Source

/-- Whether a source is at an offset without detours, with some bytes and an ending to come. -/
structure IsAt (source : Source) (ending : Ending) (offset : ℕ) (bytes : Bytes) : Prop where
  pushback : source.pushback = []
  frames : source.frames = []
  position : source.position = offset
  bytes : source.feed.bytes = bytes
  ending : source.feed.ending = ending

theorem isAt_ofFeed (feed : Feed) : (ofFeed feed).IsAt feed.ending 0 feed.bytes :=
  ⟨rfl, rfl, rfl, rfl, rfl⟩

theorem Read.bind_of_eq_ok {α β : Type} {action : Read α} {next : α → Read β}
    {source middle : Source} {value : α} (h : action source = .ok value middle) :
    (action >>= next) source = next value middle := by
  show EStateM.bind action next source = next value middle
  rw [EStateM.bind, h]

theorem Read.bind_of_eq_error {α β : Type} {action : Read α} {next : α → Read β}
    {source rest : Source} {error : StreamError} (h : action source = .error error rest) :
    (action >>= next) source = .error error rest := by
  show EStateM.bind action next source = .error error rest
  rw [EStateM.bind, h]

/-- Whether an action takes some bytes from every source without detours that has them to come, and
gives a value. -/
def Reads {α : Type} (action : Read α) (bytes : Bytes) (value : α) : Prop :=
  ∀ ⦃source ending offset tail⦄, source.IsAt ending offset (bytes ++ tail) →
    ∃ rest, action source = .ok value rest ∧ rest.IsAt ending (offset + bytes.length) tail

namespace Reads

variable {α β : Type} {first second : Bytes}

theorem pure (value : α) : Reads (Pure.pure value) [] value :=
  fun source _ _ _ h => ⟨source, rfl, h⟩

theorem bind {action : Read α} {next : α → Read β} {value : α} {result : β}
    (hfirst : Reads action first value) (hsecond : Reads (next value) second result) :
    Reads (action >>= next) (first ++ second) result := by
  intro source ending offset tail h
  rw [List.append_assoc] at h
  obtain ⟨middle, hrun, hmiddle⟩ := hfirst h
  obtain ⟨rest, hnext, hrest⟩ := hsecond hmiddle
  refine ⟨rest, ?_, ?_⟩
  · rw [Read.bind_of_eq_ok hrun, hnext]
  · rw [List.length_append, ← Nat.add_assoc]
    exact hrest

/-- An action may be followed by one that reads nothing. -/
theorem followed {action : Read α} {next : α → Read β} {value : α} {result : β}
    (h : Reads action first value) (hnext : Reads (next value) [] result) :
    Reads (action >>= next) first result := by
  have hbind := h.bind hnext
  rwa [List.append_nil] at hbind

theorem map {action : Read α} {value : α} (h : Reads action first value) (f : α → β) :
    Reads (action >>= fun value => Pure.pure (f value)) first (f value) :=
  h.followed (pure (f value))

theorem position_bind {next : ℕ → Read α} {value : α} (h : ∀ start, Reads (next start) first value) :
    Reads (Read.position >>= next) first value :=
  fun source _ _ _ hsource => h source.position hsource

theorem nextByte (byte : UInt8) : Reads Read.nextByte [byte] (some byte) := by
  intro source ending offset tail h
  obtain ⟨feed, hpull, hbytes, hending⟩ := Feed.pull_of_bytes h.bytes
  refine ⟨{ source with feed, position := source.position + 1 }, ?_, ?_⟩
  · unfold Read.nextByte
    simp only [h.pushback, h.frames, hpull]
  · exact ⟨h.pushback, h.frames, congrArg (· + 1) h.position, hbytes, hending.trans h.ending⟩

theorem byte (byte : UInt8) : Reads Read.byte [byte] byte := (nextByte byte).bind (pure byte)

theorem bytes {count : ℕ} (taken : Bytes) (h : taken.length = count) :
    Reads (Read.bytes count) taken taken := by
  subst h
  rintro ⟨feed, position, _, _⟩ ending offset tail ⟨rfl, rfl, hposition, hbytes, hending⟩
  obtain ⟨left, htake, hleft, hsame⟩ := Feed.take_of_bytes hbytes
  have hputBack : Read.putBack taken.length ⟨feed, position, [], []⟩ =
      .ok [] ⟨feed, position, [], []⟩ := by
    simp [Read.putBack]
  have havailable : Read.available taken.length ⟨feed, position, [], []⟩ =
      .ok taken ⟨left, position, [], []⟩ := by
    simp [Read.available, htake]
  have hupTo : ∃ rest : Feed, Read.upTo taken.length ⟨feed, position, [], []⟩ =
      .ok taken ⟨rest, position, [], []⟩ ∧ rest.bytes = tail ∧ rest.ending = feed.ending := by
    cases taken with
    | nil =>
      refine ⟨feed, ?_, hbytes, rfl⟩
      rw [Read.upTo, Read.bind_of_eq_ok hputBack]
      rfl
    | cons byte others =>
      refine ⟨left, ?_, hleft, hsame⟩
      rw [Read.upTo, Read.bind_of_eq_ok hputBack, if_pos (by simp), List.length_nil, Nat.sub_zero,
        Read.bind_of_eq_ok havailable]
      rfl
  obtain ⟨rest, hrun, hrest, hrestEnding⟩ := hupTo
  have hmove : (modify fun source : Source =>
      { source with position := source.position + taken.length } : Read Unit)
        ⟨rest, position, [], []⟩ = .ok () ⟨rest, position + taken.length, [], []⟩ := rfl
  refine ⟨⟨rest, position + taken.length, [], []⟩, ?_, rfl, rfl, ?_, hrest, ?_⟩
  · rw [Read.bytes, Read.bind_of_eq_ok hrun, Read.bind_of_eq_ok hmove, if_neg (by omega)]
    rfl
  · exact congrArg (· + taken.length) hposition
  · exact hrestEnding.trans hending

theorem littleEndian {width n : ℕ} (h : n < Word.modulus width) :
    Reads (Read.littleEndian width) (Word.toLittleEndian width n) n := by
  have hbytes := (bytes (Word.toLittleEndian width n) (Word.length_toLittleEndian width n)).map
    Word.ofLittleEndian
  rwa [Word.ofLittleEndian_toLittleEndian h] at hbytes

theorem int32 (n : Int32) : Reads Read.int32 (Word.toTwosComplement 4 n.toInt) n := by
  have hlt : (n.toInt % Word.modulus 4).toNat < Word.modulus 4 := by
    have hpos := Word.modulus_pos 4
    have hmod := Int.emod_lt_of_pos n.toInt (Int.ofNat_lt.2 hpos)
    omega
  have hread := (littleEndian hlt).map fun value => (UInt32.ofNat value).toInt32
  have hvalue := Word.toInt32_toTwosComplement n
  rw [Word.toTwosComplement, Word.ofLittleEndian_toLittleEndian hlt] at hvalue
  rwa [hvalue] at hread

theorem double (x : Double) : Reads Read.double (Word.toBigEndian 8 x.bits.toNat) x := by
  have hread := (bytes (Word.toBigEndian 8 x.bits.toNat) (Word.length_toBigEndian 8 _)).map
    fun taken => (⟨UInt64.ofNat (Word.ofBigEndian taken)⟩ : Double)
  rwa [Word.ofBigEndian_toBigEndian x.bits.toNat_lt, UInt64.ofNat_toNat] at hread

/-- A length is read back if its field can announce it. -/
theorem length {field : LengthField} {n : ℕ} (h : n < field.bound) :
    Reads (Read.length field) (field.write n) n := by
  cases field with
  | u8 =>
    have hread := (byte (UInt8.ofNat n)).map UInt8.toNat
    have hlt : n < 2 ^ 8 := h
    rwa [UInt8.toNat_ofNat', Nat.mod_eq_of_lt hlt] at hread
  | u32 => exact littleEndian h
  | u64 => exact littleEndian h
  | i32 =>
    refine position_bind fun start => ?_
    have hlt : n < 2 ^ 31 := h
    have hvalue : (Int32.ofNat n).toInt = n := Int32.toInt_ofNat_of_lt hlt
    have hmod : ((n : ℤ) % Word.modulus 4).toNat = n := by
      have hmodulus : Word.modulus 4 = 2 ^ 32 := rfl
      rw [hmodulus]
      omega
    have hread := int32 (Int32.ofNat n)
    rw [hvalue, Word.toTwosComplement, hmod] at hread
    refine hread.followed ?_
    rw [hvalue, if_neg (by omega)]
    exact pure n

end Reads

/-! ## Lines -/

theorem Read.lineAfter_of_byte {source rest : Source} {next : UInt8}
    (h : Read.byte source = .ok next rest) (taken : Bytes) :
    Read.lineAfter taken source =
      if next = 0x0a then
        match taken with
        | 0x0d :: before => .ok before.reverse rest
        | _ => .ok taken.reverse rest
      else Read.lineAfter (next :: taken) rest := by
  rw [Read.lineAfter]
  split
  · next heq =>
    rw [h] at heq
    cases heq
  · next heq =>
    rw [h] at heq
    cases heq
    rfl

namespace Reads

variable {α β : Type} {first second : Bytes}

theorem lineAfter {body : Bytes} (hnewline : 0x0a ∉ body) (taken : Bytes)
    (hreturn : (taken.reverse ++ body).getLast? ≠ some 0x0d) :
    Reads (Read.lineAfter taken) (Layout.writeLine body) (taken.reverse ++ body) := by
  induction body generalizing taken with
  | nil =>
    intro source ending offset tail h
    obtain ⟨rest, hrun, hrest⟩ := byte 0x0a h
    refine ⟨rest, ?_, hrest⟩
    rw [Read.lineAfter_of_byte hrun, if_pos rfl, List.append_nil]
    split
    · next before =>
      rw [List.append_nil, List.reverse_cons, List.getLast?_concat] at hreturn
      exact absurd rfl hreturn
    · rfl
  | cons next others ih =>
    intro source ending offset tail h
    rw [List.mem_cons, not_or] at hnewline
    obtain ⟨rest, hrun, hrest⟩ := byte next h
    have hreverse : (next :: taken).reverse ++ others = taken.reverse ++ next :: others := by
      rw [List.reverse_cons, List.append_assoc, List.singleton_append]
    obtain ⟨last, hline, hlast⟩ := ih hnewline.2 (next :: taken) (by rwa [hreverse]) hrest
    refine ⟨last, ?_, ?_⟩
    · rw [Read.lineAfter_of_byte hrun, if_neg (Ne.symm hnewline.1), hline, hreverse]
    · have hlength : offset + [next].length + (Layout.writeLine others).length =
          offset + (Layout.writeLine (next :: others)).length := by
        simp only [Layout.writeLine, List.length_append, List.length_cons, List.length_nil]
        omega
      rwa [hlength] at hlast

/-- A line is read back with its meaning, if its end is not found before. -/
theorem lineAs {meaning : Bytes → Except LineFault α} {body : Bytes} {value : α}
    (hnewline : 0x0a ∉ body) (hreturn : body.getLast? ≠ some 0x0d)
    (hmeaning : meaning body = .ok value) :
    Reads (Read.lineAs meaning) (Layout.writeLine body) value := by
  refine position_bind fun start => ?_
  have hline : Reads Read.line (Layout.writeLine body) body := lineAfter hnewline [] hreturn
  refine hline.followed ?_
  rw [hmeaning]
  exact pure value

theorem printable {meaning : Bytes → Except LineFault α} {body : Bytes} {value : α}
    (h : Line.IsPrintable body) (hmeaning : meaning body = .ok value) :
    Reads (Read.lineAs meaning) (Layout.writeLine body) value :=
  lineAs h.newline_notMem h.getLast?_ne hmeaning

theorem bare {text : String} (h : Line.IsBare text) :
    Reads (Read.lineAs Line.readText) (Layout.writeLine (Utf8.encode text)) text :=
  lineAs h.1 h.2 (Line.readText_encode text)

/-! ## Arguments -/

theorem text (value : String) : Reads (Read.text value.utf8ByteSize) (Utf8.encode value) value := by
  refine position_bind fun start => ?_
  refine (bytes (Utf8.encode value) (Utf8.length_encode value)).followed ?_
  rw [Utf8.decode_encode]
  exact pure value

theorem counted {field : LengthField} {payload : ℕ → Read α} {value : Counted α}
    (hlength : value.length < field.bound)
    (hpayload : Reads (payload value.length) first value.payload) :
    Reads (Read.counted field payload) (field.write value.length ++ first) value := by
  have hvalue : Reads (payload value.length >>= fun taken => Pure.pure ⟨value.length, taken⟩) first
      value := hpayload.map fun taken => (⟨value.length, taken⟩ : Counted α)
  exact (length hlength).bind hvalue

/-- An argument is read back from what was written. -/
theorem layout {layout : Layout} (hframe : layout ≠ .frame) {argument : layout.Argument}
    (h : layout.WellFormed argument) : Reads layout.read (layout.write argument) argument := by
  cases layout with
  | absent => exact pure ()
  | u8 => exact byte argument
  | u16 =>
    have hlt : argument.toNat < Word.modulus 2 := argument.toNat_lt
    have hread := (littleEndian hlt).map UInt16.ofNat
    rwa [UInt16.ofNat_toNat] at hread
  | u32 =>
    have hlt : argument.toNat < Word.modulus 4 := argument.toNat_lt
    have hread := (littleEndian hlt).map UInt32.ofNat
    rwa [UInt32.ofNat_toNat] at hread
  | i32 => exact int32 argument
  | frame => exact absurd rfl hframe
  | double => exact double argument
  | indexLine =>
    exact printable (Line.isPrintable_decimalDigits _) (Line.readIndex_decimalDigits argument)
  | intLine => exact printable (Line.isPrintable_ofLiteral _) (Line.readInt_ofLiteral argument)
  | longLine => exact printable (Line.isPrintable_ofLong _) (Line.readLong_ofLong argument)
  | floatLine => exact printable (Line.isPrintable_ofFloat _) (Line.readFloat_ofFloat h)
  | quotedLine => exact printable (Line.isPrintable_ofBytes _) (Line.readQuoted_ofBytes argument)
  | escapedLine => exact printable (Line.isPrintable_ofText _) (Line.readEscaped_ofText argument)
  | textLine => exact bare h
  | nameLines =>
    obtain ⟨hnamespace, hname⟩ := h
    exact (bare hnamespace).bind ((bare hname).map fun name =>
      (⟨argument.namespace_, name⟩ : QualifiedName))
  | bytes field =>
    obtain ⟨hlength, hbound⟩ := h
    exact counted hbound (bytes argument.payload hlength.symm)
  | text field =>
    obtain ⟨hlength, hbound⟩ := h
    refine counted hbound ?_
    rw [hlength]
    exact text argument.payload
  | integer field =>
    -- The length field says how many bytes there are, and so where the sign bit is.
    obtain ⟨hfits, hbound⟩ := h
    refine counted hbound ?_
    have hread := (bytes (Word.toTwosComplement argument.length argument.payload)
      (Word.length_toTwosComplement _ _)).map Word.ofTwosComplement
    rwa [Word.ofTwosComplement_toTwosComplement hfits] at hread

theorem mapError {action : Read α} {value : α} (change : StreamError → StreamError)
    (h : Reads action first value) : Reads (Read.mapError change action) first value := by
  intro source ending offset tail hsource
  obtain ⟨rest, hrun, hrest⟩ := h hsource
  refine ⟨rest, ?_, hrest⟩
  rw [Read.mapError, hrun]

theorem leaveExhaustedFrames : Reads Read.leaveExhaustedFrames [] 0 := by
  rintro ⟨feed, position, _, _⟩ ending offset tail ⟨rfl, rfl, hposition, hbytes, hending⟩
  exact ⟨_, rfl, rfl, rfl, hposition, hbytes, hending⟩

/-! ## Instructions -/

/-- A legal instruction is read from its opcode and any spelling of its argument. -/
theorem spelled {version : ℕ} {instruction : Instruction}
    (hlegal : instruction.opcode.isLegal version) {argument : Bytes}
    (h : Reads instruction.opcode.layout.read argument instruction.argument) :
    Reads (Read.instruction version) (instruction.opcode.byte :: argument) (some instruction) := by
  have hdecode : Opcode.decode? instruction.opcode.byte version = some instruction.opcode := by
    rw [Opcode.decode?, Opcode.ofByte?_byte]
    exact Option.filter_some_pos hlegal
  have hargument : Reads (Read.argument instruction.opcode) argument instruction := by
    refine (h.mapError _).followed ?_
    exact leaveExhaustedFrames.followed (pure instruction)
  refine position_bind fun start => ?_
  refine (nextByte instruction.opcode.byte).bind ?_
  simp only [hdecode]
  exact hargument.map some

/-- A legal instruction is read back from its encoding. -/
theorem instruction {version : ℕ} {instruction : Instruction}
    (hlegal : instruction.opcode.isLegal version) (hframe : instruction.opcode ≠ .frame)
    (h : instruction.WellFormed) :
    Reads (Read.instruction version) instruction.encode (some instruction) :=
  spelled hlegal (layout (Opcode.layout_ne_frame hframe) h)

end Reads

end Source

end Pickle
