import Pickle.Stream.Version

/-!
# Decoders: instructions from bytes

A `Decoder` reads one instruction after another from a source, under a fixed version of the
protocol.  An opcode that is not legal under the version is a fault at the opcode; an argument that
its bytes do not complete is a fault at the end of those bytes, be it the end of a frame or of the
stream.  After every instruction the frames that are exhausted are left.

A decoder gives instructions up to the first error, and nothing after it.
-/

namespace Pickle

/-- An unexpected end, told as the end inside the argument of an opcode. -/
def StreamError.inArgument (opcode : Opcode) : StreamError → StreamError
  | .malformed .unexpectedEnd offset => .malformed (.truncatedArgument opcode) offset
  | error => error

namespace Source.Read

/-- The argument of an opcode, with the frames left that it exhausts. -/
def argument (opcode : Opcode) : Read Instruction := do
  let argument ← mapError (.inArgument opcode) opcode.layout.read
  let _ ← leaveExhaustedFrames
  return ⟨opcode, argument⟩

/-- The next instruction, or none where the bytes end before one. -/
def instruction (version : Nat) : Read (Option Instruction) := do
  let start ← position
  match ← nextByte with
  | none => return none
  | some byte =>
    match Opcode.decode? byte version with
    | some opcode => return some (← argument opcode)
    -- The byte has been taken by now, but it is the byte that the offset is of.
    | none => failAt (.unknownOpcode byte version) start

/-- Fails if there is another byte. -/
def atEnd : Read Unit := do
  match ← nextByte with
  | none => return ()
  -- Here the offset is the one behind the byte.
  | some _ => fail .trailingBytes

/-- Reading an argument never gains bytes. -/
theorem Consumes.argument (opcode : Opcode) : Consumes (Read.argument opcode) := by
  refine bind ?_ fun argument => bind leaveExhaustedFrames fun _ => pure _
  intro source rest value h
  unfold mapError at h
  split at h
  · next hread => cases h; exact layout opcode.layout hread
  · cases h

/-- Every instruction takes at least the byte of its opcode. -/
theorem size_of_instruction {version : Nat} {source rest : Source} {taken : Instruction}
    (h : instruction version source = .ok (some taken) rest) : rest.size < source.size := by
  obtain ⟨start, _, hstart, hnext⟩ := bind_eq_ok h
  cases hstart
  obtain ⟨byte?, middle, hbyte, hread⟩ := bind_eq_ok hnext
  cases byte? with
  | none => cases hread
  | some byte =>
    cases hdecode : Opcode.decode? byte version with
    | none =>
      simp only [hdecode] at hread
      cases hread
    | some opcode =>
      simp only [hdecode] at hread
      obtain ⟨_, after, hargument, hdone⟩ := bind_eq_ok hread
      cases hdone
      exact Nat.lt_of_le_of_lt (Consumes.argument _ hargument)
        (by rw [size_of_nextByte hbyte]; exact Nat.lt_succ_self _)

end Source.Read

/-- A source that is read as a pickle of a version. -/
structure Decoder where
  /-- What is read. -/
  source : Source
  /-- The version of the protocol. -/
  version : Nat
  /-- Whether an error has ended the reading. -/
  failed : Bool
  deriving Inhabited

namespace Decoder

/-- What a decoder gives when it is asked for an instruction. -/
inductive Step where
  /-- An instruction. -/
  | instruction (instruction : Instruction)
  /-- The error that ends the reading. -/
  | error (error : StreamError)
  /-- Nothing: the bytes have ended, or an error came before. -/
  | finished

/-- A decoder of a source for a version that is at most the highest one. -/
def ofSource (source : Source) (version : UInt8) : Except StreamError Decoder :=
  if version.toNat ≤ Opcode.highestVersion then .ok ⟨source, version.toNat, false⟩
  else .error (.malformed (.unsupportedProtocol version) source.position)

/-- A decoder of a feed for a given version, or else for the one that the bytes show. -/
def ofFeed (feed : Feed) (version : Option UInt8) : Except StreamError Decoder :=
  match version with
  | some version => ofSource (Source.ofFeed feed) version
  | none =>
    match Source.Read.inferVersion (Source.ofFeed feed) with
    | .ok version source => ofSource source version
    | .error error _ => .error error

/-- The offset of the next byte. -/
def position (decoder : Decoder) : Nat := decoder.source.position

/-- The next instruction, and the decoder after it. -/
def next (decoder : Decoder) : Step × Decoder :=
  if decoder.failed then (.finished, decoder)
  else
    match Source.Read.instruction decoder.version decoder.source with
    | .ok (some instruction) source => (.instruction instruction, { decoder with source })
    | .ok none source => (.finished, { decoder with source })
    | .error error source => (.error error, { decoder with source, failed := true })

/-- An instruction leaves the decoder with fewer bytes. -/
theorem size_of_next {decoder after : Decoder} {instruction : Instruction}
    (h : decoder.next = (.instruction instruction, after)) :
    after.source.size < decoder.source.size := by
  unfold next at h
  split at h
  · simp at h
  · split at h
    · next hread =>
      simp only [Prod.mk.injEq, Step.instruction.injEq] at h
      obtain ⟨rfl, rfl⟩ := h
      exact Source.Read.size_of_instruction hread
    · simp at h
    · simp at h

/-- Makes sure that no byte follows. -/
def finish (decoder : Decoder) : Except StreamError Unit × Decoder :=
  match Source.Read.atEnd decoder.source with
  | .ok () source => (.ok (), { decoder with source })
  | .error error source => (.error error, { decoder with source })

/-- All instructions to come after those in `taken`, the latest of which is first; or the error that
ends the reading. -/
def collect (decoder : Decoder) (taken : List Instruction) :
    Except StreamError (List Instruction) :=
  match _h : decoder.next with
  | (.instruction instruction, after) => after.collect (instruction :: taken)
  | (.error error, _) => .error error
  | (.finished, _) => .ok taken.reverse
termination_by decoder.source.size
decreasing_by exact size_of_next _h

/-- All instructions to come, or the error that ends the reading. -/
def instructions (decoder : Decoder) : Except StreamError (List Instruction) :=
  decoder.collect []

end Decoder

/-- The instructions of a feed, under a given version or else the one that the bytes show. -/
def decodeAll (feed : Feed) (version : Option UInt8) : Except StreamError (List Instruction) := do
  (← Decoder.ofFeed feed version).instructions

end Pickle
