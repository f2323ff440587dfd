import Pickle.Machine.Step
import Pickle.Stream.Decoder

/-!
# Loading pickles

`load` decodes a feed and carries out its instructions one by one, up to the first stop; the value
there is the result, provided that no bytes follow, unless they are allowed.  `run` does the same
for instructions at hand.

An error of the stream comes up when the machine asks for the instruction, after everything before
it has been carried out.
-/

namespace Pickle

/-- What can be chosen about loading. -/
structure Options where
  /-- Whether the byte strings of old protocols stand for texts. -/
  decodesStrings : Bool := false
  /-- The version of the protocol, if it is not to be inferred. -/
  protocol : Option UInt8 := none
  /-- Constants beside the default ones, which they take precedence over. -/
  constants : Constants := .empty
  /-- The values of extension codes. -/
  extensions : List (Nat × Value) := []
  /-- The out-of-band buffers, if there are any. -/
  buffers : Option (List Bytes) := none
  /-- What makes objects of persistent ids, if anything does. -/
  loader : Option (Value → Except Error Value) := none
  /-- Whether bytes may follow the pickle. -/
  allowsTrailing : Bool := false
  /-- The routines of the host. -/
  host : Host := fun _ _ _ => invalidArguments (.custom "unknown routine")

namespace Options

/-- What a run under these options takes as given. -/
def environment (options : Options) : Environment where
  constants := Constants.default.overlay options.constants
  extensions := options.extensions
  loader := options.loader
  decodesStrings := options.decodesStrings
  host := options.host

/-- The machine before the first instruction of a run. -/
def machine (options : Options) : Machine := .initial options.buffers

end Options

/-- Carries out instructions up to the first stop, whose value is the result. -/
def Machine.run (env : Environment) (machine : Machine) :
    List Instruction → Except Error Value
  | [] => .error (.ofFailure .missingStop)
  | instruction :: rest =>
    match Exec.execute env instruction machine with
    | .ok (.halted value) _ => .ok value
    | .ok .running machine => machine.run env rest
    | .error error _ => .error error

/-- The value of a program under some options. -/
def run (program : List Instruction) (options : Options) : Except Error Value :=
  options.machine.run options.environment program

/-- Carries out the instructions that a decoder gives, up to the first stop.  With the value comes
what the decoder has left. -/
def Machine.runDecoder (env : Environment) (machine : Machine) (decoder : Decoder) :
    Except Error (Value × Decoder) :=
  match _h : decoder.next with
  | (.finished, _) => .error (.ofFailure .missingStop)
  | (.error error, _) => .error (.stream error)
  | (.instruction instruction, after) =>
    match Exec.execute env instruction machine with
    | .ok (.halted value) _ => .ok (value, after)
    | .ok .running machine => machine.runDecoder env after
    | .error error _ => .error error
termination_by decoder.source.size
decreasing_by exact Decoder.size_of_next _h

/-- The value that the pickle in a feed describes. -/
def load (feed : Feed) (options : Options) : Except Error Value := do
  let decoder ← (Decoder.ofFeed feed options.protocol).mapError Error.stream
  let (value, rest) ← options.machine.runDecoder options.environment decoder
  -- Nothing is asked for behind the pickle unless its absence matters.
  if options.allowsTrailing then return value
  rest.finish.1.mapError Error.stream
  return value

end Pickle
