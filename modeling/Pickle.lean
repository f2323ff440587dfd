import Pickle.Instruction.Encoding
import Pickle.Load
import Pickle.Machine.Heap
import Pickle.Typed.Record
import Pickle.Value.Measure
import Pickle.Proofs.Machine.Allocation
import Pickle.Proofs.Machine.References
import Pickle.Proofs.Machine.Conversion
import Pickle.Proofs.Machine.Aliasing
import Pickle.Proofs.Instruction.Words
import Pickle.Proofs.Line.Integers
import Pickle.Proofs.Double.Exact
import Pickle.Proofs.Line.Strings
import Pickle.Proofs.Line.Floats
import Pickle.Proofs.Line.Faults
import Pickle.Proofs.Line.Numerals
import Pickle.Proofs.Line.Escapes
import Pickle.Proofs.Line.Decimals
import Pickle.Proofs.Stream.Reading
import Pickle.Proofs.Stream.RoundTrip
import Pickle.Proofs.Stream.Window
import Pickle.Proofs.Stream.Framing
import Pickle.Proofs.Stream.Inference
import Pickle.Proofs.Stream.Headerless
import Pickle.Proofs.Machine.Brackets
import Pickle.Proofs.Machine.Limits
import Pickle.Proofs.Machine.Accounting
import Pickle.Proofs.Machine.Calls
import Pickle.Proofs.Machine.Standing
import Pickle.Proofs.Machine.Copies
import Pickle.Proofs.Machine.Doubling
import Pickle.Proofs.Machine.Growth
import Pickle.Proofs.Double.Value
import Pickle.Proofs.Value.Order
import Pickle.Proofs.Value.Numbers
import Pickle.Proofs.Value.Maps
import Pickle.Proofs.Value.Sorted
import Pickle.Proofs.Value.Parts
import Pickle.Proofs.Stream.Spans
import Pickle.Proofs.Stream.Front
import Pickle.Proofs.Stream.Delivery
import Pickle.Proofs.Stream.Truncation
import Pickle.Proofs.Stream.Reports
import Pickle.Proofs.Stream.Offsets
import Pickle.Proofs.Machine.Renaming
import Pickle.Proofs.Machine.Mirroring
import Pickle.Proofs.Machine.MirroredSteps
import Pickle.Proofs.Machine.Padding
import Pickle.Proofs.Machine.Lone
import Pickle.Proofs.Machine.Unread
import Pickle.Proofs.Stream.Entering
import Pickle.Proofs.Stream.Versions
import Pickle.Proofs.Machine.Batches
import Pickle.Proofs.Machine.Spellings
import Pickle.Proofs.Machine.Expansion
import Pickle.Proofs.Machine.Embedding
import Pickle.Proofs.Machine.Nesting
import Pickle.Proofs.Machine.Charges
import Pickle.Proofs.Machine.Atoms
import Pickle.Proofs.Machine.Integers
import Pickle.Proofs.Instruction.TwosComplement
import Pickle.Proofs.Machine.Numbering
import Pickle.Proofs.Machine.Arguments
import Pickle.Proofs.Machine.Blame
import Pickle.Proofs.Stream.Loading
import Pickle.Proofs.Stream.Verdicts
import Pickle.Proofs.Stream.Decimals
import Pickle.Proofs.Typed.Normalization
import Pickle.Proofs.Typed.Shapes
import Pickle.Proofs.Host.Latin1
import Pickle.Proofs.Stream.ByteStrings
