import Mathlib
import Pickle.Proofs.Line.Faults
import Pickle.Proofs.Stream.Inference

/-!
# What readers report

A reader sees the window of its source alone, so all that it can be at fault with is a place in the
window.  `Source.Reports` says what a reader comes to: an end that is good, or a fault at a distance
from the front of the window.  In a sequence the distances add up (`Reports.after`), so one law for
each reader gives the faults of every argument (`Layout.Faults`, `isArgument_read`) and of every
instruction (`InstructionFaults`, `Reports.instruction`).

A fault of a line stands in the line, and where the line stands, the first or the second one of the
argument, is known from what was taken before it.  Bytes that are missed are missed at the end of
the window, however much of it has been taken.
-/

namespace Pickle

open Source

/-- Whether bytes are a line with its end, which is a newline or a carriage return and a newline. -/
def Line.IsEnded (body ended : Bytes) : Prop :=
  0x0a ∉ body ∧
    (ended = body ++ [0x0d, 0x0a] ∨ ended = body ++ [0x0a] ∧ body.getLast? ≠ some 0x0d)

/-! ## Reports of readers -/

namespace Source

/-- What a reader comes to that starts from a source: an end that is good, or a fault whose distance
from the offset of the source is one of `faults`.  Of a medium that fails nothing is said. -/
inductive Reports {α : Type} (source : Source) (good : α → Source → Prop)
    (faults : Fault → ℕ → Prop) : EStateM.Result StreamError Source α → Prop
  | ok {value : α} {rest : Source} (h : good value rest) :
      Reports source good faults (.ok value rest)
  | malformed {fault : Fault} {distance : ℕ} {rest : Source} (h : faults fault distance) :
      Reports source good faults (.error (.malformed fault (source.position + distance)) rest)
  | unreadable {rest : Source} : Reports source good faults (.error .unreadable rest)

/-- The end of some bytes, which is where they are missed. -/
def IsEnd (bytes : Bytes) (fault : Fault) (distance : ℕ) : Prop :=
  fault = .unexpectedEnd ∧ distance = bytes.length

theorem isEnd_write (field : LengthField) (count : ℕ) (tail : Bytes) :
    IsEnd (field.write count ++ tail) .unexpectedEnd (field.width + tail.length) := by
  refine ⟨rfl, ?_⟩
  rw [List.length_append, LengthField.write, Word.length_toLittleEndian]

/-- Bytes end where they end, however many of them have been taken. -/
theorem IsEnd.after {source middle : Source} {taken : Bytes} {fault : Fault} {distance : ℕ}
    (h : IsEnd middle.window fault distance) (hmiddle : source.HandsOut taken middle) :
    IsEnd source.window fault (taken.length + distance) := by
  obtain ⟨rfl, rfl⟩ := h
  rw [hmiddle.window]
  exact ⟨rfl, List.length_append.symm⟩

namespace Reports

variable {α β : Type} {source : Source} {good : α → Source → Prop} {faults : Fault → ℕ → Prop}

theorem imp {other : Fault → ℕ → Prop} {better : α → Source → Prop}
    {result : EStateM.Result StreamError Source α} (h : source.Reports good faults result)
    (hgood : ∀ value rest, good value rest → better value rest)
    (hfaults : ∀ fault distance, faults fault distance → other fault distance) :
    source.Reports better other result := by
  cases h with
  | ok h => exact .ok (hgood _ _ h)
  | malformed h => exact .malformed (hfaults _ _ h)
  | unreadable => exact .unreadable

theorem bind {middle : Source} {action : Read α} {next : α → Read β} {better : β → Source → Prop}
    (h : source.Reports good faults (action middle))
    (hnext : ∀ value rest, good value rest → source.Reports better faults (next value rest)) :
    source.Reports better faults ((action >>= next) middle) := by
  generalize hresult : action middle = result at h
  cases h with
  | ok h =>
    rw [Read.bind_of_eq_ok hresult]
    exact hnext _ _ h
  | malformed h =>
    rw [Read.bind_of_eq_error hresult]
    exact .malformed h
  | unreadable =>
    rw [Read.bind_of_eq_error hresult]
    exact .unreadable

/-- A fault may stand where the reader started. -/
theorem at_front {fault : Fault} {rest : Source} (h : faults fault 0) :
    source.Reports good faults (.error (.malformed fault source.position) rest) := .malformed h

theorem position_bind {next : ℕ → Read α}
    (h : source.Reports good faults (next source.position source)) :
    source.Reports good faults ((Read.position >>= next) source) := h

/-- What is reported from further on lies further off. -/
theorem after {middle : Source} {taken : Bytes} {other : Fault → ℕ → Prop}
    {result : EStateM.Result StreamError Source α} (hmiddle : source.HandsOut taken middle)
    (h : middle.Reports good other result)
    (hfaults : ∀ fault distance, other fault distance → faults fault (taken.length + distance)) :
    source.Reports good faults result := by
  cases h with
  | ok h => exact .ok h
  | malformed h =>
    rw [hmiddle.position, Nat.add_assoc]
    exact .malformed (hfaults _ _ h)
  | unreadable => exact .unreadable

/-! ## Readers of bytes -/

theorem byte (source : Source) :
    source.Reports (fun byte rest => source.HandsOut [byte] rest) (IsEnd source.window)
      (Read.byte source) := by
  cases hwindow : source.window with
  | cons head tail =>
    obtain ⟨rest, hrun, hrest⟩ := byte_of_window hwindow
    rw [hrun]
    exact .ok hrest
  | nil =>
    by_cases hends : source.Ends
    · obtain ⟨rest, hrun, hrest⟩ := byte_of_window_nil hwindow hends
      rw [hrun, hrest.position]
      exact .malformed ⟨rfl, rfl⟩
    · have hrun : Read.byte source = .error .unreadable source :=
        Read.bind_of_eq_error (nextByte_of_failure hwindow hends)
      rw [hrun]
      exact .unreadable

theorem bytes (source : Source) (count : ℕ) :
    source.Reports (fun value rest => source.HandsOut value rest ∧ value.length = count)
      (IsEnd source.window) (Read.bytes count source) := by
  by_cases hcount : count ≤ source.window.length
  · obtain ⟨rest, hrun, hrest⟩ := bytes_of_le hcount
    rw [hrun]
    exact .ok ⟨hrest, List.length_take_of_le hcount⟩
  · rw [not_le] at hcount
    by_cases hends : source.Ends
    · obtain ⟨rest, hrun, hrest⟩ := bytes_of_lt hcount hends
      rw [hrun, hrest.position]
      exact .malformed ⟨rfl, rfl⟩
    · rw [bytes_of_failure hcount hends]
      exact .unreadable

theorem littleEndian (source : Source) (width : ℕ) :
    source.Reports (fun n rest => ∃ taken, source.HandsOut taken rest ∧ taken.length = width ∧
      n = Word.ofLittleEndian taken) (IsEnd source.window) (Read.littleEndian width source) :=
  (bytes source width).bind fun value _ h => .ok ⟨value, h.1, h.2, rfl⟩

theorem int32 (source : Source) :
    source.Reports (fun n rest => ∃ taken, source.HandsOut taken rest ∧ taken.length = 4 ∧
      n.toInt = Word.ofTwosComplement taken) (IsEnd source.window) (Read.int32 source) := by
  refine (littleEndian source 4).bind ?_
  rintro _ rest ⟨taken, htaken, hlength, rfl⟩
  exact .ok ⟨taken, htaken, hlength, Word.toInt_toInt32 hlength⟩

theorem double (source : Source) :
    source.Reports (fun _ rest => ∃ taken, source.HandsOut taken rest) (IsEnd source.window)
      (Read.double source) :=
  (bytes source 8).bind fun value _ h => .ok ⟨value, h.1⟩

/-- The faults of a length in front of some bytes. -/
inductive LengthFaults (bytes : Bytes) : LengthField → Fault → ℕ → Prop
  | ended {field : LengthField} : LengthFaults bytes field .unexpectedEnd bytes.length
  | negative {front : Bytes} (hfront : front <+: bytes) (hlength : front.length = 4)
      (h : Word.ofTwosComplement front < 0) : LengthFaults bytes .i32 .negativeLength 0

theorem length (source : Source) (field : LengthField) :
    source.Reports (fun n rest => source.HandsOut (field.write n) rest ∧ n < field.bound)
      (LengthFaults source.window field) (Read.length field source) := by
  have hended : ∀ fault distance, IsEnd source.window fault distance →
      LengthFaults source.window field fault distance := by
    rintro _ _ ⟨rfl, rfl⟩
    exact .ended
  have hunsigned : ∀ width, field.width = width → field.bound = Word.modulus width →
      source.Reports (fun n rest => source.HandsOut (field.write n) rest ∧ n < field.bound)
        (LengthFaults source.window field) (Read.littleEndian width source) := by
    intro width hwidth hbound
    refine (littleEndian source width).imp ?_ hended
    rintro n rest ⟨taken, htaken, hread⟩
    obtain ⟨hwrite, hlt⟩ := Takes.toLittleEndian hread
    rw [hbound, LengthField.write, hwidth, ← hwrite]
    exact ⟨htaken, hlt⟩
  cases field with
  | u8 =>
    refine ((byte source).imp (fun _ _ h => h) hended).bind fun byte rest h =>
      .ok ⟨?_, byte.toNat_lt⟩
    have hwrite : LengthField.u8.write byte.toNat = [byte] := by
      simp [LengthField.write, LengthField.width, Word.toLittleEndian]
    rw [hwrite]
    exact h
  | u32 => exact hunsigned 4 rfl rfl
  | u64 => exact hunsigned 8 rfl rfl
  | i32 =>
    refine position_bind (((int32 source).imp (fun _ _ h => h) hended).bind ?_)
    rintro n rest ⟨taken, htaken, hlength, hvalue⟩
    split
    · next hnegative =>
      exact at_front (.negative ⟨_, htaken.window.symm⟩ hlength (hvalue ▸ hnegative))
    · next hsign =>
      -- Without the sign bit, the signed field is read as an unsigned one would be.
      have hlt := n.toInt_lt
      have hwrite : LengthField.i32.write n.toInt.toNat = taken := by
        have hword := Word.toTwosComplement_ofTwosComplement taken
        rw [hlength, ← hvalue, Word.toTwosComplement,
          Int.emod_eq_of_lt (by omega) (lt_of_lt_of_le hlt (by decide))] at hword
        exact hword
      refine .ok ⟨hwrite ▸ htaken, ?_⟩
      show n.toInt.toNat < 0x80000000
      omega

/-! ## Readers of lines -/

theorem lineAfter (source : Source) (taken : Bytes) :
    source.Reports (fun body rest => ∃ front, source.HandsOut (front ++ [0x0a]) rest ∧
        0x0a ∉ front ∧ (body = taken.reverse ++ front ∧ body.getLast? ≠ some 0x0d ∨
          body ++ [0x0d] = taken.reverse ++ front))
      (IsEnd source.window) (Read.lineAfter taken source) := by
  have hbyte := byte source
  fun_induction Read.lineAfter taken source with
  | case1 taken source error rest hrun =>
    rw [hrun] at hbyte
    cases hbyte with
    | malformed h => exact .malformed h
    | unreadable => exact .unreadable
  | case2 source rest before hrun =>
    rw [hrun] at hbyte
    cases hbyte with
    | ok hrest =>
      refine .ok ⟨[], hrest, List.not_mem_nil, .inr ?_⟩
      rw [List.append_nil, List.reverse_cons]
  | case3 source taken rest hreturn hrun =>
    rw [hrun] at hbyte
    cases hbyte with
    | ok hrest =>
      refine .ok ⟨[], hrest, List.not_mem_nil, .inl ⟨(List.append_nil _).symm, ?_⟩⟩
      rw [List.getLast?_reverse]
      intro hhead
      obtain ⟨before, rfl⟩ := List.head?_eq_some_iff.1 hhead
      exact hreturn before rfl
  -- One more byte of the line, so the end is one byte further off.
  | case4 source taken next middle hrun hnewline ih =>
    rw [hrun] at hbyte
    cases hbyte with
    | ok hmiddle =>
      refine after hmiddle ((ih (byte middle)).imp ?_ fun _ _ h => h) ?_
      · rintro body rest ⟨front, hfront, hnone, hbody⟩
        refine ⟨next :: front, hmiddle.trans hfront, ?_, ?_⟩
        · rw [List.mem_cons, not_or]
          exact ⟨Ne.symm hnewline, hnone⟩
        · rw [List.reverse_cons, List.append_assoc, List.singleton_append] at hbody
          exact hbody
      · exact fun _ _ hend => hend.after hmiddle

theorem line (source : Source) :
    source.Reports (fun body rest => ∃ ended, source.HandsOut ended rest ∧ Line.IsEnded body ended)
      (IsEnd source.window) (Read.line source) := by
  refine (lineAfter source []).imp ?_ fun _ _ h => h
  rintro body rest ⟨front, hfront, hnone, ⟨rfl, hreturn⟩ | hreturn⟩
  · exact ⟨_, hfront, hnone, .inr ⟨rfl, hreturn⟩⟩
  · obtain rfl : body ++ [0x0d] = front := hreturn
    refine ⟨_, hfront, fun hmem => hnone (List.mem_append_left _ hmem), .inl ?_⟩
    rw [List.append_assoc]
    rfl

/-- A line with a meaning is at fault in the line, in the way of the meaning. -/
theorem lineAs (source : Source) {meaning : Bytes → Except LineFault α}
    {blames : Bytes → LineFault → Prop}
    (hmeaning : ∀ body fault, meaning body = .error fault → blames body fault) :
    source.Reports
      (fun _ rest => ∃ body ended, source.HandsOut ended rest ∧ Line.IsEnded body ended)
      (fun fault distance => IsEnd source.window fault distance ∨ ∃ body ended,
        ended <+: source.window ∧ Line.IsEnded body ended ∧ blames body ⟨fault, distance⟩)
      (Read.lineAs meaning source) := by
  refine position_bind (((line source).imp (fun _ _ h => h) fun _ _ h => .inl h).bind ?_)
  rintro body rest ⟨ended, hended, hline⟩
  cases hvalue : meaning body with
  | ok value => exact .ok ⟨body, ended, hended, hline⟩
  | error fault =>
    exact .malformed (.inr ⟨body, ended, ⟨_, hended.window.symm⟩, hline, hmeaning _ _ hvalue⟩)

/-! ## Readers of payloads -/

/-- The faults of a text of so many bytes in front of others. -/
def TextFaults (count : ℕ) (bytes : Bytes) (fault : Fault) (distance : ℕ) : Prop :=
  IsEnd bytes fault distance ∨ fault = .notUtf8 ∧ distance = 0 ∧
    ∃ payload, payload <+: bytes ∧ payload.length = count ∧ Utf8.decode payload = none

theorem text (source : Source) (count : ℕ) :
    source.Reports (fun _ rest => ∃ taken, source.HandsOut taken rest)
      (TextFaults count source.window) (Read.text count source) := by
  refine position_bind (((bytes source count).imp (fun _ _ h => h) fun _ _ h => .inl h).bind ?_)
  rintro payload rest ⟨hpayload, hcount⟩
  cases hdecode : Utf8.decode payload with
  | some value => exact .ok ⟨payload, hpayload⟩
  | none => exact at_front (.inr ⟨rfl, rfl, payload, ⟨_, hpayload.window.symm⟩, hcount, hdecode⟩)

theorem integer (source : Source) (count : ℕ) :
    source.Reports (fun _ rest => ∃ taken, source.HandsOut taken rest) (IsEnd source.window)
      ((return Word.ofTwosComplement (← Read.bytes count)) source) :=
  (bytes source count).bind fun value _ h => .ok ⟨value, h.1⟩

/-- A counted payload is at fault in its length, or in the payload behind that. -/
theorem counted (source : Source) {field : LengthField} {payload : ℕ → Read α}
    (faults : ℕ → Bytes → Fault → ℕ → Prop)
    (h : ∀ (middle : Source) (count : ℕ), middle.Reports
      (fun _ rest => ∃ taken, middle.HandsOut taken rest) (faults count middle.window)
      (payload count middle)) :
    source.Reports (fun _ rest => ∃ taken, source.HandsOut taken rest)
      (fun fault distance => LengthFaults source.window field fault distance ∨
        ∃ count tail further, count < field.bound ∧ source.window = field.write count ++ tail ∧
          faults count tail fault further ∧ distance = field.width + further)
      (Read.counted field payload source) := by
  refine ((length source field).imp (fun _ _ h => h) fun _ _ h => .inl h).bind ?_
  rintro count middle ⟨hmiddle, hbound⟩
  have hpayload : source.Reports (fun _ rest => ∃ taken, source.HandsOut taken rest)
      (fun fault distance => LengthFaults source.window field fault distance ∨
        ∃ count tail further, count < field.bound ∧ source.window = field.write count ++ tail ∧
          faults count tail fault further ∧ distance = field.width + further)
      (payload count middle) := by
    refine after hmiddle ((h middle count).imp ?_ fun _ _ h => h) ?_
    · rintro value rest ⟨taken, htaken⟩
      exact ⟨_, hmiddle.trans htaken⟩
    · intro fault further hfault
      refine .inr ⟨count, middle.window, further, hbound, hmiddle.window, hfault, ?_⟩
      rw [LengthField.write, Word.length_toLittleEndian]
  exact hpayload.bind fun _ _ htaken => .ok htaken

end Reports

end Source

/-! ## Faults of arguments and instructions -/

/-- The faults of an argument whose bytes are in front of others, with their distances. -/
inductive Layout.Faults (bytes : Bytes) : Layout → Fault → ℕ → Prop
  | ended {layout : Layout} : Faults bytes layout .unexpectedEnd bytes.length
  /-- The argument is a line, or begins with one. -/
  | line {layout : Layout} {body ended : Bytes} {fault : Fault} {distance : ℕ}
      (hended : ended <+: bytes) (hline : Line.IsEnded body ended)
      (h : LineFault.StandsIn ⟨fault, distance⟩ body) : Faults bytes layout fault distance
  /-- The argument is two lines, the second of which is at fault. -/
  | secondLine {first firstEnded body ended : Bytes} (hended : firstEnded ++ ended <+: bytes)
      (hfirst : Line.IsEnded first firstEnded) (hline : Line.IsEnded body ended)
      (h : Utf8.decode body = none) :
      Faults bytes .nameLines .notUtf8 firstEnded.length
  /-- The argument begins with a length that is negative. -/
  | length {layout : Layout} {front : Bytes}
      (hlayout : layout = .bytes .i32 ∨ layout = .text .i32 ∨ layout = .integer .i32)
      (hfront : front <+: bytes) (hlength : front.length = 4)
      (h : Word.ofTwosComplement front < 0) : Faults bytes layout .negativeLength 0
  /-- The argument is a text with its length in front. -/
  | payload {field : LengthField} {payload : Bytes} (hbound : payload.length < field.bound)
      (hpayload : field.write payload.length ++ payload <+: bytes)
      (h : Utf8.decode payload = none) : Faults bytes (.text field) .notUtf8 field.width

/-- Any argument may end too early. -/
theorem Layout.Faults.of_isEnd {bytes : Bytes} {layout : Layout} {fault : Fault} {distance : ℕ}
    (h : IsEnd bytes fault distance) : layout.Faults bytes fault distance := by
  obtain ⟨rfl, rfl⟩ := h
  exact .ended

/-- Bytes are missed at their end only. -/
theorem Layout.Faults.eq_length {bytes : Bytes} {layout : Layout} {distance : ℕ}
    (h : layout.Faults bytes .unexpectedEnd distance) : distance = bytes.length := by
  cases h with
  | ended => rfl
  | line _ _ h => exact h.elim

namespace Source

/-- Whether an action reads an argument of a layout with no faults but those of the layout.  What is
taken for it is taken from the window, unless a new window is opened. -/
def IsArgument {α : Type} (layout : Layout) (action : Read α) : Prop :=
  ∀ source : Source, source.Reports
    (fun _ rest => layout ≠ .frame → ∃ taken, source.HandsOut taken rest)
    (layout.Faults source.window) (action source)

namespace IsArgument

variable {α : Type} {layout : Layout}

theorem of_end {action : Read α}
    (h : ∀ source : Source, source.Reports (fun _ rest => ∃ taken, source.HandsOut taken rest)
      (IsEnd source.window) (action source)) : IsArgument layout action := by
  exact fun source => (h source).imp (fun _ _ htaken _ => htaken) fun _ _ hend => .of_isEnd hend

theorem lineAs {meaning : Bytes → Except LineFault α}
    (hmeaning : ∀ body fault, meaning body = .error fault → fault.StandsIn body) :
    IsArgument layout (Read.lineAs meaning) := by
  refine fun source => (Reports.lineAs source hmeaning).imp ?_ ?_
  · rintro _ rest ⟨body, ended, htaken, -⟩ -
    exact ⟨ended, htaken⟩
  · rintro _ _ (hend | ⟨body, ended, hstarts, hline, hstands⟩)
    · exact .of_isEnd hend
    · exact .line hstarts hline hstands

/-- A name is at fault in its first line, or in the one behind that. -/
theorem nameLines : IsArgument .nameLines Layout.nameLines.read := by
  intro source
  refine ((Reports.lineAs source fun _ _ => Line.readText_eq_error).imp (fun _ _ h => h) ?_).bind ?_
  · rintro _ _ (hend | ⟨body, ended, hstarts, hline, hfault, hdecode⟩)
    · exact .of_isEnd hend
    · cases hfault
      exact .line hstarts hline ⟨rfl, hdecode⟩
  · rintro first middle ⟨firstBody, firstEnded, hfirst, hfirstLine⟩
    have hsecond : source.Reports (fun _ rest => ∃ taken, source.HandsOut taken rest)
        (Layout.nameLines.Faults source.window) (Read.lineAs Line.readText middle) := by
      refine .after hfirst
        ((Reports.lineAs middle fun _ _ => Line.readText_eq_error).imp ?_ fun _ _ h => h) ?_
      · rintro _ rest ⟨body, ended, hended, -⟩
        exact ⟨_, hfirst.trans hended⟩
      · rintro _ _ (hend | ⟨body, ended, ⟨back, hback⟩, hline, hfault, hdecode⟩)
        · exact .of_isEnd (hend.after hfirst)
        · cases hfault
          refine .secondLine ⟨back, ?_⟩ hfirstLine hline hdecode
          rw [hfirst.window, List.append_assoc, hback]
    exact hsecond.bind fun _ _ htaken => .ok fun _ => htaken

/-- A counted payload is at fault in its length, or in the way of the payload. -/
theorem counted {field : LengthField} {payload : ℕ → Read α}
    (hlayout : layout = .bytes field ∨ layout = .text field ∨ layout = .integer field)
    (faults : ℕ → Bytes → Fault → ℕ → Prop)
    (hpayload : ∀ (middle : Source) (count : ℕ), middle.Reports
      (fun _ rest => ∃ taken, middle.HandsOut taken rest) (faults count middle.window)
      (payload count middle))
    (hfaults : ∀ count tail fault distance, count < field.bound → faults count tail fault distance →
      layout.Faults (field.write count ++ tail) fault (field.width + distance)) :
    IsArgument layout (Read.counted field payload) := by
  refine fun source => (Reports.counted source faults hpayload).imp (fun _ _ h _ => h) ?_
  rintro fault _ (hlength | ⟨count, tail, distance, hbound, hwindow, hfault, rfl⟩)
  · cases hlength with
    | ended => exact .ended
    | negative hfront hlength hnegative => exact .length hlayout hfront hlength hnegative
  · rw [hwindow]
    exact hfaults count tail fault distance hbound hfault

theorem counted_of_end {field : LengthField} {payload : ℕ → Read α}
    (hlayout : layout = .bytes field ∨ layout = .text field ∨ layout = .integer field)
    (hpayload : ∀ (middle : Source) (count : ℕ), middle.Reports
      (fun _ rest => ∃ taken, middle.HandsOut taken rest) (IsEnd middle.window)
      (payload count middle)) : IsArgument layout (Read.counted field payload) := by
  refine counted hlayout (fun _ => IsEnd) hpayload ?_
  rintro count tail _ _ - ⟨rfl, rfl⟩
  exact .of_isEnd (isEnd_write field count tail)

theorem text (field : LengthField) : IsArgument (.text field) (Layout.text field).read := by
  refine counted (.inr (.inl rfl)) Reports.TextFaults Reports.text ?_
  rintro count tail _ _ hbound (⟨rfl, rfl⟩ | ⟨rfl, rfl, payload, ⟨rest, rfl⟩, rfl, hdecode⟩)
  · exact .of_isEnd (isEnd_write field count tail)
  · refine .payload hbound ⟨rest, ?_⟩ hdecode
    rw [List.append_assoc]

/-- A frame is at fault where its length or its bytes end too early. -/
theorem frame : IsArgument .frame Layout.frame.read := by
  intro source
  refine ((Reports.littleEndian source 8).imp (fun _ _ h => h) fun _ _ => .of_isEnd).bind ?_
  rintro count middle ⟨taken, htaken, -⟩
  have hbody : source.Reports (fun _ _ => True) (Layout.frame.Faults source.window)
      (Read.bytes count middle) :=
    .after htaken ((Reports.bytes middle count).imp (fun _ _ _ => trivial) fun _ _ h => h)
      fun _ _ hend => .of_isEnd (hend.after htaken)
  have henter : source.Reports (fun _ _ => True) (Layout.frame.Faults source.window)
      (Read.enterFrame count middle) := hbody.bind fun _ _ _ => .ok trivial
  exact henter.bind fun _ _ _ => .ok fun hframe => absurd rfl hframe

/-- A number of fixed width is at fault where it ends too early. -/
theorem littleEndian {width : ℕ} (f : ℕ → α) :
    IsArgument layout ((return f (← Read.littleEndian width)) : Read α) :=
  of_end fun source => (Reports.littleEndian source width).bind fun _ _ h =>
    .ok ⟨h.choose, h.choose_spec.1⟩

end IsArgument

/-- Every argument is read with the faults of its layout. -/
theorem isArgument_read (layout : Layout) : IsArgument layout layout.read := by
  cases layout with
  | absent => exact .of_end fun source => .ok ⟨[], .refl source⟩
  | u8 =>
    exact .of_end fun source =>
      (Reports.byte source).imp (fun byte _ h => ⟨[byte], h⟩) fun _ _ h => h
  | u16 => exact .littleEndian UInt16.ofNat
  | u32 => exact .littleEndian UInt32.ofNat
  | i32 => exact .littleEndian fun n => (UInt32.ofNat n).toInt32
  | frame => exact .frame
  | double => exact .of_end Reports.double
  | indexLine => exact .lineAs fun _ _ => Line.standsIn_of_readIndex
  | intLine => exact .lineAs fun _ _ => Line.standsIn_of_readInt
  | longLine => exact .lineAs fun _ _ => Line.standsIn_of_readLong
  | floatLine => exact .lineAs fun _ _ => Line.standsIn_of_readFloat
  | quotedLine => exact .lineAs fun _ _ => Line.standsIn_of_readQuoted
  | escapedLine => exact .lineAs fun _ _ => Line.standsIn_of_readEscaped
  | textLine => exact .lineAs fun _ _ => Line.standsIn_of_readText
  | nameLines => exact .nameLines
  | bytes field =>
    exact .counted_of_end (.inl rfl) fun middle count =>
      (Reports.bytes middle count).imp (fun taken _ h => ⟨taken, h.1⟩) fun _ _ h => h
  | text field => exact .text field
  | integer field => exact .counted_of_end (.inr (.inr rfl)) Reports.integer

/-- The faults of an instruction whose bytes are in front of others, with their distances. -/
inductive InstructionFaults (version : ℕ) (bytes : Bytes) : Fault → ℕ → Prop
  | unknownOpcode {byte : UInt8} (h : bytes[0]? = some byte) :
      InstructionFaults version bytes (.unknownOpcode byte version) 0
  | truncated {opcode : Opcode} (h : bytes[0]? = some opcode.byte) :
      InstructionFaults version bytes (.truncatedArgument opcode) bytes.length
  | argument {opcode : Opcode} {tail : Bytes} {fault : Fault} {distance : ℕ}
      (h : bytes = opcode.byte :: tail) (hend : fault ≠ .unexpectedEnd)
      (hfault : opcode.layout.Faults tail fault distance) :
      InstructionFaults version bytes fault (1 + distance)

theorem Reports.mapError {α : Type} {source start : Source} {good : α → Source → Prop}
    {faults other : Fault → ℕ → Prop} {opcode : Opcode} {action : Read α}
    (h : source.Reports good faults (action start))
    (hend : ∀ distance, faults .unexpectedEnd distance → other (.truncatedArgument opcode) distance)
    (hother : ∀ fault distance, fault ≠ .unexpectedEnd → faults fault distance →
      other fault distance) :
    source.Reports good other (Read.mapError (.inArgument opcode) action start) := by
  unfold Read.mapError
  generalize action start = result at h
  cases h with
  | ok h => exact .ok h
  | @malformed fault distance rest h =>
    by_cases hfault : fault = .unexpectedEnd
    · subst hfault
      exact .malformed (hend distance h)
    · have hsame : StreamError.inArgument opcode (.malformed fault (source.position + distance)) =
          .malformed fault (source.position + distance) := by
        unfold StreamError.inArgument
        split
        · next heq =>
          cases heq
          exact absurd rfl hfault
        · rfl
      simp only [hsame]
      exact .malformed (hother fault distance hfault h)
  | unreadable => exact .unreadable

/-- Every instruction is read with faults of its own. -/
theorem Reports.instruction (source : Source) (version : ℕ) :
    source.Reports (fun _ _ => True) (InstructionFaults version source.window)
      (Read.instruction version source) := by
  have hnext : source.Reports (fun byte? rest => source.HandsOut byte?.toList rest)
      (InstructionFaults version source.window) (Read.nextByte source) := by
    obtain ⟨byte?, rest, hrun, hrest⟩ | hrun := nextByte_cases source
    · rw [hrun]
      exact .ok hrest
    · rw [hrun]
      exact .unreadable
  refine .position_bind (hnext.bind ?_)
  rintro (_ | byte) middle hmiddle
  · exact .ok trivial
  · have hfirst : source.window[0]? = some byte := by
      rw [hmiddle.window]
      rfl
    cases hdecode : Opcode.decode? byte version with
    | none =>
      simp only [hdecode]
      exact .at_front (.unknownOpcode hfirst)
    | some opcode =>
      simp only [hdecode]
      have hbyte : opcode.byte = byte :=
        Opcode.byte_of_ofByte? (Option.filter_eq_some_iff.1 hdecode).1
      have hwindow : source.window = opcode.byte :: middle.window := by
        rw [hbyte]
        exact hmiddle.window
      have hread : source.Reports (fun _ _ => True)
          (fun fault distance => ∃ further, distance = 1 + further ∧
            opcode.layout.Faults middle.window fault further) (opcode.layout.read middle) :=
        .after hmiddle
          ((isArgument_read opcode.layout middle).imp (fun _ _ _ => trivial) fun _ _ h => h)
          fun _ further hfault => ⟨further, rfl, hfault⟩
      have hmap : source.Reports (fun _ _ => True) (InstructionFaults version source.window)
          (Read.mapError (.inArgument opcode) opcode.layout.read middle) := by
        refine hread.mapError ?_ ?_
        · rintro _ ⟨further, rfl, hfault⟩
          -- An argument that is cut off is blamed on the end of the window.
          have hlength : 1 + further = source.window.length := by
            rw [hfault.eq_length, hwindow, List.length_cons, Nat.add_comm]
          rw [hlength]
          exact .truncated (hbyte ▸ hfirst)
        · rintro fault _ hend ⟨further, rfl, hfault⟩
          exact .argument hwindow hend hfault
      have hargument : source.Reports (fun _ _ => True) (InstructionFaults version source.window)
          (Read.argument opcode middle) := by
        refine hmap.bind fun argument inside _ => ?_
        obtain ⟨count, hleave⟩ := leaveExhaustedFrames_eq inside
        rw [Read.bind_of_eq_ok hleave]
        exact .ok trivial
      exact hargument.bind fun _ _ _ => .ok trivial

end Source

end Pickle
