import Pickle.Stream.Argument

/-!
# Reading never gains bytes

An action *consumes* when the source is afterwards no larger than before.  All readers of arguments
do: those that take bytes make the source smaller, and entering or leaving a frame only moves the
bytes to another place.  Together with the byte of the opcode, every instruction that is decoded
leaves fewer bytes, which is why decoding comes to an end (`Source.Read.Consumes.layout`).
-/

namespace Pickle.Source.Read

/-- The source is no larger after the action. -/
def Consumes {α : Type} (action : Read α) : Prop :=
  ∀ ⦃source rest : Source⦄ ⦃value : α⦄, action source = .ok value rest → rest.size ≤ source.size

/-- An action that goes on after another ends well when both do. -/
theorem bind_eq_ok {α β : Type} {action : Read α} {next : α → Read β} {source rest : Source}
    {value : β} (h : (action >>= next) source = .ok value rest) :
    ∃ first middle, action source = .ok first middle ∧ next first middle = .ok value rest := by
  simp only [bind, EStateM.bind] at h
  split at h
  · next first middle hfirst => exact ⟨first, middle, hfirst, h⟩
  · cases h

/-- Bytes that had been put back are taken from the source. -/
theorem size_of_putBack {count : Nat} {source rest : Source} {taken : Bytes}
    (h : putBack count source = .ok taken rest) : source.size = rest.size + taken.length := by
  simp only [putBack, List.splitAt_eq] at h
  cases h
  simp only [size, List.length_take, List.length_drop]
  omega

/-- Bytes of a frame or the feed are taken from the source. -/
theorem size_of_available {count : Nat} {source rest : Source} {taken : Bytes}
    (h : available count source = .ok taken rest) : source.size = rest.size + taken.length := by
  unfold available at h
  split at h
  · next frame outer hframes =>
    simp only [List.splitAt_eq] at h
    cases h
    simp only [size, hframes, List.flatten_cons, List.length_append, List.length_take,
      List.length_drop]
    omega
  · next hframes =>
    split at h
    · next value feed hfeed =>
      cases h
      simp only [size, hframes, Feed.size_take hfeed]
      omega
    · cases h

/-- Bytes from both places are taken from the source. -/
theorem size_of_upTo {count : Nat} {source rest : Source} {taken : Bytes}
    (h : upTo count source = .ok taken rest) : source.size = rest.size + taken.length := by
  obtain ⟨front, middle, hfront, hrest⟩ := bind_eq_ok h
  rw [size_of_putBack hfront]
  split at hrest
  · obtain ⟨back, after, hback, hdone⟩ := bind_eq_ok hrest
    cases hdone
    rw [size_of_available hback, List.length_append]
    omega
  · cases hrest
    rfl

/-- Taking `count` bytes makes the source smaller by as many as were taken. -/
theorem size_of_bytes {count : Nat} {source rest : Source} {taken : Bytes}
    (h : bytes count source = .ok taken rest) : source.size = rest.size + taken.length := by
  obtain ⟨got, middle, hgot, hrest⟩ := bind_eq_ok h
  obtain ⟨_, moved, hmove, hdone⟩ := bind_eq_ok hrest
  cases hmove
  rw [size_of_upTo hgot]
  split at hdone
  · cases hdone
  · cases hdone
    rfl

/-- Frames that are exhausted hold no bytes. -/
theorem flatten_dropWhile_isEmpty (frames : List Bytes) :
    (frames.dropWhile List.isEmpty).flatten = frames.flatten := by
  induction frames with
  | nil => rfl
  | cons frame outer ih => cases frame <;> simp [ih]

namespace Consumes

variable {α β : Type}

theorem pure (value : α) : Consumes (Pure.pure value) := by
  intro source rest value h
  cases h
  exact Nat.le_refl _

theorem bind {action : Read α} {next : α → Read β} (first : Consumes action)
    (second : ∀ value, Consumes (next value)) : Consumes (action >>= next) := by
  intro source rest value h
  simp only [Bind.bind, EStateM.bind] at h
  split at h
  · next middle after hfirst => exact Nat.le_trans (second _ h) (first hfirst)
  · cases h

theorem failAt (fault : Fault) (offset : Nat) : Consumes (Read.failAt fault offset : Read α) := by
  intro source rest value h
  cases h

theorem position : Consumes Read.position := by
  intro source rest value h
  cases h
  exact Nat.le_refl _

theorem byte : Consumes Read.byte := by
  intro source rest value h
  rw [size_of_byte h]
  exact Nat.le_succ _

theorem bytes (count : Nat) : Consumes (Read.bytes count) := by
  intro source rest value h
  rw [size_of_bytes h]
  exact Nat.le_add_right ..

theorem lineAfter (taken : Bytes) : Consumes (Read.lineAfter taken) := by
  intro source rest value h
  fun_induction Read.lineAfter taken source with
  | case1 => cases h
  | case2 source rest' before hbyte => cases h; exact byte ‹_›
  | case3 source taken rest' hbyte => cases h; exact byte ‹_›
  | case4 source taken byte' rest' hbyte hnewline ih => exact Nat.le_trans (ih h) (byte ‹_›)

theorem line : Consumes Read.line := lineAfter []

theorem lineAs (meaning : Bytes → Except LineFault α) : Consumes (Read.lineAs meaning) := by
  refine bind position fun start => bind line fun taken => ?_
  split
  · exact pure _
  · exact failAt ..

theorem text (count : Nat) : Consumes (Read.text count) := by
  refine bind position fun start => bind (bytes count) fun taken => ?_
  split
  · exact pure _
  · exact failAt ..

theorem littleEndian (width : Nat) : Consumes (Read.littleEndian width) :=
  bind (bytes width) fun _ => pure _

theorem int32 : Consumes Read.int32 := bind (littleEndian 4) fun _ => pure _

theorem double : Consumes Read.double := bind (bytes 8) fun _ => pure _

theorem length (field : LengthField) : Consumes (Read.length field) := by
  cases field with
  | u8 => exact bind byte fun _ => pure _
  | u32 => exact littleEndian 4
  | u64 => exact littleEndian 8
  | i32 =>
    refine bind position fun start => bind int32 fun value => ?_
    split
    · exact failAt ..
    · exact pure _

theorem counted (field : LengthField) {payload : Nat → Read α}
    (h : ∀ count, Consumes (payload count)) : Consumes (Read.counted field payload) :=
  bind (length field) fun count => bind (h count) fun _ => pure _

/-- The bytes of an entered frame are still to come. -/
theorem enterFrame (count : Nat) : Consumes (Read.enterFrame count) := by
  intro source rest value h
  simp only [Read.enterFrame, Bind.bind, EStateM.bind] at h
  split at h
  · next frame after hbytes =>
    cases h
    rw [size_of_bytes hbytes]
    simp only [size, List.flatten_cons, List.length_append]
    omega
  · cases h

/-- Frames that are left hold no bytes. -/
theorem leaveExhaustedFrames : Consumes Read.leaveExhaustedFrames := by
  intro source rest value h
  unfold Read.leaveExhaustedFrames at h
  split at h <;> cases h
  · simp only [size, flatten_dropWhile_isEmpty, Nat.le_refl]
  · exact Nat.le_refl _

/-- Reading an argument never gains bytes. -/
theorem layout (layout : Layout) : Consumes layout.read := by
  cases layout with
  | absent => exact pure _
  | u8 => exact byte
  | u16 => exact bind (littleEndian 2) fun _ => pure _
  | u32 => exact bind (littleEndian 4) fun _ => pure _
  | i32 => exact int32
  | frame =>
    exact bind (littleEndian 8) fun count => bind (enterFrame count) fun _ => pure _
  | double => exact double
  | indexLine => exact lineAs _
  | intLine => exact lineAs _
  | longLine => exact lineAs _
  | floatLine => exact lineAs _
  | quotedLine => exact lineAs _
  | escapedLine => exact lineAs _
  | textLine => exact lineAs _
  | nameLines => exact bind (lineAs _) fun _ => bind (lineAs _) fun _ => pure _
  | bytes field => exact counted field bytes
  | text field => exact counted field text
  | integer field => exact counted field fun count => bind (bytes count) fun _ => pure _

end Consumes

end Pickle.Source.Read
