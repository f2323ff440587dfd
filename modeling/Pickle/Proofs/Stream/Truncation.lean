import Mathlib
import Pickle.Proofs.Stream.Spans

/-!
# Pickles that are cut short

A pickle that lost its end is never taken for another pickle.  The instructions that lie wholly
within the bytes left are read as before, since an argument depends on its window alone
(`yields_of_spellings`).  Then either nothing is left, and the bytes end cleanly, or the window
begins with a part of a spelling, and the reader of the argument uses it up before it fails
(`IsSpelling.instruction_of_cut`).  It makes no difference where in the argument the cut is: in a
length, a payload, one of two lines, or between the two bytes that end a line.

Which of the two it is depends on the lengths of the spellings alone (`exists_cut`).
-/

namespace Pickle

open Source

namespace Decoder

variable {version : UInt8} {pieces : List (Bytes × Instruction)}

/-- Collecting takes the instructions that a decoder gives, and goes on with the decoder that it is
then. -/
theorem Yields.collect {start after : Decoder} {program : List Instruction}
    (h : start.Yields program after) (taken : List Instruction) :
    start.collect taken = after.collect (program.reverse ++ taken) := by
  induction h generalizing taken with
  | nil => rfl
  | cons hnext _ ih =>
    rw [collect_of_instruction taken hnext, ih, List.reverse_cons, List.append_assoc,
      List.singleton_append]

/-- Outside frames, spellings at the beginning of the window give their instructions. -/
theorem yields_of_spellings (hpieces : ∀ piece ∈ pieces, IsSpelling version piece.1 piece.2)
    {source : Source} (hends : source.Ends) (hframes : source.frames = []) {tail : Bytes}
    (hwindow : source.window = pieces.flatMap Prod.fst ++ tail) :
    ∃ after, source.HandsOut (pieces.flatMap Prod.fst) after ∧
      Yields ⟨source, version.toNat, false⟩ (pieces.map Prod.snd)
        ⟨after, version.toNat, false⟩ := by
  induction pieces generalizing source with
  | nil => exact ⟨source, .refl source, .nil _⟩
  | cons piece others ih =>
    rw [List.forall_mem_cons] at hpieces
    rw [List.flatMap_cons, List.append_assoc] at hwindow
    obtain ⟨middle, hmiddle, hrun⟩ := hpieces.1.instruction hends hwindow
    have hmiddleFrames := hmiddle.frames_eq_nil.2 hframes
    rw [settled_of_frames hmiddleFrames] at hrun
    obtain ⟨after, hafter, hyields⟩ :=
      ih hpieces.2 (hmiddle.ends hends) hmiddleFrames (hmiddle.window_eq hwindow)
    exact ⟨after, hmiddle.trans hafter, .cons (next_of_instruction hrun) hyields⟩

/-- A cut lies behind a run of whole pieces, or inside the piece that follows the run. -/
theorem exists_cut {count : ℕ} (hcount : count ≤ (pieces.flatMap Prod.fst).length) :
    ∃ front back, pieces = front ++ back ∧ (count = (front.flatMap Prod.fst).length ∨
      ∃ bytes cut others, back = (bytes, cut) :: others ∧
        (front.flatMap Prod.fst).length < count ∧
        count < (front.flatMap Prod.fst).length + bytes.length) := by
  induction pieces generalizing count with
  | nil => exact ⟨[], [], rfl, .inl (Nat.le_zero.1 hcount)⟩
  | cons piece others ih =>
    obtain ⟨bytes, instruction⟩ := piece
    simp only [List.flatMap_cons, List.length_append] at hcount
    by_cases hfits : bytes.length ≤ count
    · obtain ⟨front, back, rfl, hcut⟩ := ih (Nat.sub_le_iff_le_add'.2 hcount)
      have hlength : (((bytes, instruction) :: front).flatMap Prod.fst).length =
          bytes.length + (front.flatMap Prod.fst).length := by
        simp only [List.flatMap_cons, List.length_append]
      refine ⟨(bytes, instruction) :: front, back, rfl, ?_⟩
      rw [hlength]
      refine hcut.imp (fun hwhole => by omega) ?_
      rintro ⟨bytes', cut, others', rfl, hlow, hhigh⟩
      exact ⟨bytes', cut, others', rfl, by omega, by omega⟩
    · refine ⟨[], (bytes, instruction) :: others, rfl, ?_⟩
      rcases Nat.eq_zero_or_pos count with rfl | hpos
      · exact .inl rfl
      · exact .inr ⟨bytes, instruction, others, rfl, hpos, by simpa using hfits⟩

/-- A truncated pickle is never misread.

Take the spellings of some instructions, frames excluded, one after the other; the encodings of
legal and well-formed instructions are such spellings.  A decoder that is given the first bytes of
these gives exactly the instructions whose spellings lie wholly within them.  If the cut is between
two instructions, the bytes end cleanly there.  If it is inside an instruction, the decoder fails at
the cut, and names the instruction. -/
theorem truncation_never_misread (version : UInt8)
    (hversion : version.toNat ≤ Opcode.highestVersion) :
    (∀ instruction : Instruction, instruction.opcode.isLegal version.toNat →
      instruction.opcode ≠ .frame → instruction.WellFormed →
        IsSpelling version instruction.encode instruction) ∧
    ∀ (pieces : List (Bytes × Instruction)) (count : ℕ) (feed : Feed),
      (∀ piece ∈ pieces, IsSpelling version piece.1 piece.2) →
      count ≤ (pieces.flatMap Prod.fst).length →
      feed.bytes = (pieces.flatMap Prod.fst).take count → feed.ending = .finished →
        ∃ front back start middle, pieces = front ++ back ∧
          ofFeed feed (some version) = .ok start ∧ start.Yields (front.map Prod.snd) middle ∧
          ((count = (front.flatMap Prod.fst).length ∧
              middle.next.1 = .finished ∧ middle.finish.1 = .ok () ∧
              decodeAll feed (some version) = .ok (front.map Prod.snd)) ∨
            ∃ bytes cut others, back = (bytes, cut) :: others ∧
              (front.flatMap Prod.fst).length < count ∧
              count < (front.flatMap Prod.fst).length + bytes.length ∧
              middle.next.1 = .error (.malformed (.truncatedArgument cut.opcode) count) ∧
              middle.next.2.next.1 = .finished ∧
              decodeAll feed (some version) =
                .error (.malformed (.truncatedArgument cut.opcode) count)) := by
  refine ⟨fun instruction hlegal hframe hwell =>
    isSpelling_encode hversion ⟨hlegal, hframe, hwell⟩, ?_⟩
  intro pieces count feed hpieces hcount hbytes hending
  obtain ⟨front, back, rfl, hcut⟩ := exists_cut hcount
  rw [List.forall_mem_append] at hpieces
  rw [List.flatMap_append] at hbytes
  have hlow : (front.flatMap Prod.fst).length ≤ count := by
    rcases hcut with h | ⟨_, _, _, _, h, _⟩
    · exact h.ge
    · exact h.le
  rw [List.take_append, List.take_of_length_le hlow] at hbytes
  have hends : (Source.ofFeed feed).Ends := .inr hending
  -- All that is in front of the cut is decoded before the cut matters.
  obtain ⟨middle, hmiddle, hyields⟩ := yields_of_spellings hpieces.1 hends rfl hbytes
  have hmiddleEnds := hmiddle.ends hends
  have hwindow := hmiddle.window_eq hbytes
  have hcollect := hyields.collect []
  rw [List.append_nil] at hcollect
  refine ⟨front, back, _, _, rfl, ofFeed_eq_ok hversion, hyields, ?_⟩
  rw [decodeAll, ofFeed_eq_ok hversion]
  rcases hcut with rfl | ⟨bytes, cut, others, rfl, hlt, hhigh⟩
  · rw [Nat.sub_self, List.take_zero] at hwindow
    obtain ⟨last, hlast, hfinish⟩ := @finished_of_window _ version.toNat hwindow hmiddleEnds
    refine .inl ⟨rfl, by rw [hlast], hfinish, ?_⟩
    show collect _ [] = _
    rw [hcollect, collect_of_finished _ hlast, List.reverse_reverse]
  · rw [List.forall_mem_cons] at hpieces
    have hrest : count - (front.flatMap Prod.fst).length ≤ bytes.length := by omega
    rw [List.flatMap_cons, List.take_append_of_le_length hrest] at hwindow
    -- The window is what the cut leaves of the spelling, at least one byte and not all of them.
    have hlength : middle.window.length = count - (front.flatMap Prod.fst).length := by
      rw [hwindow, List.length_take_of_le hrest]
    have hnil : middle.window ≠ [] := List.ne_nil_of_length_pos (by omega)
    have hpart : middle.window <+: bytes := hwindow ▸ List.take_prefix _ _
    have hne : middle.window ≠ bytes := fun heq => by
      rw [heq] at hlength
      omega
    obtain ⟨last, hrun, hlast⟩ := hpieces.2.1.instruction_of_cut hmiddleEnds hnil hpart hne
    have hposition : last.position = count := by
      rw [hlast.position, hmiddle.position, hlength]
      show 0 + _ + _ = _
      omega
    have hnext : next ⟨middle, version.toNat, false⟩ =
        (.error (.malformed (.truncatedArgument cut.opcode) count),
          ⟨last, version.toNat, true⟩) := by
      rw [next, if_neg (by simp), hrun, hposition]
    refine .inr ⟨bytes, cut, others, rfl, hlt, hhigh, by rw [hnext], ?_, ?_⟩
    · rw [hnext]
      exact next_of_error hnext
    · show collect _ [] = _
      rw [hcollect, collect_of_error _ hnext]

/-- A name that lost its second line. -/
theorem truncation_never_misread_version_two :
    let number : Instruction := ⟨.binInt1, (5 : UInt8)⟩
    let name : Instruction := ⟨.global, ⟨"a", "b"⟩⟩
    let cut : Bytes := [0x4b, 0x05, 0x63, 0x61, 0x0a]
    ((2 : UInt8).toNat ≤ Opcode.highestVersion ∧ (number.encode ++ name.encode).take 5 = cut) ∧
      decodeAll (Feed.ofBytes cut) (some 2) =
        .error (.malformed (.truncatedArgument .global) 5) := by
  intro number name cut
  have hversion : (2 : UInt8).toNat ≤ Opcode.highestVersion := by decide
  have hcut : (number.encode ++ name.encode).take 5 = cut := by decide
  refine ⟨⟨hversion, hcut⟩, ?_⟩
  obtain ⟨hspelling, htruncated⟩ := truncation_never_misread 2 hversion
  have hint : IsSpelling 2 number.encode number := hspelling _ rfl (by decide) trivial
  have hglobal : IsSpelling 2 name.encode name :=
    hspelling _ rfl (by decide) ⟨by decide, by decide⟩
  obtain ⟨front, back, _, _, hpieces, -, -, hend⟩ :=
    htruncated [(number.encode, number), (name.encode, name)] 5 (Feed.ofBytes cut)
      (List.forall_mem_cons.2 ⟨hint, List.forall_mem_singleton.2 hglobal⟩) (by decide)
      ((Feed.bytes_ofBytes cut).trans hcut.symm) rfl
  rcases front with _ | ⟨first, _ | ⟨second, others⟩⟩
  · -- The cut is not in the first spelling, nor behind both, so it is in the second.
    obtain rfl := hpieces
    rcases hend with ⟨h, -⟩ | ⟨_, _, _, hback, -, hhigh, -⟩
    · exact absurd h (by decide)
    · cases hback
      exact absurd hhigh (by decide)
  · cases hpieces
    rcases hend with ⟨h, -⟩ | ⟨_, _, _, hback, -, -, -, -, h⟩
    · exact absurd h (by decide)
    · cases hback
      exact h
  · obtain ⟨rfl, hothers⟩ := List.cons.inj hpieces
    obtain ⟨rfl, hnil⟩ := List.cons.inj hothers
    obtain ⟨rfl, rfl⟩ := List.append_eq_nil_iff.1 hnil.symm
    rcases hend with ⟨h, -⟩ | ⟨_, _, _, hback, -⟩
    · exact absurd h (by decide)
    · cases hback

end Decoder

end Pickle
