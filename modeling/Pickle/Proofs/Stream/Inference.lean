import Pickle.Proofs.Stream.Alike

/-!
# Looking ahead leaves no trace

A look ahead for the version takes bytes one after the other and puts all of them back, so it ends
in a source that is alike to the one that it began with (`afterInference_alike`).

A decoder never enters a frame while bytes are put back, which would change their order.  The look
ahead took whole instructions with lines for arguments, and then the announced version; a decoder
for that version reads just these instructions back before anything else, so it is through with the
bytes put back when the first frame comes (`LookAhead.Tells`, `tells_of_instruction`).  The versions
without such an announcement have no frames.

`inference_spec` puts this together.
-/

namespace Pickle

open Source

/-! ## The look ahead -/

namespace LookAhead

/-- Whether a look ahead finds a version at the end of some bytes, and not before. -/
inductive Tells : LookAhead → Bytes → UInt8 → Prop
  | version {stage : LookAhead} {byte found : UInt8} (h : stage.step byte = .version found) :
      Tells stage [byte] found
  | next {stage later : LookAhead} {byte found : UInt8} {path : Bytes}
      (h : stage.step byte = .next later) (hpath : Tells later path found) :
      Tells stage (byte :: path) found

/-- Whether some bytes take a look ahead from one stage to another, without a version on the way. -/
inductive Leads : LookAhead → Bytes → LookAhead → Prop
  | nil (stage : LookAhead) : Leads stage [] stage
  | cons {stage middle later : LookAhead} {byte : UInt8} {path : Bytes}
      (h : stage.step byte = .next middle) (hpath : Leads middle path later) :
      Leads stage (byte :: path) later

theorem Leads.append {stage middle later : LookAhead} {path more : Bytes}
    (hfirst : stage.Leads path middle) (hsecond : middle.Leads more later) :
    stage.Leads (path ++ more) later := by
  induction hfirst with
  | nil => exact hsecond
  | cons h _ ih => exact .cons h (ih hsecond)

/-- What is told behind some bytes is told with them. -/
theorem Leads.tells {stage later : LookAhead} {path more : Bytes} {found : UInt8}
    (hpath : stage.Leads path later) (h : later.Tells more found) :
    stage.Tells (path ++ more) found := by
  induction hpath with
  | nil => exact h
  | cons hstep _ ih => exact .next hstep (ih h)

/-- Bytes that tell a version go on telling it behind a stretch that they begin with. -/
theorem Tells.drop {stage later : LookAhead} {path bytes front back : Bytes} {found : UInt8}
    (h : stage.Tells bytes found) (hpath : stage.Leads path later)
    (hsame : bytes ++ front = path ++ back) : later.Tells (bytes.drop path.length) found := by
  induction hpath generalizing bytes with
  | nil => exact h
  | cons hstep _ ih =>
    cases h with
    | version htold =>
      obtain ⟨rfl, -⟩ := List.cons.inj hsame
      rw [hstep] at htold
      cases htold
    | next htold hbytes =>
      obtain ⟨rfl, htail⟩ := List.cons.inj hsame
      rw [hstep] at htold
      cases htold
      exact ih hbytes htail

/-- A look ahead takes bytes of the window in their order.  If it succeeds, they tell the version. -/
theorem run_spec (stage : LookAhead) (taken : Bytes) (source : Source) :
    ∃ path, (run stage taken source).taken.reverse = taken.reverse ++ path ∧
      source.HandsOut path (run stage taken source).source ∧
      ∀ found, (run stage taken source).verdict = .ok found → stage.Tells path found := by
  fun_induction run stage taken source with
  | case1 stage taken source error rest hrun =>
    obtain rfl := eq_of_nextByte_error hrun
    exact ⟨[], (List.append_nil _).symm, .refl rest, by simp⟩
  | case2 stage taken source rest hrun =>
    exact ⟨[], (List.append_nil _).symm, handsOut_of_nextByte hrun, by simp⟩
  | case3 stage taken source byte rest hrun found hstep =>
    refine ⟨[byte], List.reverse_cons, handsOut_of_nextByte hrun, ?_⟩
    rintro found' ⟨⟩
    exact .version hstep
  | case4 stage taken source byte rest hrun fault hstep =>
    exact ⟨[byte], List.reverse_cons, handsOut_of_nextByte hrun, by simp⟩
  | case5 stage taken source byte rest hrun later hstep ih =>
    obtain ⟨path, htaken, hpath, htells⟩ := ih
    refine ⟨byte :: path, ?_, (handsOut_of_nextByte hrun).trans hpath, ?_⟩
    · rw [htaken, List.reverse_cons, List.append_assoc, List.singleton_append]
    · exact fun found hfound => .next hstep (htells found hfound)

end LookAhead

namespace Source

/-- What the look ahead leaves behind, whether it finds a version or fails. -/
def afterInference (source : Source) : Source :=
  match Read.inferVersion source with
  | .ok _ after => after
  | .error _ after => after

/-- The source with bytes put back in front of it. -/
def restored (source : Source) (bytes : Bytes) : Source :=
  { source with
    pushback := bytes ++ source.pushback
    position := source.position - bytes.length }

theorem HandsOut.restored {source after : Source} {taken : Bytes}
    (h : source.HandsOut taken after) : (after.restored taken).Alike source where
  position := by
    show after.position - taken.length = source.position
    rw [h.position, Nat.add_sub_cancel]
  window := by rw [h.window, Source.window, Source.restored, Source.window, List.append_assoc]
  beyond := h.beyond
  ending := h.ending

theorem inferVersion_eq (source : Source) :
    Read.inferVersion source =
      match (LookAhead.run .opcode [] source).verdict with
      | .ok version => .ok version ((LookAhead.run .opcode [] source).source.restored
          (LookAhead.run .opcode [] source).taken.reverse)
      | .error error => .error error ((LookAhead.run .opcode [] source).source.restored
          (LookAhead.run .opcode [] source).taken.reverse) := by
  unfold Read.inferVersion
  cases hverdict : (LookAhead.run .opcode [] source).verdict with
  | ok version =>
    simp only [hverdict]
    rfl
  | error error =>
    simp only [hverdict]
    rfl

theorem afterInference_alike (source : Source) : source.afterInference.Alike source := by
  obtain ⟨path, htaken, hpath, -⟩ := LookAhead.run_spec .opcode [] source
  rw [List.reverse_nil, List.nil_append] at htaken
  rw [afterInference, inferVersion_eq, htaken]
  cases (LookAhead.run .opcode [] source).verdict with
  | ok version => exact hpath.restored
  | error error => exact hpath.restored

/-- A version that was found is told by the bytes put back. -/
theorem tells_of_inferVersion {source after : Source} {version : UInt8}
    (h : Read.inferVersion source = .ok version after) (hpushback : source.pushback = []) :
    after.Alike source ∧ LookAhead.opcode.Tells after.pushback version := by
  obtain ⟨path, htaken, hpath, htells⟩ := LookAhead.run_spec .opcode [] source
  rw [List.reverse_nil, List.nil_append] at htaken
  rw [inferVersion_eq, htaken] at h
  cases hverdict : (LookAhead.run .opcode [] source).verdict with
  | ok found =>
    rw [hverdict] at h
    cases h
    refine ⟨hpath.restored, ?_⟩
    show LookAhead.opcode.Tells (path ++ (LookAhead.run .opcode [] source).source.pushback) version
    rw [hpath.pushback_eq_nil hpushback, List.append_nil]
    exact htells version hverdict
  | error error =>
    rw [hverdict] at h
    cases h

end Source

/-! ## Reading the look ahead back -/

namespace LookAhead

variable {source rest : Source} {found : UInt8}

/-- A byte that is read back is the next step of the look ahead. -/
theorem Tells.of_handsOut {stage : LookAhead} {byte : UInt8}
    (h : stage.Tells source.pushback found) (hrest : source.HandsOut [byte] rest) :
    (stage.step byte = .version found ∧ rest.pushback = []) ∨
      ∃ later, stage.step byte = .next later ∧ later.Tells rest.pushback found := by
  have hwindow := hrest.window
  rw [hrest.pushback]
  rw [Source.window] at hwindow
  generalize source.pushback = pushback at h hwindow ⊢
  cases h with
  | version hstep =>
    obtain ⟨rfl, -⟩ := List.cons.inj hwindow
    exact .inl ⟨hstep, rfl⟩
  | next hstep hpath =>
    obtain ⟨rfl, -⟩ := List.cons.inj hwindow
    exact .inr ⟨_, hstep, hpath⟩

theorem handsOut_of_byte {byte : UInt8} (h : Read.byte source = .ok byte rest) :
    source.HandsOut [byte] rest := by
  obtain ⟨byte?, middle, hbyte, hdone⟩ := Read.bind_eq_ok h
  cases byte? with
  | none => cases hdone
  | some taken =>
    cases hdone
    exact handsOut_of_nextByte hbyte

/-- A line of the decoder is a line of the look ahead. -/
theorem leads_lineAfter (later : ℕ) {taken line : Bytes}
    (hrun : Read.lineAfter taken source = .ok line rest) :
    ∃ path, source.HandsOut path rest ∧ (LookAhead.line later).Leads path (skip later) := by
  have hnewline : (LookAhead.line later).step 0x0a = .next (skip later) := rfl
  fun_induction Read.lineAfter taken source with
  | case1 => cases hrun
  | case2 source middle before hbyte =>
    cases hrun
    exact ⟨[0x0a], handsOut_of_byte hbyte, .cons hnewline (.nil _)⟩
  | case3 source taken middle hne hbyte =>
    cases hrun
    exact ⟨[0x0a], handsOut_of_byte hbyte, .cons hnewline (.nil _)⟩
  | case4 source taken next middle hbyte hne ih =>
    obtain ⟨path, hpath, hleads⟩ := ih hrun
    have hstep : (LookAhead.line later).step next = .next (.line later) := by
      rw [LookAhead.step, if_neg hne]
    exact ⟨next :: path, (handsOut_of_byte hbyte).trans hpath, .cons hstep hleads⟩

theorem leads_lineAs (later : ℕ) {α : Type} {meaning : Bytes → Except LineFault α} {value : α}
    (hrun : Read.lineAs meaning source = .ok value rest) :
    ∃ path, source.HandsOut path rest ∧ (LookAhead.line later).Leads path (skip later) := by
  obtain ⟨start, _, hstart, hnext⟩ := Read.bind_eq_ok hrun
  cases hstart
  obtain ⟨line, middle, hline, hmeaning⟩ := Read.bind_eq_ok hnext
  cases hvalue : meaning line with
  | ok result =>
    rw [hvalue] at hmeaning
    cases hmeaning
    exact leads_lineAfter later hline
  | error fault =>
    rw [hvalue] at hmeaning
    cases hmeaning

/-- The argument of an opcode that tells nothing is just the lines that the look ahead skips. -/
theorem leads_layout {opcode : Opcode} {lines : ℕ} (hlines : opcode.sharedLines? = some lines)
    {argument : opcode.layout.Argument} (hrun : opcode.layout.read source = .ok argument rest) :
    ∃ path, source.HandsOut path rest ∧ (skip lines).Leads path .opcode := by
  cases opcode <;> simp only [Opcode.sharedLines?, reduceCtorEq, Option.some.injEq] at hlines <;>
    subst hlines
  case int | long => exact leads_lineAs 0 hrun
  case global =>
    obtain ⟨first, middle, hfirst, hnext⟩ := Read.bind_eq_ok hrun
    obtain ⟨second, after, hsecond, hdone⟩ := Read.bind_eq_ok hnext
    cases hdone
    obtain ⟨path, hpath, hleads⟩ := leads_lineAs 1 hfirst
    obtain ⟨more, hmore, hleads'⟩ := leads_lineAs 0 hsecond
    exact ⟨path ++ more, hpath.trans hmore, hleads.append hleads'⟩
  all_goals
    cases hrun
    exact ⟨[], .refl source, .nil _⟩

theorem Tells.layout {opcode : Opcode} {lines : ℕ} (hlines : opcode.sharedLines? = some lines)
    (h : (skip lines).Tells source.pushback found) {argument : opcode.layout.Argument}
    (hrun : opcode.layout.read source = .ok argument rest) :
    LookAhead.opcode.Tells rest.pushback found := by
  obtain ⟨path, hpath, hleads⟩ := leads_layout hlines hrun
  rw [hpath.pushback]
  exact h.drop hleads hpath.window

/-- An opcode by itself tells one of the two oldest versions. -/
theorem toNat_le_one_of_step {byte : UInt8} (h : LookAhead.opcode.step byte = .version found) :
    found.toNat ≤ 1 := by
  have htold : ∀ op : Opcode, op.toldVersion? = some found → found.toNat ≤ 1 := by
    intro op hop
    cases op <;> cases hop <;> decide
  simp only [step, ofOpcode] at h
  split at h
  · cases h
  · cases h
  · next op _ _ =>
    split at h
    · cases h
    · split at h
      · next hop =>
        cases h
        exact htold op hop
      · cases h

/-- What an opcode tells that does not settle the version at once. -/
theorem Tells.of_opcode {byte : UInt8} (h : LookAhead.opcode.Tells source.pushback found)
    (hfound : 4 ≤ found.toNat) (hrest : source.HandsOut [byte] rest) :
    (Opcode.ofByte? byte = some .proto ∧ LookAhead.version.Tells rest.pushback found) ∨
      ∃ opcode lines, Opcode.ofByte? byte = some opcode ∧ opcode.sharedLines? = some lines ∧
        (skip lines).Tells rest.pushback found := by
  rcases h.of_handsOut hrest with ⟨hstep, -⟩ | ⟨later, hstep, htells⟩
  · -- Without an announcement, the version is at most one.
    have hlow := toNat_le_one_of_step hstep
    omega
  · simp only [LookAhead.step, ofOpcode] at hstep
    split at hstep
    · cases hstep
    · next hbyte =>
      cases hstep
      exact .inl ⟨hbyte, htells⟩
    · next opcode _ hbyte =>
      split at hstep
      · next lines hlines =>
        cases hstep
        exact .inr ⟨opcode, lines, hbyte, hlines, htells⟩
      · split at hstep
        · cases hstep
        · cases hstep

/-- The look ahead for a version that has frames meets none. -/
theorem Tells.not_frame {byte : UInt8} (h : LookAhead.opcode.Tells source.pushback found)
    (hfound : 4 ≤ found.toNat) (hrest : source.HandsOut [byte] rest) :
    Opcode.decode? byte found.toNat ≠ some .frame := by
  intro hdecode
  have hopcode := (Option.filter_eq_some_iff.1 hdecode).1
  rcases h.of_opcode hfound hrest with ⟨hbyte, -⟩ | ⟨opcode, lines, hbyte, hlines, -⟩
  · rw [hbyte] at hopcode
    cases hopcode
  · rw [hbyte] at hopcode
    cases hopcode
    cases hlines

/-- An instruction that is read back takes just what the look ahead took for it: the rest goes on
telling the version, or is used up with the announcement. -/
theorem tells_of_instruction {instruction? : Option Instruction}
    (h : LookAhead.opcode.Tells source.pushback found) (hfound : 4 ≤ found.toNat)
    (hrun : Read.instruction found.toNat source = .ok instruction? rest) :
    rest.pushback = [] ∨ LookAhead.opcode.Tells rest.pushback found := by
  cases instruction? with
  | none =>
    have hnone := (handsOut_of_nextByte (Read.nextByte_of_instruction hrun)).pushback
    rw [hnone]
    exact .inr h
  | some instruction =>
    obtain ⟨byte, middle, after, hbyte, hdecode, hread, rfl⟩ := Read.instruction_eq_ok hrun
    have hopcode := (Option.filter_eq_some_iff.1 hdecode).1
    rw [pushback_settled]
    rcases h.of_opcode hfound (handsOut_of_nextByte hbyte) with
      ⟨hproto, htells⟩ | ⟨opcode, lines, hshared, hlines, htells⟩
    · rw [hproto] at hopcode
      obtain ⟨opcode, argument⟩ := instruction
      obtain rfl : Opcode.proto = opcode := Option.some.inj hopcode
      rcases htells.of_handsOut (handsOut_of_byte hread) with ⟨-, hnil⟩ | ⟨later, hstep, -⟩
      · exact .inl hnil
      · cases hstep
    · rw [hshared] at hopcode
      obtain rfl : opcode = instruction.opcode := Option.some.inj hopcode
      exact .inr (htells.layout hlines hread)

end LookAhead

/-! ## Decoding after a look ahead -/

namespace Source

/-- Whether bytes are put back only in the way of a look ahead for a version: where a version has
frames, they tell it, if they are not used up. -/
def IsReplay (found : UInt8) (source : Source) : Prop :=
  found.toNat < 4 ∨ source.pushback = [] ∨ LookAhead.opcode.Tells source.pushback found

variable {source rest : Source} {found : UInt8}

/-- Nothing is put back any more when a frame comes. -/
theorem IsReplay.pushback_of_frame (h : source.IsReplay found) {byte : UInt8}
    (hrest : source.HandsOut [byte] rest)
    (hdecode : Opcode.decode? byte found.toNat = some .frame) : source.pushback = [] := by
  have hlegal : 4 ≤ found.toNat :=
    of_decide_eq_true (Option.filter_eq_some_iff.1 hdecode).2
  rcases h with hlow | hnil | htells
  · omega
  · exact hnil
  · exact absurd hdecode (htells.not_frame hlegal hrest)

theorem IsReplay.instruction (h : source.IsReplay found) {instruction? : Option Instruction}
    (hrun : Read.instruction found.toNat source = .ok instruction? rest) : rest.IsReplay found := by
  by_cases hlow : found.toNat < 4
  · exact .inl hlow
  · rcases h with hlow' | hnil | htells
    · exact .inl hlow'
    · exact .inr (.inl (Takes.instruction _ hnil hrun).1)
    · exact .inr (LookAhead.tells_of_instruction htells (not_lt.1 hlow) hrun)

end Source

namespace Decoder

/-- The decoder after it was asked for instructions a number of times. -/
def after (decoder : Decoder) : ℕ → Decoder
  | 0 => decoder
  | steps + 1 => (decoder.after steps).next.2

/-- Whether a decoder after a look ahead is as far as one that was given the version. -/
structure Follows (found : UInt8) (inferred given : Decoder) : Prop where
  inferred_version : inferred.version = found.toNat
  given_version : given.version = found.toNat
  failed : inferred.failed = given.failed
  alike : inferred.source.Alike given.source
  ending : inferred.failed = false → inferred.source.feed.ending = .finished
  replay : inferred.failed = false → inferred.source.IsReplay found
  pushback : inferred.failed = false → given.source.pushback = []

namespace Follows

variable {found : UInt8} {inferred given : Decoder}

/-- The two decoders give the same when they are asked for an instruction, and go on so. -/
theorem next (h : Follows found inferred given) :
    inferred.next.1 = given.next.1 ∧ Follows found inferred.next.2 given.next.2 := by
  obtain ⟨source, version, failed⟩ := inferred
  obtain ⟨source', version', failed'⟩ := given
  obtain ⟨rfl, rfl, rfl, halike, hending, hreplay, hpushback⟩ := h
  cases failed with
  | true => exact ⟨rfl, rfl, rfl, rfl, halike, hending, hreplay, hpushback⟩
  | false =>
    have hframe : ∀ byte rest, source.HandsOut [byte] rest →
        Opcode.decode? byte found.toNat = some .frame → source.pushback = [] :=
      fun _ _ => (hreplay rfl).pushback_of_frame
    have hmatch := halike.instruction (.inr (hending rfl)) hframe (hpushback rfl)
    rw [Decoder.next, Decoder.next, if_neg (by simp), if_neg (by simp)]
    dsimp only
    generalize hrun : Read.instruction found.toNat source = result at hmatch ⊢
    generalize hrun' : Read.instruction found.toNat source' = result' at hmatch ⊢
    cases hmatch with
    | error error hrest =>
      refine ⟨rfl, rfl, rfl, rfl, hrest, ?_, ?_, ?_⟩ <;>
        · intro hnot
          cases hnot
    | @ok instruction? rest rest' hrest =>
      have hafter : Follows found ⟨rest, found.toNat, false⟩ ⟨rest', found.toNat, false⟩ :=
        ⟨rfl, rfl, rfl, hrest, fun _ => ending_of_instruction (hending rfl) hrun,
          fun _ => (hreplay rfl).instruction hrun,
          fun _ => (Takes.instruction _ (hpushback rfl) hrun').1⟩
      cases instruction? with
      | none => exact ⟨rfl, hafter⟩
      | some instruction => exact ⟨rfl, hafter⟩

theorem after (h : Follows found inferred given) (steps : ℕ) :
    Follows found (inferred.after steps) (given.after steps) := by
  induction steps with
  | zero => exact h
  | succ steps ih => exact ih.next.2

/-- They also agree on whether the bytes have ended. -/
theorem finish (h : Follows found inferred given) : inferred.finish.1 = given.finish.1 := by
  have hend : Match (Read.atEnd inferred.source) (Read.atEnd given.source) := by
    refine h.alike.nextByte.bind fun byte? rest rest' _ _ hrest => ?_
    cases byte? with
    | none => exact .ok () hrest
    | some byte => exact .position_bind hrest (.error _ hrest)
  unfold Decoder.finish
  generalize Read.atEnd inferred.source = result, Read.atEnd given.source = result' at hend
  cases hend with
  | ok value _ => rfl
  | error error _ => rfl

/-- A decoder after a look ahead that found a version starts out as far as one that is given the
version. -/
theorem of_inferVersion {feed : Feed} {source : Source} (hending : feed.ending = .finished)
    (hinfer : Read.inferVersion (Source.ofFeed feed) = .ok found source) :
    Follows found ⟨source, found.toNat, false⟩ ⟨Source.ofFeed feed, found.toNat, false⟩ := by
  obtain ⟨halike, htells⟩ := tells_of_inferVersion hinfer rfl
  exact ⟨rfl, rfl, rfl, halike, fun _ => halike.ending.trans hending, fun _ => .inr (.inr htells),
    fun _ => rfl⟩

end Follows

theorem ofFeed_of_inferVersion {feed : Feed} {version : UInt8} {source : Source}
    (hversion : version.toNat ≤ Opcode.highestVersion)
    (hinfer : Read.inferVersion (Source.ofFeed feed) = .ok version source) :
    ofFeed feed none = .ok ⟨source, version.toNat, false⟩ := by
  rw [ofFeed, hinfer]
  exact if_pos hversion

/-- A look ahead for the version does no harm.

Whatever the state of a source and whatever the look ahead comes to, the offset is the same
afterwards, and so are the answers to all requests.

If it finds a version that there is in a stream that ends, then a decoder after the look ahead and
one that is given the version cannot be told apart: after any number of steps they stand at the same
offset, give the same instruction or the same error when they are asked for one, and give the same
answer when they are asked to make sure that no byte follows. -/
theorem inference_spec :
    (∀ source : Source, source.afterInference.position = source.position ∧
      ∀ requests, answers requests source.afterInference = answers requests source) ∧
    ∀ (feed : Feed) (version : UInt8) (source : Source), feed.ending = .finished →
      Read.inferVersion (Source.ofFeed feed) = .ok version source →
      version.toNat ≤ Opcode.highestVersion →
        ∃ inferred given, ofFeed feed none = .ok inferred ∧
          ofFeed feed (some version) = .ok given ∧
          ∀ steps, (inferred.after steps).next.1 = (given.after steps).next.1 ∧
            (inferred.after steps).position = (given.after steps).position ∧
            (inferred.after steps).finish.1 = (given.after steps).finish.1 := by
  refine ⟨fun source => ?_, ?_⟩
  · have halike := afterInference_alike source
    exact ⟨halike.position, answers_of_alike halike⟩
  · intro feed version source hending hinfer hversion
    have hfollows := Follows.of_inferVersion hending hinfer
    refine ⟨_, _, ofFeed_of_inferVersion hversion hinfer, ofFeed_eq_ok hversion, fun steps => ?_⟩
    have hafter := hfollows.after steps
    exact ⟨hafter.next.1, hafter.alike.position, hafter.finish⟩

/-- A mark that any version has stands before the announcement, and a frame behind it. -/
theorem inference_spec_version_four :
    let framed : Bytes := [0x95, 1, 0, 0, 0, 0, 0, 0, 0, 0x4e, 0x2e]
    let feed := Feed.ofBytes (0x28 :: 0x80 :: 4 :: framed)
    feed.ending = .finished ∧ (4 : UInt8).toNat ≤ Opcode.highestVersion ∧
      Read.inferVersion (Source.ofFeed feed) =
        .ok 4 ⟨Feed.ofBytes framed, 0, [0x28, 0x80, 4], []⟩ ∧
      ∃ inferred given, ofFeed feed none = .ok inferred ∧ ofFeed feed (some 4) = .ok given ∧
        (inferred.after 2).next.1 = (given.after 2).next.1 ∧
        (inferred.after 3).position = 12 := by
  intro framed feed
  have hending : feed.ending = .finished := rfl
  have hversion : (4 : UInt8).toNat ≤ Opcode.highestVersion := by decide
  have hinfer : Read.inferVersion (Source.ofFeed feed) =
      .ok 4 ⟨Feed.ofBytes framed, 0, [0x28, 0x80, 4], []⟩ := by
    have hrun : LookAhead.run .opcode [] (Source.ofFeed feed) =
        ⟨.ok 4, [4, 0x80, 0x28], ⟨Feed.ofBytes framed, 3, [], []⟩⟩ := by cbv
    rw [Source.inferVersion_eq, hrun]
    rfl
  obtain ⟨inferred, given, hinferred, hgiven, hsame⟩ :=
    inference_spec.2 feed 4 _ hending hinfer hversion
  refine ⟨hending, hversion, hinfer, inferred, given, hinferred, hgiven, (hsame 2).1, ?_⟩
  rw [ofFeed_eq_ok hversion] at hgiven
  obtain rfl := Except.ok.inj hgiven
  rw [(hsame 3).2.1]
  decide

end Decoder

end Pickle
