import Pickle.Proofs.Stream.Offsets

/-!
# Entering a frame keeps the order of the bytes

A frame is read ahead: its bytes are taken from where they stand and laid in front of what is left
there.  Whoever goes on reading gets the same bytes as without the frame, and finds an end of bytes
behind them; once the frame has been left, the bytes that followed come next
(`enterFrame_keeps_order`).

This holds as long as the frame takes all bytes that are put back.  If more of them are put back,
then the others stand in front of the frame, since what is put back always comes first: they change
places with the bytes of the frame (`exists_enterFrame_reorders`).  A decoder does not come to this,
for it never enters a frame while bytes are put back (`IsReplay.pushback_of_frame`).

Requests are compared through the portions that they cut off a window, which `answers_of_demand_le`
finds for any source by induction on the requests.
-/

namespace Pickle

namespace Source

variable {source rest entered : Source} {count : ℕ} {taken : Bytes}

/-- All bytes to come: the ones put back, and behind them those of the frames and of the feed. -/
def upcoming (source : Source) : Bytes := source.pushback ++ source.pending

theorem HandsOut.upcoming_eq (h : source.HandsOut taken rest) :
    source.upcoming = taken ++ rest.upcoming := h.pending_eq

/-! ## Requests for no more than a window -/

/-- The number of bytes that a request asks for. -/
def Request.demand : Request → ℕ
  | .next => 1
  | .exactly count => count
  | .leave => 0

/-- The number of bytes that requests ask for. -/
def demand (requests : List Request) : ℕ := (requests.map Request.demand).sum

theorem demand_cons (request : Request) (requests : List Request) :
    demand (request :: requests) = request.demand + demand requests := List.sum_cons

/-- The bytes cut into what each of the requests asks for. -/
def portions : List Request → Bytes → List Bytes
  | [], _ => []
  | request :: requests, bytes =>
    bytes.take request.demand :: portions requests (bytes.drop request.demand)

theorem flatten_portions (requests : List Request) (bytes : Bytes) :
    (portions requests bytes).flatten = bytes.take (demand requests) := by
  induction requests generalizing bytes with
  | nil => rfl
  | cons request requests ih => rw [portions, List.flatten_cons, ih, demand_cons, List.take_add]

/-- Bytes that are not asked for make no difference. -/
theorem portions_append {requests : List Request} {front : Bytes}
    (h : demand requests ≤ front.length) (back : Bytes) :
    portions requests (front ++ back) = portions requests front := by
  induction requests generalizing front with
  | nil => rfl
  | cons request requests ih =>
    rw [demand_cons] at h
    rw [portions, portions, List.take_append_of_le_length (by omega),
      List.drop_append_of_le_length (by omega), ih (by rw [List.length_drop]; omega)]

/-- A window that is long enough answers a request. -/
theorem Request.read_of_demand_le {request : Request} (hleave : request ≠ .leave)
    (h : request.demand ≤ source.window.length) :
    ∃ rest, request.read source = .ok (source.window.take request.demand) rest ∧
      source.HandsOut (source.window.take request.demand) rest := by
  cases request with
  | next =>
    obtain ⟨byte, tail, hwindow⟩ := List.exists_cons_of_length_pos h
    obtain ⟨rest, hbyte, hrest⟩ := nextByte_of_window hwindow
    have htake : source.window.take 1 = [byte] := by rw [hwindow, List.take_succ_cons, List.take_zero]
    rw [Request.demand, htake]
    exact ⟨rest, Read.bind_of_eq_ok hbyte, hrest⟩
  | exactly count => exact bytes_of_le h
  | leave => exact absurd rfl hleave

/-- A window that is long enough answers requests one after the other. -/
theorem answers_of_demand_le {requests : List Request} (hleave : .leave ∉ requests)
    (h : demand requests ≤ source.window.length) :
    ∃ rest, source.HandsOut (source.window.take (demand requests)) rest ∧
      ∀ later, answers (requests ++ later) source =
        (portions requests source.window).map .ok ++ answers later rest := by
  induction requests generalizing source with
  | nil => exact ⟨source, .refl source, fun _ => rfl⟩
  | cons request requests ih =>
    rw [List.mem_cons, not_or] at hleave
    rw [demand_cons] at h
    obtain ⟨middle, hread, hmiddle⟩ :=
      Request.read_of_demand_le (Ne.symm hleave.1) (Nat.le_of_add_right_le h)
    have hwindow : middle.window = source.window.drop request.demand :=
      hmiddle.window_eq (List.take_append_drop _ _).symm
    have hsecond : demand requests ≤ middle.window.length := by
      rw [hwindow, List.length_drop]
      omega
    obtain ⟨rest, hrest, hanswers⟩ := ih hleave.2 hsecond
    refine ⟨rest, ?_, fun later => ?_⟩
    · rw [demand_cons, List.take_add, ← hwindow]
      exact hmiddle.trans hrest
    · rw [List.cons_append, answers, hread]
      dsimp only
      rw [hanswers later, hwindow, portions, List.map_cons, List.cons_append]

/-! ## Entering a frame -/

/-- Bytes that were taken stood in the window. -/
theorem handsOut_of_bytes (h : Read.bytes count source = .ok taken rest) :
    taken.length = count ∧ source.HandsOut taken rest := by
  by_cases hcount : count ≤ source.window.length
  · obtain ⟨rest', hrun, hrest⟩ := bytes_of_le hcount
    rw [hrun] at h
    cases h
    exact ⟨List.length_take_of_le hcount, hrest⟩
  · rw [not_le] at hcount
    by_cases hends : source.Ends
    · obtain ⟨rest', hrun, -⟩ := bytes_of_lt hcount hends
      rw [hrun] at h
      cases h
    · rw [bytes_of_failure hcount hends] at h
      cases h

/-- A frame holds the bytes that are taken for it, and all else is as it is after taking them. -/
theorem enterFrame_eq_ok (h : Read.enterFrame count source = .ok () entered) :
    ∃ taken direct, taken.length = count ∧ source.HandsOut taken direct ∧
      entered = ⟨direct.feed, source.position, direct.pushback, taken :: direct.frames⟩ := by
  obtain ⟨taken, direct, hbytes, hmodify⟩ := Read.bind_eq_ok h
  cases hmodify
  obtain ⟨hcount, hdirect⟩ := handsOut_of_bytes hbytes
  refine ⟨taken, direct, hcount, hdirect, ?_⟩
  have hposition : direct.position - taken.length = source.position := by
    rw [hdirect.position, Nat.add_sub_cancel]
  rw [← hposition]

theorem leave_of_settled (later : List Request) (source : Source) :
    answers (.leave :: later) source = .ok [] :: answers later source.settled := by
  obtain ⟨left, hleave⟩ := leaveExhaustedFrames_eq source
  have hread : Request.leave.read source = .ok [] source.settled := Read.bind_of_eq_ok hleave
  rw [answers, hread]

/-- The bytes of a frame come behind the bytes that are still put back. -/
theorem upcoming_enterFrame (h : Read.enterFrame count source = .ok () entered) :
    entered.upcoming =
      source.pushback.drop count ++ (source.pushback.take count ++ source.pending) := by
  obtain ⟨taken, direct, rfl, hdirect, rfl⟩ := enterFrame_eq_ok h
  have hpushback : direct.pushback = source.pushback.drop taken.length := hdirect.pushback
  have hsplit : source.pushback.take taken.length ++ (direct.pushback ++ source.pending) =
      taken ++ (direct.pushback ++ direct.pending) := by
    rw [hpushback, ← List.append_assoc, List.take_append_drop, ← hpushback]
    exact hdirect.pending_eq
  have hpending : taken ++ direct.pending =
      source.pushback.take taken.length ++ source.pending := by
    by_cases hle : taken.length ≤ source.pushback.length
    · obtain ⟨htaken, hrest⟩ := List.append_inj hsplit (List.length_take_of_le hle)
      rw [htaken, List.append_cancel_left hrest]
    · rw [hpushback, List.drop_of_length_le (by omega)] at hsplit
      exact hsplit.symm
  calc upcoming ⟨direct.feed, source.position, direct.pushback, taken :: direct.frames⟩
      = direct.pushback ++ (taken ++ direct.pending) := by
        rw [upcoming, pending, pending, List.flatten_cons, List.append_assoc]
    _ = source.pushback.drop taken.length ++
        (source.pushback.take taken.length ++ source.pending) := by rw [hpushback, hpending]

/-- Entering a frame keeps the offset, and lays the bytes of the frame behind what is still put back.

If the frame takes all that is put back, then the bytes to come are the same as before.  Reading all
bytes of the frame, in portions of any lengths, gives just the bytes and the answers that there were
without it; then there are no further bytes; and after leaving the frame, everything that is asked
for is answered as if there had been no frame. -/
theorem enterFrame_keeps_order (source entered : Source) (count : ℕ)
    (h : Read.enterFrame count source = .ok () entered) :
    entered.position = source.position ∧
      entered.upcoming =
        source.pushback.drop count ++ (source.pushback.take count ++ source.pending) ∧
      (source.pushback.length ≤ count → entered.upcoming = source.upcoming ∧
        ∀ requests, .leave ∉ requests → demand requests = count →
          (∃ portions : List Bytes, portions.flatten = source.upcoming.take count ∧
            answers requests source = portions.map .ok) ∧
          answers (requests ++ [.next]) entered = answers requests source ++ [.ok []] ∧
          ∀ later, answers (requests ++ .leave :: later) entered =
            answers (requests ++ .leave :: later) source) := by
  have hupcoming := upcoming_enterFrame h
  obtain ⟨taken, direct, rfl, hdirect, hentered⟩ := enterFrame_eq_ok h
  refine ⟨by rw [hentered], hupcoming, fun hle => ⟨?_, fun requests hleave hdemand => ?_⟩⟩
  · rw [hupcoming, List.drop_of_length_le hle, List.take_of_length_le hle, List.nil_append, upcoming]
  · -- All that was put back went into the frame.
    have hnone : direct.pushback = [] := by
      rw [hdirect.pushback]
      exact List.drop_of_length_le hle
    rw [hnone] at hentered
    have hwindow : entered.window = taken := by rw [hentered, window, List.nil_append, List.headD_cons]
    have hsourceWindow : source.window = taken ++ direct.window := hdirect.window
    have hinsideLe : demand requests ≤ entered.window.length := by rw [hdemand, hwindow]
    have houtsideLe : demand requests ≤ source.window.length := by
      rw [hdemand, hsourceWindow, List.length_append]
      exact Nat.le_add_right _ _
    obtain ⟨inside, hinside, hanswers⟩ := answers_of_demand_le hleave hinsideLe
    obtain ⟨outside, houtside, hanswers'⟩ := answers_of_demand_le hleave houtsideLe
    rw [hdemand, hwindow, List.take_length] at hinside
    rw [hdemand, hsourceWindow, List.take_left' rfl] at houtside
    rw [hwindow] at hanswers
    rw [hsourceWindow, portions_append hdemand.le] at hanswers'
    refine ⟨⟨portions requests taken, ?_, ?_⟩, ?_, fun later => ?_⟩
    · rw [flatten_portions, hdemand, List.take_length, hdirect.upcoming_eq, List.take_left' rfl]
    · have hall := hanswers' []
      rwa [List.append_nil, answers, List.append_nil] at hall
    · -- The requests ask for just the frame, which ends behind the last of them.
      have hempty : inside.window = [] := List.append_right_eq_self.1 (hwindow ▸ hinside.window).symm
      have hends : inside.Ends := hinside.ends (.inl (by simp [hentered]))
      obtain ⟨rest, hnext, -⟩ := nextByte_of_window_nil hempty hends
      have hread : Request.next.read inside = .ok [] rest := Read.bind_of_eq_ok hnext
      have hall := hanswers' []
      rw [List.append_nil, answers, List.append_nil] at hall
      rw [hanswers, hall, answers, hread]
      rfl
    · subst hentered
      obtain ⟨left, hleft, hsettled⟩ := hdirect.leave hnone hinside rfl
      have halike : left.Alike outside := (Alike.refl source).handsOut hleft houtside
      rw [hanswers, hanswers', leave_of_settled, leave_of_settled, hsettled,
        answers_of_alike halike.settled]

/-- A frame of three bytes, two of which are put back, that is read in two portions. -/
theorem enterFrame_keeps_order_two_put_back :
    let source : Source := ⟨Feed.ofBytes [0x63, 0x64, 0x65], 0, [0x61, 0x62], []⟩
    let requests : List Request := [.next, .exactly 2]
    ∃ entered, Read.enterFrame 3 source = .ok () entered ∧ source.pushback.length ≤ 3 ∧
      (.leave ∉ requests ∧ demand requests = 3) ∧
      answers (requests ++ [.next]) entered = [.ok [0x61], .ok [0x62, 0x63], .ok []] ∧
      answers (requests ++ [.leave, .exactly 2]) entered =
        [.ok [0x61], .ok [0x62, 0x63], .ok [], .ok [0x64, 0x65]] := by
  intro source requests
  obtain ⟨entered, hentered⟩ : ∃ entered, Read.enterFrame 3 source = .ok () entered := ⟨_, rfl⟩
  have hle : source.pushback.length ≤ 3 := by decide
  have hleave : Request.leave ∉ requests := by simp [requests]
  have hdemand : demand requests = 3 := rfl
  obtain ⟨-, -, hspec⟩ := enterFrame_keeps_order source entered 3 hentered
  obtain ⟨-, hrequests⟩ := hspec hle
  obtain ⟨-, hend, hlater⟩ := hrequests requests hleave hdemand
  exact ⟨entered, hentered, hle, ⟨hleave, hdemand⟩, hend.trans rfl, (hlater [.exactly 2]).trans rfl⟩

/-- Three bytes of which all are put back do not come in their order any more when a frame takes two
of them. -/
theorem exists_enterFrame_reorders :
    ∃ source entered,
      (Read.bytes 3 >>= Read.unread) (Source.ofFeed (Feed.ofBytes [0x61, 0x62, 0x63, 0x64])) =
        .ok () source ∧
      Read.enterFrame 2 source = .ok () entered ∧
      source.upcoming = [0x61, 0x62, 0x63, 0x64] ∧ entered.upcoming = [0x63, 0x61, 0x62, 0x64] ∧
      answers [.exactly 2] source = [.ok [0x61, 0x62]] ∧
      answers [.exactly 2] entered = [.ok [0x63, 0x61]] :=
  ⟨_, _, rfl, rfl, rfl, rfl, rfl, rfl⟩

end Source

end Pickle
