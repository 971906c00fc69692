import SysProg.Lib.Loop
import SysProg.Lib.Bytes

/-!
# Framed messages on a stream, `task6-sockets/util.h`

A message goes over a connection as its length in network byte order and its payload.
The kernel takes and delivers bytes in pieces of any size, and calls may fail.

* `SendOutcome`, `RecvOutcome` — what the kernel does in one call;
* `sendStep`, `recvStep` — the loops of `send_all` and `recv_all`;
* `secureSend`, `secureRecv` — one message;
* `framing_survives` — what is received is what was sent.

Loops run with a bound on their steps; for a kernel that makes progress again and again
some bound is enough.
-/

namespace SysProg.Sockets

open Loop Bytes

/-! ## Model -/

def EINTR : ℕ := 4
def EAGAIN : ℕ := 11
def EWOULDBLOCK : ℕ := 11
def ECONNRESET : ℕ := 104

/-- What the kernel makes of the wish to move `n` bytes in one call: at least one, and no
more than fits the `int` that the number is kept in. -/
def transfer (n : ℕ) : ℕ := min (max n 1) 0x7fffffff

theorem transfer_pos (n : ℕ) : 0 < transfer n := by
  unfold transfer
  omega

/-- A call of `send`: the kernel takes `transfer n` bytes, but no more than there are, or
fails. -/
inductive SendOutcome where
  | accepted (n : ℕ)
  | error (errno : ℕ)
deriving DecidableEq, Repr

/-- A call of `recv`: the kernel delivers `transfer n` bytes, but no more than asked for and
than there are, or fails. At the end of the stream there are none. -/
inductive RecvOutcome where
  | received (n : ℕ)
  | error (errno : ℕ)
deriving DecidableEq, Repr

/-- `construct_message`. -/
def constructMessage (payload : List UInt8) : List UInt8 :=
  bigEndian 4 payload.length ++ payload

/-- The sending end: the number of calls so far and the bytes in the stream. -/
structure Sender where
  calls : ℕ
  stream : List UInt8

/-- The variables of `send_all`. -/
structure SendLoop where
  sender : Sender
  charsSent : ℕ

/-- One round of `send_all`; the result is the sender, or none after `exit`. -/
def sendStep (send : ℕ → SendOutcome) (data : List UInt8) (s : SendLoop) :
    SendLoop ⊕ Option Sender :=
  let calls := s.sender.calls + 1
  if s.charsSent < data.length then
    match send s.sender.calls with
    | .accepted n =>
      let piece := (data.drop s.charsSent).take (transfer n)
      .inl ⟨⟨calls, s.sender.stream ++ piece⟩, s.charsSent + piece.length⟩
    | .error errno =>
      if errno = EAGAIN ∨ errno = EWOULDBLOCK ∨ errno = EINTR ∨ errno = ECONNRESET then
        .inl ⟨⟨calls, s.sender.stream⟩, s.charsSent⟩
      else if errno ≠ 0 then .inr none
      else
        -- the result -1 is added to a `size_t`
        .inl ⟨⟨calls, s.sender.stream⟩, (s.charsSent + (2 ^ 64 - 1)) % 2 ^ 64⟩
  else .inr (some s.sender)

/-- `secure_send`. -/
def secureSend (fuel : ℕ) (send : ℕ → SendOutcome) (payload : List UInt8) (sender : Sender) :
    Option Sender :=
  (run (sendStep send (constructMessage payload)) fuel ⟨sender, 0⟩).join

/-- The receiving end: the number of calls so far and the rest of the stream. -/
structure Receiver where
  calls : ℕ
  rest : List UInt8

/-- The variables of `recv_all`, and the memory that `data` points to. -/
structure RecvLoop where
  receiver : Receiver
  charsRecved : ℕ
  data : ℕ → UInt8

/-- Write bytes to memory. -/
def store (data : ℕ → UInt8) (offset : ℕ) (bytes : List UInt8) : ℕ → UInt8 :=
  fun k => if offset ≤ k then (bytes[k - offset]?).getD (data k) else data k

/-- One round of `recv_all`. -/
def recvStep (recv : ℕ → RecvOutcome) (count : ℕ) (s : RecvLoop) :
    RecvLoop ⊕ (Bool × RecvLoop) :=
  let calls := s.receiver.calls + 1
  if s.charsRecved < count then
    match recv s.receiver.calls with
    | .error errno =>
      if errno = EAGAIN ∨ errno = EWOULDBLOCK ∨ errno = ECONNRESET then
        .inl ⟨⟨calls, s.receiver.rest⟩, s.charsRecved, s.data⟩
      else
        -- `perror`, and then the result -1 is added to a `size_t`
        .inl ⟨⟨calls, s.receiver.rest⟩, (s.charsRecved + (2 ^ 64 - 1)) % 2 ^ 64, s.data⟩
    | .received n =>
      let piece := s.receiver.rest.take (min (transfer n) (count - s.charsRecved))
      if piece = [] then .inr (false, ⟨⟨calls, s.receiver.rest⟩, s.charsRecved, s.data⟩)
      else
        .inl ⟨⟨calls, s.receiver.rest.drop piece.length⟩, s.charsRecved + piece.length,
          store s.data s.charsRecved piece⟩
  else .inr (true, s)

/-- What a round of `recv_all` can do. -/
inductive RecvRound (recv : ℕ → RecvOutcome) (count : ℕ) (s : RecvLoop) :
    RecvLoop ⊕ (Bool × RecvLoop) → Prop where
  | again {errno : ℕ} (unfinished : s.charsRecved < count)
      (failed : recv s.receiver.calls = .error errno)
      (retried : errno = EAGAIN ∨ errno = EWOULDBLOCK ∨ errno = ECONNRESET) :
      RecvRound recv count s
        (.inl ⟨⟨s.receiver.calls + 1, s.receiver.rest⟩, s.charsRecved, s.data⟩)
  | miscounted {errno : ℕ} (unfinished : s.charsRecved < count)
      (failed : recv s.receiver.calls = .error errno)
      (other : ¬ (errno = EAGAIN ∨ errno = EWOULDBLOCK ∨ errno = ECONNRESET)) :
      RecvRound recv count s
        (.inl ⟨⟨s.receiver.calls + 1, s.receiver.rest⟩, (s.charsRecved + (2 ^ 64 - 1)) % 2 ^ 64,
          s.data⟩)
  | closed {n m : ℕ} (unfinished : s.charsRecved < count)
      (arrived : recv s.receiver.calls = .received n) (pos : 0 < m)
      (empty : s.receiver.rest.take m = []) :
      RecvRound recv count s
        (.inr (false, ⟨⟨s.receiver.calls + 1, s.receiver.rest⟩, s.charsRecved, s.data⟩))
  | piece {n m : ℕ} (unfinished : s.charsRecved < count)
      (arrived : recv s.receiver.calls = .received n) (le : m ≤ count - s.charsRecved)
      (nonempty : s.receiver.rest.take m ≠ []) :
      RecvRound recv count s
        (.inl ⟨⟨s.receiver.calls + 1, s.receiver.rest.drop (s.receiver.rest.take m).length⟩,
          s.charsRecved + (s.receiver.rest.take m).length,
          store s.data s.charsRecved (s.receiver.rest.take m)⟩)
  | done (full : count ≤ s.charsRecved) : RecvRound recv count s (.inr (true, s))

theorem recvStep_round (recv : ℕ → RecvOutcome) (count : ℕ) (s : RecvLoop) :
    RecvRound recv count s (recvStep recv count s) := by
  unfold recvStep
  split
  · rename_i hlt
    split
    · -- an error of the list is tried again, any other is added to the count
      rename_i errno herror
      split
      · rename_i hretry
        exact .again hlt herror hretry
      · rename_i hother
        exact .miscounted hlt herror hother
    · rename_i n hn
      have hpos := transfer_pos n
      simp only
      split
      · rename_i hnil
        exact .closed hlt hn (by omega) hnil
      · rename_i hne
        exact .piece hlt hn (Nat.min_le_right _ _) hne
  · rename_i hge
    exact .done (Nat.le_of_not_lt hge)

/-- The first `count` bytes of the memory that `recv_all` wrote to. -/
def RecvLoop.bytes (s : RecvLoop) (count : ℕ) : List UInt8 :=
  (List.range count).map s.data

/-- `secure_recv`: the value it returns and the contents of the buffer it allocates, if it
gets so far. The memory it receives into holds `fresh` before. -/
def secureRecv (fuel : ℕ) (recv : ℕ → RecvOutcome) (fresh : ℕ → UInt8) (receiver : Receiver) :
    Option ((ℤ × Option (List UInt8)) × Receiver) := do
  let (complete, s) ← run (recvStep recv 4) fuel ⟨receiver, 0, fresh⟩
  if complete then
    let length := ofBigEndian (s.bytes 4)
    let (complete, s) ← run (recvStep recv length) fuel ⟨s.receiver, 0, fresh⟩
    if complete then
      return (((BitVec.ofNat 32 length).toInt, some (s.bytes length)), s.receiver)
    else return ((0, some (s.bytes length)), s.receiver)
  else return ((0, none), s.receiver)

/-- `secure_send` of payloads one after the other. -/
def sendMessages (fuel : ℕ) (send : ℕ → SendOutcome) :
    List (List UInt8) → Sender → Option Sender
  | [], sender => some sender
  | payload :: payloads, sender =>
    (secureSend fuel send payload sender).bind (sendMessages fuel send payloads)

/-- `n` calls of `secure_recv`. -/
def recvMessages (fuel : ℕ) (recv : ℕ → RecvOutcome) (fresh : ℕ → UInt8) :
    ℕ → Receiver → Option (List (ℤ × Option (List UInt8)))
  | 0, _ => some []
  | n + 1, receiver => do
    let (result, receiver) ← secureRecv fuel recv fresh receiver
    let results ← recvMessages fuel recv fresh n receiver
    return result :: results

/-! ## Kernels that fragment the stream -/

def SendOutcome.isAccepted : SendOutcome → Prop
  | .accepted _ => True
  | .error _ => False

def RecvOutcome.isReceived : RecvOutcome → Prop
  | .received _ => True
  | .error _ => False

/-- `send` takes part of the data, or fails with an error after which it is called again;
it does not fail for ever. -/
structure Sends (send : ℕ → SendOutcome) : Prop where
  errors : ∀ i errno, send i = .error errno →
    errno = EAGAIN ∨ errno = EWOULDBLOCK ∨ errno = EINTR
  progress : Fair fun i => (send i).isAccepted

/-- `recv` delivers part of the data, or fails because there is none yet; it does not fail
for ever. -/
structure Receives (recv : ℕ → RecvOutcome) : Prop where
  errors : ∀ i errno, recv i = .error errno → errno = EAGAIN ∨ errno = EWOULDBLOCK
  progress : Fair fun i => (recv i).isReceived

section

variable {send : ℕ → SendOutcome} {recv : ℕ → RecvOutcome} {count : ℕ}

theorem Sends.retry (hsend : Sends send) {i errno : ℕ} (h : send i = .error errno) :
    errno = EAGAIN ∨ errno = EWOULDBLOCK ∨ errno = EINTR ∨ errno = ECONNRESET := by
  rcases hsend.errors i errno h with h | h | h
  · exact .inl h
  · exact .inr (.inl h)
  · exact .inr (.inr (.inl h))

theorem Receives.retry (hrecv : Receives recv) {i errno : ℕ} (h : recv i = .error errno) :
    errno = EAGAIN ∨ errno = EWOULDBLOCK ∨ errno = ECONNRESET := by
  rcases hrecv.errors i errno h with h | h
  · exact .inl h
  · exact .inr (.inl h)

/-- The order on what is left to do and the distance to the next progress. -/
theorem lex_wf : WellFounded (fun x y : ℕ ×ₗ ℕ => x < y) := wellFounded_lt

/-- What `send_all` has done after `charsSent` bytes of `data`. -/
structure Sending (data stream : List UInt8) (s : SendLoop) : Prop where
  le : s.charsSent ≤ data.length
  sent : s.sender.stream = stream ++ data.take s.charsSent

/-- What is left to send, and how far away the next progress is. -/
noncomputable def Sends.rank (hsend : Sends send) (data : List UInt8) (s : SendLoop) : ℕ ×ₗ ℕ :=
  toLex (data.length - s.charsSent, hsend.progress.wait s.sender.calls)

theorem Sending.next {data stream : List UInt8} {s s' : SendLoop} (hsend : Sends send)
    (h : Sending data stream s) (hstep : sendStep send data s = .inl s') :
    Sending data stream s' ∧ hsend.rank data s' < hsend.rank data s := by
  unfold sendStep at hstep
  split at hstep
  · rename_i hlt
    split at hstep
    · -- some bytes were taken
      rename_i n hn
      rcases Sum.inl.inj hstep with rfl
      have hlen : ((data.drop s.charsSent).take (transfer n)).length =
          min (transfer n) (data.length - s.charsSent) := by simp
      have hpos := transfer_pos n
      refine ⟨⟨?_, ?_⟩, Prod.Lex.left _ _ ?_⟩
      · simp only [hlen]
        omega
      · simp only [h.sent, hlen, List.append_assoc, List.append_cancel_left_eq]
        rw [← List.take_add, List.take_eq_take_iff]
        omega
      · simp only [hlen]
        omega
    · -- none were, and the next progress is nearer
      rename_i errno herror
      rw [if_pos (hsend.retry herror)] at hstep
      rcases Sum.inl.inj hstep with rfl
      refine ⟨⟨h.le, h.sent⟩, Prod.Lex.right _ (hsend.progress.wait_succ_lt ?_)⟩
      rw [herror]
      exact id
  · exact absurd hstep (by simp)

theorem Sending.done {data stream : List UInt8} {s : SendLoop} {r : Option Sender}
    (hsend : Sends send) (h : Sending data stream s) (hstep : sendStep send data s = .inr r) :
    ∃ calls, r = some ⟨calls, stream ++ data⟩ := by
  unfold sendStep at hstep
  split at hstep
  · split at hstep
    · exact absurd hstep (by simp)
    · rename_i errno herror
      rw [if_pos (hsend.retry herror)] at hstep
      exact absurd hstep (by simp)
  · rename_i hge
    have hall : s.charsSent = data.length := Nat.le_antisymm h.le (Nat.le_of_not_lt hge)
    rcases Sum.inr.inj hstep with rfl
    refine ⟨s.sender.calls, ?_⟩
    have hstream := h.sent
    rw [hall, List.take_length] at hstream
    rw [← hstream]

/-- `send_all` puts the data into the stream. -/
theorem sendAll_runs (hsend : Sends send) (data : List UInt8) (sender : Sender) :
    ∃ n calls, run (sendStep send data) n ⟨sender, 0⟩ =
      some (some ⟨calls, sender.stream ++ data⟩) := by
  have hstart : Sending data sender.stream ⟨sender, 0⟩ := ⟨Nat.zero_le _, by simp⟩
  rcases run_of_wf lex_wf (Sending data sender.stream) _ (hsend.rank data)
    (fun _ _ h hstep => h.next hsend hstep) (fun _ _ h hstep => h.done hsend hstep) hstart with
    ⟨n, r, hrun, calls, rfl⟩
  exact ⟨n, calls, hrun⟩

/-- What `recv_all` has done after `charsRecved` bytes of the stream `rest`. -/
structure Receiving (rest : List UInt8) (s : RecvLoop) : Prop where
  ahead : s.receiver.rest = rest.drop s.charsRecved
  stored : ∀ k, k < s.charsRecved → rest[k]? = some (s.data k)

theorem Receiving.piece {rest piece : List UInt8} {s : RecvLoop} {calls m : ℕ}
    (h : Receiving rest s) (hpiece : piece = s.receiver.rest.take m) :
    Receiving rest ⟨⟨calls, s.receiver.rest.drop piece.length⟩, s.charsRecved + piece.length,
      store s.data s.charsRecved piece⟩ := by
  constructor
  · show s.receiver.rest.drop piece.length = rest.drop (s.charsRecved + piece.length)
    rw [h.ahead, List.drop_drop]
  · intro k hk
    have hk : k < s.charsRecved + piece.length := hk
    show rest[k]? = some (store s.data s.charsRecved piece k)
    unfold store
    by_cases hold : s.charsRecved ≤ k
    · -- a byte of the new piece
      have hlt : k - s.charsRecved < piece.length := by omega
      rw [if_pos hold, List.getElem?_eq_getElem hlt, Option.getD_some]
      have hget : piece[k - s.charsRecved]? = rest[k]? := by
        have hm : k - s.charsRecved < m := by
          rw [hpiece, List.length_take] at hlt
          omega
        rw [hpiece, h.ahead, List.getElem?_take_of_lt hm, List.getElem?_drop]
        congr 1
        omega
      rw [← hget, List.getElem?_eq_getElem hlt]
    · rw [if_neg hold]
      exact h.stored k (by omega)

/-- The bytes stored are a prefix of the stream. -/
theorem Receiving.bytes {rest : List UInt8} {s : RecvLoop} {count : ℕ}
    (h : Receiving rest s) (hcount : s.charsRecved = count) :
    s.bytes count = rest.take count := by
  apply List.ext_getElem?
  intro k
  unfold RecvLoop.bytes
  by_cases hk : k < count
  · rw [List.getElem?_take_of_lt hk, h.stored k (hcount ▸ hk)]
    simp [hk]
  · have hnone : count ≤ k := Nat.le_of_not_lt hk
    rw [List.getElem?_eq_none (by simpa using hnone),
      List.getElem?_eq_none (by simp; omega)]

/-- What is left to receive, and how far away the next progress is. -/
noncomputable def Receives.rank (hrecv : Receives recv) (count : ℕ) (s : RecvLoop) : ℕ ×ₗ ℕ :=
  toLex (count - s.charsRecved, hrecv.progress.wait s.receiver.calls)

theorem Receiving.next {rest : List UInt8} {s s' : RecvLoop} {count : ℕ} (hrecv : Receives recv)
    (h : Receiving rest s) (hle : s.charsRecved ≤ count) (hstep : recvStep recv count s = .inl s') :
    (s'.charsRecved ≤ count ∧ Receiving rest s') ∧ hrecv.rank count s' < hrecv.rank count s := by
  have hround := recvStep_round recv count s
  rw [hstep] at hround
  cases hround with
  | again hlt herror hretry =>
    -- nothing there yet, and the next progress is nearer
    refine ⟨⟨hle, h.ahead, h.stored⟩, Prod.Lex.right _ (hrecv.progress.wait_succ_lt ?_)⟩
    rw [herror]
    exact id
  | miscounted hlt herror hother => exact absurd (hrecv.retry herror) hother
  | piece hlt hn hm hne =>
    have hpos := List.length_pos_iff.mpr hne
    have hpiece := List.length_take_le _ s.receiver.rest |>.trans hm
    refine ⟨⟨?_, h.piece rfl⟩, Prod.Lex.left _ _ ?_⟩
    · simp only
      omega
    · simp only
      omega

/-- The stream does not end before `count` bytes. -/
theorem Receiving.done {rest : List UInt8} {s : RecvLoop} {r : Bool × RecvLoop}
    (hlen : count ≤ rest.length) (h : Receiving rest s) (hle : s.charsRecved ≤ count)
    (hstep : recvStep recv count s = .inr r) :
    r.1 = true ∧ r.2.charsRecved = count ∧ Receiving rest r.2 := by
  have hround := recvStep_round recv count s
  rw [hstep] at hround
  cases hround with
  | closed hlt hn hpos hnil =>
    have hlength := congrArg List.length hnil
    rw [h.ahead, List.length_take, List.length_drop, List.length_nil] at hlength
    omega
  | done hge => exact ⟨rfl, Nat.le_antisymm hle hge, h⟩

/-- `recv_all` delivers the next `count` bytes of a stream that has as many. -/
theorem recvAll_runs (hrecv : Receives recv) (fresh : ℕ → UInt8) (receiver : Receiver)
    (hlen : count ≤ receiver.rest.length) :
    ∃ n s, run (recvStep recv count) n ⟨receiver, 0, fresh⟩ = some (true, s) ∧
      s.bytes count = receiver.rest.take count ∧
      s.receiver.rest = receiver.rest.drop count := by
  have hstart : Receiving receiver.rest ⟨receiver, 0, fresh⟩ :=
    ⟨by simp, fun k hk => absurd hk (Nat.not_lt_zero k)⟩
  rcases run_of_wf lex_wf (fun s => s.charsRecved ≤ count ∧ Receiving receiver.rest s) _
    (hrecv.rank count) (fun _ _ h hstep => h.2.next hrecv h.1 hstep)
    (fun _ _ h hstep => h.2.done hlen h.1 hstep) ⟨Nat.zero_le _, hstart⟩ with
    ⟨n, ⟨complete, s⟩, hrun, hcomplete, hcount, hinv⟩
  have hcomplete : complete = true := hcomplete
  have hcount : s.charsRecved = count := hcount
  subst hcomplete
  refine ⟨n, s, hrun, hinv.bytes hcount, ?_⟩
  have hrest := hinv.ahead
  rw [hcount] at hrest
  exact hrest

/-- At the end of the stream `recv_all` reports that the connection is closed. -/
theorem recvAll_closed (hrecv : Receives recv) (fresh : ℕ → UInt8) (hpos : 0 < count)
    (receiver : Receiver) (hrest : receiver.rest = []) :
    ∃ n s, run (recvStep recv count) n ⟨receiver, 0, fresh⟩ = some (false, s) := by
  have hloop : ∃ n r, run (recvStep recv count) n ⟨receiver, 0, fresh⟩ = some r ∧
      r.1 = false := by
    refine run_of_wf (wellFounded_lt : WellFounded fun x y : ℕ => x < y)
      (fun s => s.charsRecved = 0 ∧ s.receiver.rest = []) _
      (fun s => hrecv.progress.wait s.receiver.calls) ?_ ?_ ⟨rfl, hrest⟩
    · intro s s' hinv hstep
      have hround := recvStep_round recv count s
      rw [hstep] at hround
      cases hround with
      | again hlt herror hretry =>
        refine ⟨hinv, hrecv.progress.wait_succ_lt ?_⟩
        rw [herror]
        exact id
      | miscounted hlt herror hother => exact absurd (hrecv.retry herror) hother
      -- there are no more bytes
      | piece hlt hn hm hne =>
        rw [hinv.2, List.take_nil] at hne
        exact absurd rfl hne
    · intro s r hinv hstep
      have hround := recvStep_round recv count s
      rw [hstep] at hround
      cases hround with
      | closed => rfl
      | done hge => exact absurd (hinv.1 ▸ hge) (Nat.not_le_of_lt hpos)
  rcases hloop with ⟨n, ⟨complete, s⟩, hrun, hcomplete⟩
  have hcomplete : complete = false := hcomplete
  subst hcomplete
  exact ⟨n, s, hrun⟩

/-! ## Messages -/

/-- With enough steps `secure_send` puts one frame into the stream. -/
theorem secureSend_runs (hsend : Sends send) (payload : List UInt8) (sender : Sender) :
    ∃ n calls, ∀ fuel, n ≤ fuel → secureSend fuel send payload sender =
      some ⟨calls, sender.stream ++ constructMessage payload⟩ := by
  rcases sendAll_runs hsend (constructMessage payload) sender with ⟨n, calls, hrun⟩
  refine ⟨n, calls, ?_⟩
  intro fuel hfuel
  unfold secureSend
  rw [run_mono hfuel hrun]
  rfl

theorem sendMessages_runs (hsend : Sends send) (payloads : List (List UInt8)) (sender : Sender) :
    ∃ n calls, ∀ fuel, n ≤ fuel → sendMessages fuel send payloads sender =
      some ⟨calls, sender.stream ++ payloads.flatMap constructMessage⟩ := by
  induction payloads generalizing sender with
  | nil =>
    refine ⟨0, sender.calls, ?_⟩
    intro fuel _
    simp [sendMessages]
  | cons payload payloads ih =>
    rcases secureSend_runs hsend payload sender with ⟨n, calls, hfirst⟩
    rcases ih ⟨calls, sender.stream ++ constructMessage payload⟩ with ⟨m, calls', hrest⟩
    refine ⟨max n m, calls', ?_⟩
    intro fuel hfuel
    rw [sendMessages, hfirst fuel (by omega), Option.bind_some, hrest fuel (by omega)]
    simp

/-- With enough steps `secure_recv` takes one frame off the stream. -/
theorem secureRecv_runs (hrecv : Receives recv) (fresh : ℕ → UInt8) {payload tail : List UInt8}
    (hlen : payload.length < 2 ^ 31) (receiver : Receiver)
    (hrest : receiver.rest = constructMessage payload ++ tail) :
    ∃ n calls, ∀ fuel, n ≤ fuel → secureRecv fuel recv fresh receiver =
      some (((payload.length : ℤ), some payload), ⟨calls, tail⟩) := by
  have hframe : receiver.rest = bigEndian 4 payload.length ++ (payload ++ tail) := by
    rw [hrest, constructMessage, List.append_assoc]
  -- the length field
  have hfour : 4 ≤ receiver.rest.length := by
    rw [hframe, List.length_append, bigEndian_length]
    omega
  rcases recvAll_runs hrecv fresh receiver hfour with ⟨n, s, hrun, hbytes, hleft⟩
  rw [hframe, List.take_left' (bigEndian_length _ _)] at hbytes
  rw [hframe, List.drop_left' (bigEndian_length _ _)] at hleft
  have hlength : ofBigEndian (s.bytes 4) = payload.length := by
    rw [hbytes]
    exact ofBigEndian_bigEndian (by omega)
  -- the payload
  have hpayload : payload.length ≤ s.receiver.rest.length := by
    rw [hleft, List.length_append]
    omega
  rcases recvAll_runs hrecv fresh s.receiver hpayload with
    ⟨m, s', hrun', hbytes', hleft'⟩
  rw [hleft, List.take_left' rfl] at hbytes'
  rw [hleft, List.drop_left' rfl] at hleft'
  refine ⟨max n m, s'.receiver.calls, ?_⟩
  intro fuel hfuel
  have hint : (BitVec.ofNat 32 payload.length).toInt = payload.length := by
    rw [BitVec.toInt_ofNat', Int.bmod_def]
    omega
  unfold secureRecv
  rw [run_mono (by omega) hrun]
  simp only [Option.bind_eq_bind, Option.bind_some, if_true, hlength]
  rw [run_mono (by omega) hrun']
  simp only [Option.bind_some, if_true, hbytes', hint, ← hleft']
  rfl

/-- At the end of the stream `secure_recv` returns 0. -/
theorem secureRecv_closed (hrecv : Receives recv) (fresh : ℕ → UInt8) (receiver : Receiver)
    (hrest : receiver.rest = []) :
    ∃ n receiver', ∀ fuel, n ≤ fuel → secureRecv fuel recv fresh receiver =
      some ((0, none), receiver') := by
  rcases recvAll_closed hrecv fresh (by omega : 0 < 4) receiver hrest with
    ⟨n, s, hrun⟩
  refine ⟨n, s.receiver, ?_⟩
  intro fuel hfuel
  unfold secureRecv
  rw [run_mono hfuel hrun]
  rfl

theorem recvMessages_runs (hrecv : Receives recv) (fresh : ℕ → UInt8) (payloads : List (List UInt8))
    (hlen : ∀ payload ∈ payloads, payload.length < 2 ^ 31) (receiver : Receiver)
    (hrest : receiver.rest = payloads.flatMap constructMessage) :
    ∃ n, ∀ fuel, n ≤ fuel → recvMessages fuel recv fresh (payloads.length + 1) receiver =
      some (payloads.map (fun payload => ((payload.length : ℤ), some payload)) ++
        [(0, none)]) := by
  induction payloads generalizing receiver with
  | nil =>
    rcases secureRecv_closed hrecv fresh receiver hrest with ⟨n, receiver', hend⟩
    refine ⟨n, ?_⟩
    intro fuel hfuel
    simp [recvMessages, hend fuel hfuel]
  | cons payload payloads ih =>
    rw [List.flatMap_cons] at hrest
    rcases secureRecv_runs hrecv fresh (hlen payload List.mem_cons_self) receiver
      hrest with ⟨n, calls, hfirst⟩
    have hlen' : ∀ p ∈ payloads, p.length < 2 ^ 31 :=
      fun p hp => hlen p (List.mem_cons_of_mem _ hp)
    rcases ih hlen' ⟨calls, payloads.flatMap constructMessage⟩ rfl with ⟨m, hnext⟩
    refine ⟨max n m, ?_⟩
    intro fuel hfuel
    rw [List.length_cons, recvMessages, hfirst fuel (by omega)]
    simp [hnext fuel (by omega)]

/-- Messages arrive as they were sent, however the kernel cuts the stream: the payloads
with their lengths and in their order, and 0 after the last. -/
theorem framing_survives (payloads : List (List UInt8))
    (hlen : ∀ payload ∈ payloads, payload.length < 2 ^ 31) (hsend : Sends send)
    (hrecv : Receives recv) (fresh : ℕ → UInt8) :
    ∃ n, ∀ fuel, n ≤ fuel → ∃ sender,
      sendMessages fuel send payloads ⟨0, []⟩ = some sender ∧
      recvMessages fuel recv fresh (payloads.length + 1) ⟨0, sender.stream⟩ =
        some (payloads.map (fun payload => ((payload.length : ℤ), some payload)) ++
          [(0, none)]) := by
  rcases sendMessages_runs hsend payloads ⟨0, []⟩ with ⟨n, calls, hsent⟩
  rcases recvMessages_runs hrecv fresh payloads hlen
    ⟨0, payloads.flatMap constructMessage⟩ rfl with ⟨m, hreceived⟩
  refine ⟨max n m, ?_⟩
  intro fuel hfuel
  exact ⟨_, hsent fuel (by omega), hreceived fuel (by omega)⟩

/-! ## A slow kernel -/

theorem bytewise_sends :
    Sends fun i => if i % 2 = 0 then .error EINTR else .accepted 1 where
  errors := by
    intro i errno h
    split at h
    · exact .inr (.inr (SendOutcome.error.inj h).symm)
    · exact SendOutcome.noConfusion h
  progress := by
    intro i
    refine ⟨2 * i + 1, by omega, ?_⟩
    simp only [show (2 * i + 1) % 2 ≠ 0 by omega, if_false]
    trivial

theorem bytewise_receives :
    Receives fun i => if i % 2 = 0 then .error EAGAIN else .received 1 where
  errors := by
    intro i errno h
    split at h
    · exact .inl (RecvOutcome.error.inj h).symm
    · exact RecvOutcome.noConfusion h
  progress := by
    intro i
    refine ⟨2 * i + 1, by omega, ?_⟩
    simp only [show (2 * i + 1) % 2 ≠ 0 by omega, if_false]
    trivial

/-- A kernel that fails every second call and moves one byte in the others. -/
theorem framing_survives_bytewise :
    ∃ n, ∀ fuel, n ≤ fuel → ∃ sender,
      sendMessages fuel (fun i => if i % 2 = 0 then .error EINTR else .accepted 1)
        [[7, 0, 255], [], [3]] ⟨0, []⟩ = some sender ∧
      recvMessages fuel (fun i => if i % 2 = 0 then .error EAGAIN else .received 1)
        (fun _ => 0) 4 ⟨0, sender.stream⟩ =
          some [(3, some [7, 0, 255]), (0, some []), (1, some [3]), (0, none)] :=
  framing_survives [[7, 0, 255], [], [3]] (by decide) bytewise_sends bytewise_receives fun _ => 0

end

end SysProg.Sockets
