import Mathlib.Tactic
import SysProg.Lib.Lts
import SysProg.Sockets.Framing
import SysProg.Sockets.Request

/-!
# Replies of `task6-sockets`

At a TERMINATION the server prints a snapshot of `number` and sends it back as an `int32`.
The client takes the first four bytes of the reply for its length.

* `serverSystem` — worker threads with any messages, in every interleaving of operations;
* `reply_carries_iff` — the replies carry what is printed just when it fits them;
* `clientRange` — the bytes that the client hands to the parser;
* `decodes_payload_iff` — they are the payload if it starts with its own length, which no
  `server_msg` does.
-/

namespace SysProg.Sockets

open Lts Loop Bytes

/-! ## The counter and its snapshots -/

section Server

variable {W : Type} [DecidableEq W]

/-- The workers with the operations that are left of their messages. The state remembers
what was printed and replied at every TERMINATION and the operations processed, latest first;
no step looks at those. -/
structure ServerState (W : Type) where
  number : BitVec 64
  worker : W → List OperationData
  replies : List (BitVec 64 × ServerMsg)
  processed : List OperationData

/-- A worker gets a message, or processes its next operation. -/
inductive ServerLabel (W : Type) where
  | receive (w : W) (msg : ClientMsg)
  | process (w : W)

def serverInit (W : Type) : ServerState W := ⟨0, fun _ => [], [], []⟩

/-- The response to a TERMINATION: `static_cast<int32_t>(snapshot)`. -/
def response (snapshot : BitVec 64) : ServerMsg := ⟨snapshot.setWidth 32⟩

def serverNext : ServerLabel W → ServerState W → Option (ServerState W)
  | .receive w msg, s =>
    if s.worker w = [] then some { s with worker := Function.update s.worker w msg.ops } else none
  | .process w, s =>
    match s.worker w with
    | [] => none
    | op :: ops =>
      match processOps [op] s.number with
      | (number, none) =>
        some ⟨number, Function.update s.worker w ops, s.replies, op :: s.processed⟩
      | (number, some snapshot) =>
        -- the rest of the message is not looked at
        some ⟨number, Function.update s.worker w [], (snapshot, response snapshot) :: s.replies,
          op :: s.processed⟩

def serverSystem (W : Type) [DecidableEq W] : System (ServerState W) (ServerLabel W) where
  Init s := s = serverInit W
  Next l s s' := serverNext l s = some s'

/-- A number that an `int32` can hold. -/
def FitsReply (number : BitVec 64) : Prop :=
  -2 ^ 31 ≤ number.toInt ∧ number.toInt < 2 ^ 31

instance : DecidablePred FitsReply := fun number =>
  inferInstanceAs (Decidable (-2 ^ 31 ≤ number.toInt ∧ number.toInt < 2 ^ 31))

/-- At a TERMINATION the number fits the reply. -/
def TerminatesInRange : ServerLabel W → ServerState W → Prop
  | .receive _ _, _ => True
  | .process w, s => ∀ op ops, s.worker w = op :: ops → op.type = .termination → FitsReply s.number

/-- What the processed operations are worth. -/
def ServerState.total (s : ServerState W) : ℤ :=
  (s.processed.map OperationData.amount).sum

variable {l : ServerLabel W} {s s' : ServerState W} {history : List (ServerLabel W × ServerState W)}

/-- What a step of the server can do. -/
inductive ServerStep (s : ServerState W) : ServerLabel W → ServerState W → Prop where
  | receive (w : W) (msg : ClientMsg) :
      ServerStep s (.receive w msg) { s with worker := Function.update s.worker w msg.ops }
  | count (w : W) (op : OperationData) (ops : List OperationData) (next : s.worker w = op :: ops)
      (plain : op.type ≠ .termination) :
      ServerStep s (.process w) ⟨s.number + BitVec.ofInt 64 op.amount,
        Function.update s.worker w ops, s.replies, op :: s.processed⟩
  | reply (w : W) (op : OperationData) (ops : List OperationData) (next : s.worker w = op :: ops)
      (last : op.type = .termination) :
      ServerStep s (.process w) ⟨s.number, Function.update s.worker w [],
        (s.number, response s.number) :: s.replies, op :: s.processed⟩

theorem serverNext_step (h : serverNext l s = some s') : ServerStep s l s' := by
  cases l with
  | receive w msg =>
    simp only [serverNext] at h
    split_ifs at h
    rcases Option.some.inj h with rfl
    exact .receive w msg
  | process w =>
    simp only [serverNext] at h
    cases hw : s.worker w with
    | nil =>
      rw [hw] at h
      cases h
    | cons op ops =>
      rw [hw] at h
      by_cases hlast : op.type = .termination
      · -- a TERMINATION is answered with the number
        have hop : processOps [op] s.number = (s.number, some s.number) := by
          simp [processOps, hlast]
        simp only [hop] at h
        rcases Option.some.inj h with rfl
        exact .reply w op ops hw hlast
      · have hop := processOps_plain [op] s.number (by simpa using hlast)
        simp only [hop] at h
        rcases Option.some.inj h with rfl
        have hsum : ([op].map OperationData.amount).sum = op.amount := by simp
        rw [hsum]
        exact .count w op ops hw hlast

/-- The conversion keeps the numbers that fit, and no others. -/
theorem response_toInt_iff (number : BitVec 64) :
    (response number).result.toInt = number.toInt ↔ FitsReply number := by
  have hresult : (response number).result.toInt = (number.toNat : ℤ).bmod (2 ^ 32) :=
    BitVec.toInt_setWidth number
  have hnumber : number.toInt = (number.toNat : ℤ).bmod (2 ^ 64) := BitVec.toInt_eq_toNat_bmod number
  have hlt := number.isLt
  unfold FitsReply
  rw [hresult, hnumber, Int.bmod_def, Int.bmod_def]
  omega

/-- What the server remembers is what it did: `number` is the worth of the operations, and
every reply holds its snapshot. -/
structure ServerInv (s : ServerState W) : Prop where
  number : s.number = BitVec.ofInt 64 s.total
  replies : ∀ x ∈ s.replies, x.2 = response x.1

theorem ServerInv.step (h : ServerInv s) (hstep : ServerStep s l s') : ServerInv s' := by
  cases hstep with
  | receive => exact ⟨h.number, h.replies⟩
  | count =>
    refine ⟨?_, h.replies⟩
    rw [ServerState.total, List.map_cons, List.sum_cons, BitVec.ofInt_add, BitVec.add_comm, h.number]
    rfl
  | reply w op ops hnext hlast =>
    have hamount : op.amount = 0 := by simp [OperationData.amount, hlast]
    refine ⟨?_, ?_⟩
    · rw [ServerState.total, List.map_cons, List.sum_cons, hamount, Int.zero_add]
      exact h.number
    · intro x hx
      rcases List.mem_cons.mp hx with rfl | hx
      · rfl
      · exact h.replies x hx

theorem server_inv (hr : Run (serverSystem W) history s) : ServerInv s := by
  refine hr.reachable.invariant ?_ ?_
  · rintro s rfl
    exact ⟨rfl, fun x hx => (nomatch hx)⟩
  · intro l s s' h hnext
    exact h.step (serverNext_step hnext)

/-- An operation is worth at most `2 ^ 31`. -/
theorem amount_bounds (op : OperationData) : -2 ^ 31 ≤ op.amount ∧ op.amount ≤ 2 ^ 31 := by
  have hlow := BitVec.le_toInt op.arg
  have hhigh : op.arg.toInt < 2 ^ 31 := BitVec.toInt_lt
  unfold OperationData.amount
  split <;> omega

theorem sum_amount_bounds (ops : List OperationData) :
    -2 ^ 31 * (ops.length : ℤ) ≤ (ops.map OperationData.amount).sum ∧
      (ops.map OperationData.amount).sum ≤ 2 ^ 31 * ops.length := by
  induction ops with
  | nil => simp
  | cons op ops ih =>
    have hop := amount_bounds op
    simp only [List.map_cons, List.sum_cons, List.length_cons, Nat.cast_add, Nat.cast_one]
    omega

omit [DecidableEq W] in
/-- With fewer than `2 ^ 31` operations `number` does not wrap around. -/
theorem ServerInv.exact (h : ServerInv s) (hfew : s.processed.length < 2 ^ 31) :
    s.number.toInt = s.total := by
  have hbounds := sum_amount_bounds s.processed
  change _ ≤ s.total ∧ s.total ≤ _ at hbounds
  rw [h.number, BitVec.toInt_ofInt, Int.bmod_def]
  omega

/-- The snapshots of a run are the numbers at its TERMINATIONs. -/
theorem snapshots_fit_iff (hr : Run (serverSystem W) history s) :
    (∀ x ∈ s.replies, FitsReply x.1) ↔ Steps TerminatesInRange history := by
  induction hr with
  | init hinit =>
    rw [show _ = serverInit W from hinit]
    exact ⟨fun _ x hx => (nomatch hx), fun _ x hx => (nomatch hx)⟩
  | @step history s s' l hr hnext ih =>
    rw [Steps, List.forall_mem_cons]
    cases serverNext_step hnext with
    | receive => exact ih.trans ⟨fun h => ⟨trivial, h⟩, And.right⟩
    | count w op ops hw hplain =>
      -- the operation is not a TERMINATION
      refine ih.trans ⟨fun h => ⟨?_, h⟩, And.right⟩
      intro op' ops' hw' hlast
      rw [hw] at hw'
      rw [← (List.cons.inj hw').1] at hlast
      exact absurd hlast hplain
    | reply w op ops hw hlast =>
      rw [List.forall_mem_cons, ih]
      refine and_congr ⟨fun h op' ops' _ _ => h, fun h => h op ops hw hlast⟩ Iff.rfl

/-- The values that the server prints. -/
def ServerState.printed (s : ServerState W) : List ℤ :=
  s.replies.map fun x => x.1.toInt

/-- The values that the clients get. -/
def ServerState.results (s : ServerState W) : List ℤ :=
  s.replies.map fun x => x.2.result.toInt

omit [DecidableEq W] in
theorem replies_carry_iff (h : ServerInv s) :
    (∀ x ∈ s.replies, x.2.result.toInt = x.1.toInt) ↔ ∀ x ∈ s.replies, FitsReply x.1 := by
  refine forall₂_congr fun x hx => ?_
  rw [h.replies x hx]
  exact response_toInt_iff x.1

omit [DecidableEq W] in
/-- As collections the values agree only if they agree one by one: what is replied fits a
reply. -/
theorem printed_perm_iff (h : ServerInv s) :
    (s.printed : Multiset ℤ) = s.results ↔ ∀ x ∈ s.replies, FitsReply x.1 := by
  constructor
  · intro heq x hx
    have hmem : x.1.toInt ∈ s.printed := List.mem_map_of_mem hx
    have hmem' : x.1.toInt ∈ s.results := (Multiset.coe_eq_coe.mp heq).mem_iff.mp hmem
    rcases List.mem_map.mp hmem' with ⟨y, -, hy⟩
    -- what is printed is among the results, and every result is an int32
    have hlow := BitVec.le_toInt y.2.result
    have hhigh : y.2.result.toInt < 2 ^ 31 := BitVec.toInt_lt
    unfold FitsReply
    omega
  · intro hfits
    refine congrArg _ (List.map_congr_left fun x hx => ?_)
    exact ((replies_carry_iff h).mpr hfits x hx).symm

/-- In every run of the workers with any messages: every reply carries the value that is
printed with it, and the clients get the values that the server prints, just when `number`
fits an `int32` at every TERMINATION. `number` is exact as long as there are fewer than
`2 ^ 31` operations. -/
theorem reply_carries_iff (hr : Run (serverSystem W) history s) :
    (s.processed.length < 2 ^ 31 → s.number.toInt = s.total) ∧
    ((∀ x ∈ s.replies, x.2.result.toInt = x.1.toInt) ↔ Steps TerminatesInRange history) ∧
    ((s.printed : Multiset ℤ) = s.results ↔ Steps TerminatesInRange history) := by
  have hinv := server_inv hr
  refine ⟨hinv.exact, ?_, ?_⟩
  · exact (replies_carry_iff hinv).trans (snapshots_fit_iff hr)
  · exact (printed_perm_iff hinv).trans (snapshots_fit_iff hr)

theorem run_of_serverNext (labels : List (ServerLabel W))
    (hx : exec serverNext labels [] (serverInit W) = some (history, s)) :
    Run (serverSystem W) history s := by
  have h0 : Run (serverSystem W) [] (serverInit W) := .init rfl
  exact h0.exec (fun _ _ _ h => h) hx

end Server

/-- Two workers: one adds `a` and then 1, the other has the TERMINATION. -/
def addSchedule (a : BitVec 32) : List (ServerLabel Bool) :=
  [.receive false ⟨[operation .add a, operation .add 1]⟩, .process false,
    .receive true terminationMsg, .process false, .process true]

theorem reply_carries_small :
    ∃ history s, exec serverNext (addSchedule 41) [] (serverInit Bool) = some (history, s) ∧
      s.printed = [42] ∧ s.results = [42] ∧
      ((s.printed : Multiset ℤ) = s.results ↔ Steps TerminatesInRange history) := by
  refine ⟨_, _, rfl, by decide, by decide, ?_⟩
  exact (reply_carries_iff (run_of_serverNext (addSchedule 41) rfl)).2.2

/-- The server prints 2147483648, and the client -2147483648. -/
theorem reply_narrowed :
    ∃ history s, exec serverNext (addSchedule 2147483647) [] (serverInit Bool) =
        some (history, s) ∧ Run (serverSystem Bool) history s ∧ s.processed.length = 3 ∧
      s.printed = [2147483648] ∧ s.results = [-2147483648] ∧
      (s.printed : Multiset ℤ) ≠ s.results := by
  refine ⟨_, _, rfl, run_of_serverNext (addSchedule 2147483647) rfl, rfl, by decide, by decide, by decide⟩

/-! ## The bytes that the client parses -/

/-- `get_payload_size`: the number in the four bytes at `msg`, as an `int`. -/
def getPayloadSize (msg : ℕ → UInt8) : ℤ :=
  (BitVec.ofNat 32 (ofBigEndian ((List.range 4).map msg))).toInt

/-- The arguments of `ParseFromArray`: a position in the buffer and a number of bytes. -/
structure ParseRange where
  start : ℕ
  size : ℤ
deriving DecidableEq, Repr

/-- The end of `client()`: the bytes it parses after `secure_recv`, if it got a buffer. Behind
the buffer is the memory of `heap`. -/
def clientRange (fuel : ℕ) (recv : ℕ → RecvOutcome) (fresh heap : ℕ → UInt8)
    (receiver : Receiver) : Option (Option ParseRange) := do
  let ((_, buffer), _) ← secureRecv fuel recv fresh receiver
  return buffer.map fun bytes => ⟨0, getPayloadSize (store heap 0 bytes)⟩

/-- A reply that the server sends is parsed from its first byte to its last. -/
def DecodesPayload (send : ℕ → SendOutcome) (recv : ℕ → RecvOutcome) (fresh heap : ℕ → UInt8)
    (payload : List UInt8) : Prop :=
  ∃ n, ∀ fuel, n ≤ fuel → ∃ sender, secureSend fuel send payload ⟨0, []⟩ = some sender ∧
    clientRange fuel recv fresh heap ⟨0, sender.stream⟩ = some (some ⟨0, payload.length⟩)

/-- The number in the first four bytes of a payload, or in the payload and the memory behind
it if it is shorter. -/
def sizeField (heap : ℕ → UInt8) (payload : List UInt8) : ℕ :=
  ofBigEndian ((List.range 4).map (store heap 0 payload))

section Client

variable {send : ℕ → SendOutcome} {recv : ℕ → RecvOutcome}

/-- What the client parses is given by the first four bytes. -/
theorem clientRange_runs (hsend : Sends send) (hrecv : Receives recv) (fresh heap : ℕ → UInt8)
    {payload : List UInt8} (hlen : payload.length < 2 ^ 31) :
    ∃ n, ∀ fuel, n ≤ fuel → ∃ sender, secureSend fuel send payload ⟨0, []⟩ = some sender ∧
      clientRange fuel recv fresh heap ⟨0, sender.stream⟩ =
        some (some ⟨0, getPayloadSize (store heap 0 payload)⟩) := by
  rcases secureSend_runs hsend payload ⟨0, []⟩ with ⟨n, calls, hsent⟩
  have hstream : ([] : List UInt8) ++ constructMessage payload = constructMessage payload ++ [] := by
    rw [List.nil_append, List.append_nil]
  rcases secureRecv_runs hrecv fresh hlen ⟨0, [] ++ constructMessage payload⟩ hstream with
    ⟨m, calls', hreceived⟩
  refine ⟨max n m, ?_⟩
  intro fuel hfuel
  refine ⟨_, hsent fuel (by omega), ?_⟩
  rw [clientRange, hreceived fuel (by omega)]
  rfl

theorem getPayloadSize_eq_iff {heap : ℕ → UInt8} {payload : List UInt8}
    (hlen : payload.length < 2 ^ 31) :
    getPayloadSize (store heap 0 payload) = payload.length ↔
      sizeField heap payload = payload.length := by
  have hlt : sizeField heap payload < 256 ^ 4 := ofBigEndian_lt ((List.range 4).map (store heap 0 payload))
  have hsize : getPayloadSize (store heap 0 payload) =
      (BitVec.ofNat 32 (sizeField heap payload)).toInt := rfl
  rw [hsize, BitVec.toInt_ofNat', Int.bmod_def]
  omega

theorem serializeReply_eq (msg : ServerMsg) :
    wire.serializeReply msg = 8 :: WireFormat.Varint.encode (encodeInt32 msg.result) := by
  have hfields : wire.serializeReply msg =
      (WireFormat.Varint.encode 8 ++ WireFormat.Varint.encode (encodeInt32 msg.result)) ++ [] :=
    rfl
  rw [hfields, WireFormat.Varint.encode_of_lt (by decide), List.append_nil]
  rfl

theorem wire_taggedReplies : wire.TaggedReplies where
  tag msg := by
    rw [serializeReply_eq]
    rfl
  size msg := by
    have hvarint : encodeInt32 msg.result < 128 ^ 10 := lt_trans (BitVec.isLt _) (by decide)
    have hlen := WireFormat.Varint.encode_length_le (Nat.succ_pos 9) hvarint
    rw [serializeReply_eq, List.length_cons]
    omega

/-- The length field of no reply is its length: the tag alone makes it larger. -/
theorem sizeField_serializeReply {P : Protobuf} (hP : P.TaggedReplies) (heap : ℕ → UInt8)
    (msg : ServerMsg) :
    (P.serializeReply msg).length < sizeField heap (P.serializeReply msg) := by
  have hlen := hP.size msg
  have hfirst : store heap 0 (P.serializeReply msg) 0 = 8 := by
    rcases List.head?_eq_some_iff.mp (hP.tag msg) with ⟨rest, hrest⟩
    rw [hrest]
    rfl
  have htag : (8 : UInt8).toNat = 8 := rfl
  -- the tag is the highest byte of the field
  simp only [sizeField, ofBigEndian, List.range_succ, List.range_zero, List.nil_append,
    List.cons_append, List.map_cons, List.map_nil, List.foldl_cons, List.foldl_nil, hfirst]
  omega

theorem decodes_iff_sizeField (hsend : Sends send) (hrecv : Receives recv) (fresh heap : ℕ → UInt8)
    {payload : List UInt8} (hlen : payload.length < 2 ^ 31) :
    DecodesPayload send recv fresh heap payload ↔ sizeField heap payload = payload.length := by
  rcases clientRange_runs hsend hrecv fresh heap hlen with ⟨n, hrange⟩
  rw [← getPayloadSize_eq_iff hlen]
  constructor
  · rintro ⟨m, hdecodes⟩
    -- both hold with enough steps
    rcases hrange (max n m) (le_max_left n m) with ⟨sender, hsent, hreal⟩
    rcases hdecodes (max n m) (le_max_right n m) with ⟨sender', hsent', hwish⟩
    rcases Option.some.inj (hsent.symm.trans hsent') with rfl
    have heq := Option.some.inj (Option.some.inj (hreal.symm.trans hwish))
    exact congrArg ParseRange.size heq
  · intro hsize
    rw [hsize] at hrange
    exact ⟨n, hrange⟩

/-- For every `server_msg`, with any library that writes `result` first and any memory behind
the buffer: what the client parses is never the payload of the reply. -/
theorem reply_never_decoded {P : Protobuf} (hP : P.TaggedReplies) (hsend : Sends send)
    (hrecv : Receives recv) (fresh heap : ℕ → UInt8) (msg : ServerMsg) :
    ¬ DecodesPayload send recv fresh heap (P.serializeReply msg) := by
  have hlen := hP.size msg
  rw [decodes_iff_sizeField hsend hrecv fresh heap (by omega)]
  exact (sizeField_serializeReply hP heap msg).ne'

end Client

/-- A result of -1, with the longest varint. -/
theorem reply_never_decoded_negative :
    wire.TaggedReplies ∧
      ¬ DecodesPayload (fun i => if i % 2 = 0 then .error EINTR else .accepted 1)
        (fun i => if i % 2 = 0 then .error EAGAIN else .received 1) (fun _ => 0) (fun _ => 0)
        (wire.serializeReply ⟨-1⟩) :=
  ⟨wire_taggedReplies, reply_never_decoded wire_taggedReplies bytewise_sends bytewise_receives
    (fun _ => 0) (fun _ => 0) ⟨-1⟩⟩

/-- The reply with the result 5 has two bytes, and the client parses 134545408. -/
theorem reply_five_overread :
    wire.serializeReply ⟨5⟩ = [8, 5] ∧ getPayloadSize (store (fun _ => 0) 0 [8, 5]) = 134545408 ∧
      ¬ DecodesPayload (fun i => if i % 2 = 0 then .error EINTR else .accepted 1)
        (fun i => if i % 2 = 0 then .error EAGAIN else .received 1) (fun _ => 0) (fun _ => 0)
        (wire.serializeReply ⟨5⟩) := by
  have hreply : wire.serializeReply ⟨5⟩ = [8, 5] := by
    rw [serializeReply_eq, WireFormat.Varint.encode_of_lt (by decide)]
    rfl
  refine ⟨hreply, by decide, ?_⟩
  rw [hreply, decodes_iff_sizeField bytewise_sends bytewise_receives _ _ (by decide)]
  decide

end SysProg.Sockets
