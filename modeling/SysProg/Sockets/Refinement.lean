import Mathlib.Data.BitVec
import SysProg.Lib.Pipeline
import SysProg.Sockets.Server

/-!
# The server refines a sink of operations

The server with its clients refines a sink that applies the operations of each
connection in order: what a client holds, what is in its stream and what its worker still
has to do make one line.

* `Moves` — what a step can do, `step_moves`;
* `Inv` — buffers hold serialized messages, and how many requests were made;
* `line`, `Refines` — the operations of a connection that are not applied yet, and the
  relation to a state of `Pipeline.system`;
* `reachable_refines` — every reachable state is related to one the sink reaches.
-/

namespace SysProg.Sockets

open Lts

variable {T N offset i : ℕ} (P : Protobuf) (R : ℕ) (assign : Fin T → Fin N) {c : Fin T}
  {buffer : List UInt8} {ops : List OperationData} {w : Fin N} {payloads : List (List UInt8)}
  {pc : WorkerPc T} {op : OperationData}

/-! ## What a step can do -/

/-- The steps of all threads; the three kinds of operations that do not end a connection
are one case. -/
inductive Moves (s : State T N) : State T N → Prop where
  | request (c : Fin T) (i : ℕ) (hpc : s.client c = .sending i) (hi : i < R) :
      Moves s { s.setClient c (.holding i (P.serializeToArray (getOperation s.counter))) with
        counter := s.counter + 1
        produced := getOperation s.counter :: s.produced }
  | terminate (c : Fin T) (i : ℕ) (hpc : s.client c = .sending i) (hi : ¬ i < R) :
      Moves s ((s.secureSend c (P.serializeToArray terminationMsg)).setClient c .waiting)
  | send (c : Fin T) (i : ℕ) (buffer : List UInt8) (hpc : s.client c = .holding i buffer) :
      Moves s ((s.secureSend c buffer).setClient c (.sending (i + 1)))
  | done (c : Fin T) (buffer : List UInt8) (hpc : s.client c = .waiting) :
      Moves s (s.setClient c (.done buffer))
  | receive (c : Fin T) (buffer : List UInt8) (payloads : List (List UInt8))
      (hpc : s.worker (assign c) = .idle) (hstream : s.stream c = buffer :: payloads) :
      Moves s ((s.setStream c payloads).setWorker (assign c) (.processing c buffer 0 []))
  | parse (w : Fin N) (c : Fin T) (buffer : List UInt8) (offset : ℕ) (msg : ClientMsg)
      (hpc : s.worker w = .processing c buffer offset []) (hlt : offset < buffer.length)
      (hmsg : P.parseFromArray (buffer.drop offset) = some msg) :
      Moves s (s.setWorker w (.processing c buffer (offset + P.byteSizeLong msg) msg.ops))
  | processed (w : Fin N) (c : Fin T) (buffer : List UInt8) (offset : ℕ)
      (hpc : s.worker w = .processing c buffer offset []) (hge : ¬ offset < buffer.length) :
      Moves s (s.setWorker w .idle)
  | operate (w : Fin N) (c : Fin T) (buffer : List UInt8) (offset : ℕ) (op : OperationData)
      (ops : List OperationData) (hpc : s.worker w = .processing c buffer offset (op :: ops))
      (hop : op.type ≠ .termination) :
      Moves s { s.setWorker w (.processing c buffer offset ops) with
        number := s.number + BitVec.ofInt 64 op.amount }
  | snapshot (w : Fin N) (c : Fin T) (buffer : List UInt8) (offset : ℕ) (op : OperationData)
      (ops : List OperationData) (hpc : s.worker w = .processing c buffer offset (op :: ops))
      (hop : op.type = .termination) :
      Moves s { s.setWorker w (.replying c s.number) with
        snapshots := (c, s.number) :: s.snapshots }
  | reply (w : Fin N) (c : Fin T) (snapshot : BitVec 64)
      (hpc : s.worker w = .replying c snapshot) :
      Moves s { s.setWorker w .idle with
        reply := Function.update s.reply c (some (P.serializeReply ⟨snapshot.setWidth 32⟩)) }

variable {P R assign} {s s' : State T N}

theorem clientStep_moves (h : clientStep P R c s = some s') :
    Moves P R assign s s' := by
  unfold clientStep at h
  split at h
  · rename_i i hpc
    split at h <;> rename_i hi <;> injection h with h <;> subst h
    · exact .request c i hpc hi
    · exact .terminate c i hpc hi
  · rename_i i buffer hpc
    injection h with h
    subst h
    exact .send c i buffer hpc
  · rename_i hpc
    rcases Option.map_eq_some_iff.mp h with ⟨buffer, _, rfl⟩
    exact .done c buffer hpc
  · exact absurd h (by simp)

theorem receiveStep_moves (h : receiveStep assign c s = some s') :
    Moves P R assign s s' := by
  unfold receiveStep at h
  split at h
  · rename_i buffer payloads hpc hstream _
    injection h with h
    subst h
    exact .receive c buffer payloads hpc hstream
  · exact absurd h (by simp)

/-- An operation changes `number` by its amount. -/
theorem operate_moves {number : BitVec 64}
    (hpc : s.worker w = .processing c buffer offset (op :: ops))
    (hop : op.type ≠ .termination) (hnumber : number = s.number + BitVec.ofInt 64 op.amount) :
    Moves P R assign s
      { s.setWorker w (.processing c buffer offset ops) with number := number } := by
  rw [hnumber]
  exact .operate w c buffer offset op ops hpc hop

theorem workStep_moves (h : workStep P w s = some s') :
    Moves P R assign s s' := by
  unfold workStep at h
  split at h
  · exact absurd h (by simp)
  · rename_i c buffer offset hpc
    split at h
    · rename_i hlt
      rcases Option.map_eq_some_iff.mp h with ⟨msg, hmsg, rfl⟩
      exact .parse w c buffer offset msg hpc hlt hmsg
    · rename_i hge
      injection h with h
      subst h
      exact .processed w c buffer offset hpc hge
  · -- the types `ADD`, `SUB`, `TERMINATION` and `RANDOM_DATA`
    rename_i c buffer offset op ops hpc
    split at h <;> rename_i htype <;> injection h with h <;> subst h
    · refine operate_moves hpc (by simp [htype]) ?_
      simp only [OperationData.amount, htype]
      rfl
    · refine operate_moves hpc (by simp [htype]) ?_
      simp only [OperationData.amount, htype]
      rw [BitVec.ofInt_neg, ← BitVec.sub_eq_add_neg]
      rfl
    · exact .snapshot w c buffer offset op ops hpc htype
    · refine operate_moves hpc (by simp [htype]) ?_
      simp only [OperationData.amount, htype]
      exact (BitVec.add_zero s.number).symm
  · rename_i c snapshot hpc
    injection h with h
    subst h
    exact .reply w c snapshot hpc

theorem step_moves {l : Label T N} (h : step P R assign l s = some s') :
    Moves P R assign s s' := by
  cases l with
  | client => exact clientStep_moves h
  | receive => exact receiveStep_moves h
  | work => exact workStep_moves h

/-! ## Buffers and counts -/

/-- The requests that a client has made. -/
def ClientPc.fetched (R : ℕ) : ClientPc → ℕ
  | .sending i => i
  | .holding i _ => i + 1
  | .waiting | .done _ => R

/-- The client has sent its termination message. -/
def ClientPc.terminated : ClientPc → Bool
  | .sending _ | .holding _ _ => false
  | .waiting | .done _ => true

/-- A client makes at most `R` requests and holds serialized messages. -/
def ClientPc.Ok (P : Protobuf) (R : ℕ) : ClientPc → Prop
  | .sending i => i ≤ R
  | .holding i buffer => i < R ∧ ∃ msg, buffer = P.serializeToArray msg
  | .waiting | .done _ => True

/-- A worker serves its own connections. Its buffer is a serialized message that is
parsed as a whole, and a reply is made from a snapshot of that connection. -/
def WorkerOk (P : Protobuf) (assign : Fin T → Fin N) (snapshots : List (Fin T × BitVec 64))
    (w : Fin N) : WorkerPc T → Prop
  | .idle => True
  | .processing c buffer offset ops => assign c = w ∧
      (offset = 0 ∧ ops = [] ∧ (∃ msg, buffer = P.serializeToArray msg) ∨
        offset = buffer.length)
  | .replying c v => assign c = w ∧ (c, v) ∈ snapshots

structure Inv (P : Protobuf) (R : ℕ) (assign : Fin T → Fin N) (s : State T N) : Prop where
  produced : s.produced = requests s.produced.length
  counter : s.counter = BitVec.ofNat 32 s.produced.length
  count : s.produced.length = ∑ c, (s.client c).fetched R
  client : ∀ c, (s.client c).Ok P R
  stream : ∀ c, ∀ b ∈ s.stream c, ∃ msg, b = P.serializeToArray msg
  worker : ∀ w, WorkerOk P assign s.snapshots w (s.worker w)
  replies : ∀ c b, s.reply c = some b →
    ∃ v : BitVec 64, (c, v) ∈ s.snapshots ∧ b = P.serializeReply ⟨v.setWidth 32⟩

theorem WorkerOk.mono {snapshots : List (Fin T × BitVec 64)}
    (x : Fin T × BitVec 64) (h : WorkerOk P assign snapshots w pc) :
    WorkerOk P assign (x :: snapshots) w pc := by
  cases pc with
  | idle => trivial
  | processing => exact h
  | replying => exact ⟨h.1, List.mem_cons_of_mem _ h.2⟩

theorem fetched_setClient (c : Fin T) (pc : ClientPc) :
    ∑ c', ((s.setClient c pc).client c').fetched R + (s.client c).fetched R =
      ∑ c', (s.client c').fetched R + pc.fetched R := by
  have h := Pipeline.sum_update (fun c' => (s.client c').fetched R) c (pc.fetched R)
  have hcomp : (fun c' => ((s.setClient c pc).client c').fetched R) =
      Function.update (fun c' => (s.client c').fetched R) c (pc.fetched R) := by
    funext c'
    exact Function.apply_update (fun _ (x : ClientPc) => x.fetched R) s.client c pc c'
  rw [hcomp]
  exact h

namespace Inv

/-- A client at another point of its program, with the same number of requests made. -/
theorem setClient (hinv : Inv P R assign s) {pc : ClientPc} (hok : pc.Ok P R)
    (hfetched : pc.fetched R = (s.client c).fetched R) : Inv P R assign (s.setClient c pc) := by
  refine ⟨hinv.produced, hinv.counter, ?_, ?_, hinv.stream, hinv.worker, hinv.replies⟩
  · have hsum := fetched_setClient (R := R) (s := s) c pc
    have hcount := hinv.count
    rw [State.setClient_produced]
    omega
  · exact (Function.forall_update_iff s.client fun _ pc => pc.Ok P R).mpr
      ⟨hok, fun c' _ => hinv.client c'⟩

theorem setWorker (hinv : Inv P R assign s)
    (hok : WorkerOk P assign s.snapshots w pc) : Inv P R assign (s.setWorker w pc) := by
  refine ⟨hinv.produced, hinv.counter, hinv.count, hinv.client, hinv.stream, ?_, hinv.replies⟩
  exact (Function.forall_update_iff _ (WorkerOk P assign s.snapshots)).mpr
    ⟨hok, fun w' _ => hinv.worker w'⟩

theorem setStream (hinv : Inv P R assign s)
    (hok : ∀ b ∈ payloads, ∃ msg, b = P.serializeToArray msg) :
    Inv P R assign (s.setStream c payloads) := by
  refine ⟨hinv.produced, hinv.counter, hinv.count, hinv.client, ?_, hinv.worker, hinv.replies⟩
  exact (Function.forall_update_iff _ fun _ bs => ∀ b ∈ bs, ∃ msg, b = P.serializeToArray msg).mpr
    ⟨hok, fun c' _ => hinv.stream c'⟩

theorem secureSend (hinv : Inv P R assign s) (c : Fin T) {b : List UInt8}
    (hok : ∃ msg, b = P.serializeToArray msg) : Inv P R assign (s.secureSend c b) := by
  refine hinv.setStream fun b' hb' => ?_
  rcases List.mem_append.mp hb' with hold | hnew
  · exact hinv.stream c b' hold
  · rw [List.mem_singleton.mp hnew]
    exact hok

/-- One more call of `get_operation`. -/
theorem request (hinv : Inv P R assign s) {c : Fin T} {i : ℕ} (hpc : s.client c = .sending i)
    (hi : i < R) : Inv P R assign
      { s.setClient c (.holding i (P.serializeToArray (getOperation s.counter))) with
        counter := s.counter + 1
        produced := getOperation s.counter :: s.produced } := by
  refine ⟨?_, ?_, ?_, ?_, hinv.stream, hinv.worker, hinv.replies⟩
  · show getOperation s.counter :: s.produced = requests (s.produced.length + 1)
    rw [requests, hinv.counter, ← hinv.produced]
  · show s.counter + 1 = BitVec.ofNat 32 (s.produced.length + 1)
    rw [hinv.counter, BitVec.ofNat_add]
    rfl
  · have hsum := fetched_setClient (R := R) (s := s) c
      (.holding i (P.serializeToArray (getOperation s.counter)))
    have hcount := hinv.count
    have hbefore : (s.client c).fetched R = i := by rw [hpc]; rfl
    have hafter : (ClientPc.holding i (P.serializeToArray (getOperation s.counter))).fetched R =
        i + 1 := rfl
    show s.produced.length + 1 = ∑ c', ((s.setClient c
      (.holding i (P.serializeToArray (getOperation s.counter)))).client c').fetched R
    omega
  · exact (Function.forall_update_iff s.client fun _ pc => pc.Ok P R).mpr
      ⟨⟨hi, _, rfl⟩, fun c' _ => hinv.client c'⟩

/-- A worker has read `number` for its reply. -/
theorem snapshot (hinv : Inv P R assign s) {w : Fin N} {c : Fin T} (hassign : assign c = w) :
    Inv P R assign { s.setWorker w (.replying c s.number) with
      snapshots := (c, s.number) :: s.snapshots } := by
  refine ⟨hinv.produced, hinv.counter, hinv.count, hinv.client, hinv.stream, ?_, ?_⟩
  · exact (Function.forall_update_iff _ (WorkerOk P assign ((c, s.number) :: s.snapshots))).mpr
      ⟨⟨hassign, List.mem_cons_self⟩, fun w' _ => (hinv.worker w').mono _⟩
  · intro c' b hb
    rcases hinv.replies c' b hb with ⟨v, hv, hb⟩
    exact ⟨v, List.mem_cons_of_mem _ hv, hb⟩

/-- It sends the lower half of what it has read. -/
theorem reply (hinv : Inv P R assign s) {w : Fin N} {c : Fin T} {snapshot : BitVec 64}
    (hread : (c, snapshot) ∈ s.snapshots) :
    Inv P R assign { s.setWorker w .idle with
      reply := Function.update s.reply c (some (P.serializeReply ⟨snapshot.setWidth 32⟩)) } := by
  have h : Inv P R assign (s.setWorker w .idle) := hinv.setWorker trivial
  refine ⟨h.produced, h.counter, h.count, h.client, h.stream, h.worker, ?_⟩
  refine (Function.forall_update_iff _ fun c' o => ∀ b, o = some b →
    ∃ v : BitVec 64, (c', v) ∈ s.snapshots ∧ b = P.serializeReply ⟨v.setWidth 32⟩).mpr
      ⟨fun b hb => ?_, fun c' _ => hinv.replies c'⟩
  exact ⟨snapshot, hread, (Option.some.inj hb).symm⟩

end Inv

theorem init_inv : Inv P R assign (init T N) := by
  refine ⟨rfl, rfl, ?_, ?_, ?_, ?_, ?_⟩
  · simp [init, ClientPc.fetched]
  · intro c
    exact Nat.zero_le R
  · intro c b hb
    simp [init] at hb
  · intro w
    trivial
  · intro c b hb
    simp [init] at hb

theorem moves_inv (hP : P.Lawful) (hinv : Inv P R assign s) (h : Moves P R assign s s') :
    Inv P R assign s' := by
  cases h with
  | request c i hpc hi => exact hinv.request hpc hi
  | terminate c i hpc hi =>
    have hle : (s.client c).Ok P R := hinv.client c
    rw [hpc] at hle
    refine (hinv.secureSend c ⟨_, rfl⟩).setClient trivial ?_
    show R = (s.client c).fetched R
    rw [hpc]
    exact Nat.le_antisymm (Nat.le_of_not_lt hi) hle
  | send c i buffer hpc =>
    have hok : (s.client c).Ok P R := hinv.client c
    rw [hpc] at hok
    refine (hinv.secureSend c hok.2).setClient hok.1 ?_
    show i + 1 = (s.client c).fetched R
    rw [hpc]
    rfl
  | done c buffer hpc =>
    refine hinv.setClient trivial ?_
    rw [hpc]
    rfl
  | receive c buffer payloads hpc hstream =>
    have hmem : ∀ b ∈ buffer :: payloads, ∃ msg, b = P.serializeToArray msg := by
      rw [← hstream]
      exact hinv.stream c
    refine (hinv.setStream fun b hb => hmem b (List.mem_cons_of_mem _ hb)).setWorker ?_
    exact ⟨rfl, .inl ⟨rfl, rfl, hmem buffer List.mem_cons_self⟩⟩
  | parse w c buffer offset msg hpc hlt hmsg =>
    have hok := hinv.worker w
    rw [hpc] at hok
    obtain ⟨hassign, ⟨hzero, _, msg', hmsg'⟩ | hend⟩ := hok
    · -- the whole buffer is one message
      refine hinv.setWorker ⟨hassign, .inr ?_⟩
      rw [hzero, List.drop_zero, hmsg', hP.parse_serialize] at hmsg
      injection hmsg with hmsg
      rw [hzero, Nat.zero_add, hP.byteSize, ← hmsg, ← hmsg']
    · exact absurd hend (Nat.ne_of_lt hlt)
  | processed => exact hinv.setWorker trivial
  | operate w c buffer offset op ops hpc hop =>
    have hok := hinv.worker w
    rw [hpc] at hok
    obtain ⟨hassign, ⟨_, hnil, _⟩ | hend⟩ := hok
    · exact absurd hnil (List.cons_ne_nil _ _)
    · have h : Inv P R assign (s.setWorker w (.processing c buffer offset ops)) :=
        hinv.setWorker ⟨hassign, .inr hend⟩
      exact ⟨h.produced, h.counter, h.count, h.client, h.stream, h.worker, h.replies⟩
  | snapshot w c buffer offset op ops hpc hop =>
    have hok := hinv.worker w
    rw [hpc] at hok
    exact hinv.snapshot hok.1
  | reply w c snapshot hpc =>
    have hok := hinv.worker w
    rw [hpc] at hok
    exact hinv.reply hok.2

/-! ## Lines of operations -/

/-- The operations of a payload. -/
def opsOf (P : Protobuf) (buffer : List UInt8) : List OperationData :=
  ((P.parseFromArray buffer).map ClientMsg.ops).getD []

/-- What a worker still has to do for connection `c` in its current buffer. -/
def WorkerPc.opsFor (P : Protobuf) (c : Fin T) : WorkerPc T → List OperationData
  | .processing c' buffer offset ops =>
    if c' = c then
      ops ++ if offset < buffer.length then opsOf P (buffer.drop offset) else []
    else []
  | .idle | .replying _ _ => []

/-- The operations of a request that is not sent yet. -/
def ClientPc.held (P : Protobuf) : ClientPc → List OperationData
  | .holding _ buffer => opsOf P buffer
  | .sending _ | .waiting | .done _ => []

/-- The operations of connection `c` that are not applied yet, in order. -/
def line (P : Protobuf) (assign : Fin T → Fin N) (s : State T N) (c : Fin T) :
    List OperationData :=
  (s.worker (assign c)).opsFor P c ++ ((s.stream c).flatMap (opsOf P) ++ (s.client c).held P)

/-- What an operation adds to `number`. -/
def OperationData.delta (op : OperationData) : BitVec 64 :=
  BitVec.ofInt 64 op.amount

/-- The sink that applies the operations of `T` connections. -/
abbrev Sink (T : ℕ) := Pipeline.State (Fin T) OperationData (BitVec 64)

/-- The termination message of a connection stands at the end of its line. -/
def closing (a : Sink T) (c : Fin T) : List OperationData :=
  if a.closed c = true ∧ ¬ a.Finished c then [terminationOp] else []

structure Refines (P : Protobuf) (assign : Fin T → Fin N) (s : State T N) (a : Sink T) :
    Prop where
  number : s.number = a.total
  snapshots : s.snapshots = a.closings
  made : BitVec.ofInt 64 (total s.produced) = a.made
  closed : ∀ c, (s.client c).terminated = a.closed c
  line : ∀ c, line P assign s c = a.line c ++ closing a c
  request : ∀ c, ∀ op ∈ a.line c, op.type ≠ .termination

theorem opsOf_serialize (hP : P.Lawful) (msg : ClientMsg) :
    opsOf P (P.serializeToArray msg) = msg.ops := by
  unfold opsOf
  rw [hP.parse_serialize]
  rfl

/-- An empty payload has no operations, so the loop of `process_request` may skip it. -/
theorem opsOf_nil (hP : P.Lawful) : opsOf P [] = [] := by
  unfold opsOf
  rw [hP.parse_nil]
  rfl

theorem sum_delta (ops : List OperationData) :
    Pipeline.sum OperationData.delta ops =
      BitVec.ofInt 64 (ops.map OperationData.amount).sum := by
  induction ops with
  | nil => rfl
  | cons op ops ih =>
    rw [List.map_cons, List.sum_cons, BitVec.ofInt_add, ← ih]
    rfl

/-- Another program point of worker `w` leaves the line of `c` alone when it leaves the
same to do for `c`. -/
theorem opsFor_setWorker (h : assign c = w → pc.opsFor P c = (s.worker w).opsFor P c) :
    (Function.update s.worker w pc (assign c)).opsFor P c =
      (s.worker (assign c)).opsFor P c := by
  by_cases hw : assign c = w
  · simp [hw, h]
  · simp [hw]

/-- The other connections do not see what a client does. -/
theorem line_of_ne {c c' : Fin T} (hworker : s'.worker = s.worker) (hne : c' ≠ c) {pc : ClientPc}
    (hstream : s'.stream = Function.update s.stream c payloads)
    (hclient : s'.client = Function.update s.client c pc) :
    line P assign s' c' = line P assign s c' := by
  unfold line
  rw [hworker, hstream, hclient, Function.update_of_ne hne, Function.update_of_ne hne]

/-- A client at another point, on the same side of its termination message. -/
theorem terminated_setClient {pc : ClientPc}
    (h : pc.terminated = (s.client c).terminated) (c' : Fin T) :
    ((s.setClient c pc).client c').terminated = (s.client c').terminated := by
  by_cases heq : c' = c
  · simp [heq, h]
  · simp [heq]

/-- Steps that only move operations along their lines. -/
theorem Refines.stutter {a : Sink T} (href : Refines P assign s a) (hnumber : s'.number = s.number)
    (hsnapshots : s'.snapshots = s.snapshots) (hproduced : s'.produced = s.produced)
    (hterminated : ∀ c, (s'.client c).terminated = (s.client c).terminated)
    (hline : ∀ c, Sockets.line P assign s' c = Sockets.line P assign s c) :
    Refines P assign s' a where
  number := hnumber.trans href.number
  snapshots := hsnapshots.trans href.snapshots
  made := by rw [hproduced]; exact href.made
  closed c := (hterminated c).trans (href.closed c)
  line c := (hline c).trans (href.line c)
  request := href.request

/-! ## Steps along the lines -/

theorem line_send (hpc : s.client c = .holding i buffer) (c' : Fin T) :
    line P assign ((s.secureSend c buffer).setClient c (.sending (i + 1))) c' =
      line P assign s c' := by
  by_cases heq : c' = c
  · subst heq
    simp [line, State.secureSend, hpc, ClientPc.held]
  · exact line_of_ne rfl heq rfl rfl

theorem line_receive (hP : P.Lawful) (hpc : s.worker (assign c) = .idle)
    (hstream : s.stream c = buffer :: payloads) (c' : Fin T) :
    line P assign ((s.setStream c payloads).setWorker (assign c) (.processing c buffer 0 [])) c' =
      line P assign s c' := by
  by_cases heq : c' = c
  · subst heq
    -- the head of the stream is now the buffer of the worker
    have hbuffer : (WorkerPc.processing c' buffer 0 []).opsFor P c' = opsOf P buffer := by
      by_cases hlen : 0 < buffer.length
      · simp [WorkerPc.opsFor, hlen]
      · have hnil : buffer = [] := List.length_eq_zero_iff.mp (Nat.eq_zero_of_not_pos hlen)
        simp [WorkerPc.opsFor, hnil, opsOf_nil hP]
    simp [line, hbuffer, hpc, hstream, show (WorkerPc.idle : WorkerPc T).opsFor P c' = [] from rfl]
  · have hworker : (Function.update s.worker (assign c) (.processing c buffer 0 [])
        (assign c')).opsFor P c' = (s.worker (assign c')).opsFor P c' := by
      refine opsFor_setWorker fun _ => ?_
      rw [hpc]
      simp [WorkerPc.opsFor, Ne.symm heq]
    simp only [line, State.setWorker, State.setStream, Function.update_of_ne heq, hworker]

/-- A worker at a point with the same operations left to do for every connection. -/
theorem line_setWorker (h : ∀ c, pc.opsFor P c = (s.worker w).opsFor P c) (c : Fin T) :
    line P assign (s.setWorker w pc) c = line P assign s c := by
  simp [line, opsFor_setWorker fun _ => h c]

theorem opsFor_parse (hP : P.Lawful) {msg msg' : ClientMsg}
    (hlt : 0 < buffer.length) (hbuffer : buffer = P.serializeToArray msg')
    (hmsg : P.parseFromArray buffer = some msg) (c' : Fin T) :
    (WorkerPc.processing c buffer (P.byteSizeLong msg) msg.ops).opsFor P c' =
      (WorkerPc.processing c buffer 0 []).opsFor P c' := by
  have heq : msg' = msg := by
    rw [hbuffer, hP.parse_serialize] at hmsg
    injection hmsg
  have hend : ¬ P.byteSizeLong msg < buffer.length := by
    rw [hP.byteSize, hbuffer, heq]
    exact Nat.lt_irrefl _
  have hops : opsOf P buffer = msg.ops := by
    rw [hbuffer, opsOf_serialize hP, heq]
  simp only [WorkerPc.opsFor, if_neg hend, if_pos hlt, List.drop_zero, hops, List.append_nil,
    List.nil_append]

/-! ## Steps of the sink -/

section

variable {a : Sink T}

/-- The line of `c` after its first operation has been applied, and the other lines. -/
theorem line_operate (hassign : assign c = w)
    (hpc : s.worker w = .processing c buffer offset (op :: ops))
    (hpc' : ∀ c', c' ≠ c → pc.opsFor P c' = []) :
    line P assign s c = op :: ((WorkerPc.processing c buffer offset ops).opsFor P c ++
        ((s.stream c).flatMap (opsOf P) ++ (s.client c).held P)) ∧
      ∀ c', c' ≠ c → line P assign (s.setWorker w pc) c' = line P assign s c' := by
  constructor
  · unfold line
    rw [hassign, hpc]
    simp [WorkerPc.opsFor]
  · intro c' hne
    have hleft : pc.opsFor P c' = (s.worker w).opsFor P c' := by
      rw [hpc, hpc' c' hne]
      simp [WorkerPc.opsFor, Ne.symm hne]
    simp [line, opsFor_setWorker fun _ => hleft]

theorem refines_request (hP : P.Lawful) (hpc : s.client c = .sending i)
    (href : Refines P assign s a) :
    ∃ a', Pipeline.Next OperationData.delta (.make c (getOperation s.counter).ops) a a' ∧
      Refines P assign
        { s.setClient c (.holding i (P.serializeToArray (getOperation s.counter))) with
          counter := s.counter + 1
          produced := getOperation s.counter :: s.produced } a' := by
  have hopen : a.closed c = false := by
    rw [← href.closed c, hpc]
    rfl
  refine ⟨_, ⟨hopen, rfl⟩, href.number, href.snapshots, ?_, ?_, ?_, ?_⟩
  · show BitVec.ofInt 64 (total (getOperation s.counter :: s.produced)) = _
    rw [sum_delta, ← href.made, ← BitVec.ofInt_add, add_comm]
    rfl
  · intro c'
    refine (terminated_setClient ?_ c').trans (href.closed c')
    rw [hpc]
    rfl
  · intro c'
    have hline := href.line c'
    by_cases heq : c' = c
    · subst heq
      -- the operations of the new request are at the end of an open line
      have hclosing : closing a c' = [] := by simp [closing, hopen]
      rw [hclosing, List.append_nil] at hline
      have hclosing' : ∀ l m, closing { a with line := l, made := m } c' = [] := by
        intro l m
        simp [closing, hopen]
      rw [hclosing', List.append_nil]
      simp only [Function.update_self, ← hline]
      simp [line, hpc, ClientPc.held, opsOf_serialize hP]
    · simp only [Function.update_of_ne heq]
      refine Eq.trans ?_ hline
      simp [line, heq]
  · refine (Function.forall_update_iff a.line fun _ l => ∀ op ∈ l, op.type ≠ .termination).mpr
      ⟨fun op hop => ?_, fun c' _ => href.request c'⟩
    rcases List.mem_append.mp hop with hold | hnew
    · exact href.request c op hold
    · exact getOperation_type _ hnew

theorem refines_terminate (hP : P.Lawful) (hpc : s.client c = .sending i)
    (hsink : Pipeline.Inv OperationData.delta a) (href : Refines P assign s a) :
    ∃ a', Pipeline.Next OperationData.delta (.close c) a a' ∧
      Refines P assign
        ((s.secureSend c (P.serializeToArray terminationMsg)).setClient c .waiting) a' := by
  have hopen : a.closed c = false := by
    rw [← href.closed c, hpc]
    rfl
  have hnot : ¬ a.Finished c := by
    intro hc
    rw [(hsink.finished c hc).1] at hopen
    exact Bool.noConfusion hopen
  refine ⟨_, rfl, href.number, href.snapshots, href.made, ?_, ?_, href.request⟩
  · intro c'
    by_cases heq : c' = c
    · simp [heq, ClientPc.terminated]
    · simpa [heq, State.secureSend] using href.closed c'
  · intro c'
    have hline := href.line c'
    by_cases heq : c' = c
    · subst heq
      -- the mark closes a line that was open
      have hclosing : closing a c' = [] := by simp [closing, hopen]
      have hclosing' : closing { a with closed := Function.update a.closed c' true } c' =
          [terminationOp] := by
        have hnot' : ¬ Pipeline.State.Finished
            { a with closed := Function.update a.closed c' true } c' := hnot
        simp [closing, hnot']
      rw [hclosing, List.append_nil] at hline
      rw [hclosing', ← hline]
      simp [line, State.secureSend, hpc, ClientPc.held, opsOf_serialize hP, terminationMsg]
    · have hsame : line P assign
          ((s.secureSend c (P.serializeToArray terminationMsg)).setClient c .waiting) c' =
          line P assign s c' := line_of_ne rfl heq rfl rfl
      rw [hsame, hline]
      simp only [closing, Function.update_of_ne heq]
      rfl

theorem refines_operate (hassign : assign c = w)
    (hpc : s.worker w = .processing c buffer offset (op :: ops))
    (hop : op.type ≠ .termination) (href : Refines P assign s a) :
    ∃ a', Pipeline.Next OperationData.delta (.apply c) a a' ∧
      Refines P assign { s.setWorker w (.processing c buffer offset ops) with
        number := s.number + BitVec.ofInt 64 op.amount } a' := by
  have hothers : ∀ c', c' ≠ c → (WorkerPc.processing c buffer offset ops).opsFor P c' = [] := by
    intro c' hne
    simp [WorkerPc.opsFor, Ne.symm hne]
  rcases line_operate hassign hpc hothers with ⟨hhead, hsame⟩
  have hline := href.line c
  rw [hhead] at hline
  -- the operation is not a TERMINATION, so it is the head of the line of the sink
  cases hl : a.line c with
  | nil =>
    rw [hl, List.nil_append] at hline
    have hop' : op = terminationOp := by
      unfold closing at hline
      split at hline
      · exact (List.cons.inj hline).1
      · exact absurd hline (List.cons_ne_nil _ _)
    rw [hop'] at hop
    exact absurd rfl hop
  | cons e rest =>
    rw [hl, List.cons_append] at hline
    rcases List.cons.inj hline with ⟨rfl, hrest⟩
    refine ⟨_, ⟨op, rest, hl, rfl⟩, ?_, href.snapshots, href.made, href.closed, ?_, ?_⟩
    · show s.number + BitVec.ofInt 64 op.amount = a.total + op.delta
      rw [href.number]
      rfl
    · intro c'
      by_cases heq : c' = c
      · subst heq
        simp only [Function.update_self]
        refine Eq.trans ?_ hrest
        simp [line, hassign]
      · simp only [Function.update_of_ne heq]
        exact (hsame c' heq).trans (href.line c')
    · refine (Function.forall_update_iff a.line fun _ l => ∀ op ∈ l, op.type ≠ .termination).mpr
        ⟨fun op' hop' => href.request c op' ?_, fun c' _ => href.request c'⟩
      rw [hl]
      exact List.mem_cons_of_mem _ hop'

theorem refines_snapshot (hassign : assign c = w)
    (hpc : s.worker w = .processing c buffer offset (op :: ops))
    (hop : op.type = .termination) (href : Refines P assign s a) :
    ∃ a', Pipeline.Next OperationData.delta (.finish c) a a' ∧
      Refines P assign { s.setWorker w (.replying c s.number) with
        snapshots := (c, s.number) :: s.snapshots } a' := by
  have hothers : ∀ c', c' ≠ c → (WorkerPc.replying c s.number).opsFor P c' = [] :=
    fun _ _ => rfl
  rcases line_operate hassign hpc hothers with ⟨hhead, hsame⟩
  have hline := href.line c
  rw [hhead] at hline
  -- a TERMINATION is never an operation of the sink, so its line is empty
  have hempty : a.line c = [] := by
    cases hl : a.line c with
    | nil => rfl
    | cons =>
      rw [hl, List.cons_append] at hline
      have he : op.type ≠ .termination := by
        refine href.request c op ?_
        rw [hl, (List.cons.inj hline).1]
        exact List.mem_cons_self
      exact absurd hop he
  rw [hempty, List.nil_append] at hline
  -- and the TERMINATION is the mark, after which there is nothing
  obtain ⟨hclosed, hnot, hnothing⟩ : a.closed c = true ∧ ¬ a.Finished c ∧
      (s.stream c).flatMap (opsOf P) ++ (s.client c).held P = [] := by
    unfold closing at hline
    split at hline
    · rename_i hcond
      exact ⟨hcond.1, hcond.2, (List.append_eq_nil_iff.mp (List.cons.inj hline).2).2⟩
    · exact absurd hline (List.cons_ne_nil _ _)
  refine ⟨_, ⟨hclosed, hempty, hnot, rfl⟩, href.number, ?_, href.made, href.closed, ?_,
    href.request⟩
  · show (c, s.number) :: s.snapshots = (c, a.total) :: a.closings
    rw [href.number, href.snapshots]
  · intro c'
    by_cases heq : c' = c
    · subst heq
      have hclosing : closing { a with closings := (c', a.total) :: a.closings } c' = [] := by
        simp [closing, Pipeline.State.Finished]
      rw [hclosing, hempty]
      simpa [line, hassign, WorkerPc.opsFor] using hnothing
    · have hclosing : closing { a with closings := (c, a.total) :: a.closings } c' =
          closing a c' := by
        simp [closing, Pipeline.State.Finished, heq]
      rw [hclosing]
      exact (hsame c' heq).trans (href.line c')

/-- Every step is one step of the sink or none. -/
theorem moves_refines (hP : P.Lawful) (hinv : Inv P R assign s)
    (hsink : Pipeline.Inv OperationData.delta a) (href : Refines P assign s a)
    (h : Moves P R assign s s') :
    ∃ a', (a' = a ∨ ∃ k, Pipeline.Next OperationData.delta k a a') ∧ Refines P assign s' a' := by
  cases h with
  | request c i hpc hi =>
    rcases refines_request hP hpc href with ⟨a', hnext, href'⟩
    exact ⟨a', .inr ⟨_, hnext⟩, href'⟩
  | terminate c i hpc hi =>
    rcases refines_terminate hP hpc hsink href with ⟨a', hnext, href'⟩
    exact ⟨a', .inr ⟨_, hnext⟩, href'⟩
  -- the bytes move along the line: a step of nobody
  | send c i buffer hpc =>
    refine ⟨a, .inl rfl, href.stutter rfl rfl rfl (terminated_setClient ?_) (line_send hpc)⟩
    show false = (s.client c).terminated
    rw [hpc]
    rfl
  | done c buffer hpc =>
    refine ⟨a, .inl rfl, href.stutter rfl rfl rfl (terminated_setClient ?_) ?_⟩
    · rw [hpc]
      rfl
    · intro c'
      by_cases heq : c' = c
      · simp [line, heq, hpc, ClientPc.held]
      · simp [line, heq]
  | receive c buffer payloads hpc hstream =>
    exact ⟨a, .inl rfl, href.stutter rfl rfl rfl (fun _ => rfl) (line_receive hP hpc hstream)⟩
  | parse w c buffer offset msg hpc hlt hmsg =>
    have hok := hinv.worker w
    rw [hpc] at hok
    -- the buffer holds one message, or it has been read to its end
    obtain ⟨_, ⟨rfl, _, msg', hbuffer⟩ | hend⟩ := hok
    · refine ⟨a, .inl rfl, href.stutter rfl rfl rfl (fun _ => rfl) (line_setWorker ?_)⟩
      rw [List.drop_zero] at hmsg
      intro c'
      rw [hpc, Nat.zero_add]
      exact opsFor_parse hP hlt hbuffer hmsg c'
    · exact absurd hend (Nat.ne_of_lt hlt)
  | processed w c buffer offset hpc hge =>
    refine ⟨a, .inl rfl, href.stutter rfl rfl rfl (fun _ => rfl) (line_setWorker ?_)⟩
    intro c'
    rw [hpc]
    simp [WorkerPc.opsFor, hge]
  | operate w c buffer offset op ops hpc hop =>
    have hok := hinv.worker w
    rw [hpc] at hok
    rcases refines_operate hok.1 hpc hop href with ⟨a', hnext, href'⟩
    exact ⟨a', .inr ⟨_, hnext⟩, href'⟩
  | snapshot w c buffer offset op ops hpc hop =>
    have hok := hinv.worker w
    rw [hpc] at hok
    rcases refines_snapshot hok.1 hpc hop href with ⟨a', hnext, href'⟩
    exact ⟨a', .inr ⟨_, hnext⟩, href'⟩
  | reply w c snapshot hpc =>
    have hline : ∀ c', line P assign (s.setWorker w .idle) c' = line P assign s c' := by
      refine line_setWorker fun c' => ?_
      rw [hpc]
      rfl
    exact ⟨a, .inl rfl, href.stutter rfl rfl rfl (fun _ => rfl) hline⟩

end

theorem init_refines : Refines P assign (init T N)
    ⟨0, fun _ => [], fun _ => false, 0, []⟩ where
  number := rfl
  snapshots := rfl
  made := rfl
  closed _ := rfl
  line c := by simp [line, init, WorkerPc.opsFor, ClientPc.held, closing]
  request c op hop := by simp at hop

/-- The simulation relation. -/
def Related (P : Protobuf) (R : ℕ) (assign : Fin T → Fin N) (s : State T N) (a : Sink T) :
    Prop :=
  Inv P R assign s ∧ Refines P assign s a

/-- Every reachable state satisfies the invariant and is related to a state that the sink
reaches. -/
theorem reachable_refines (hP : P.Lawful) (hr : Reachable (system P R assign) s) :
    ∃ a, Reachable (Pipeline.system OperationData.delta) a ∧ Related P R assign s a := by
  refine hr.simulation ?_ ?_
  · intro s hinit
    have hs : s = init T N := hinit
    subst hs
    exact ⟨_, rfl, init_inv, init_refines⟩
  · intro l s s' a ha hrel hnext
    have hmoves : Moves P R assign s s' := step_moves hnext
    rcases moves_refines hP hrel.1 (Pipeline.reachable_inv ha) hrel.2 hmoves with
      ⟨a', hmatch, href'⟩
    exact ⟨a', hmatch, moves_inv hP hrel.1 hmoves, href'⟩

end SysProg.Sockets
