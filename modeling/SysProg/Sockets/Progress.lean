import SysProg.Sockets.Server

/-!
# Runs that complete

Whatever the number of clients, requests and workers, the threads can serve the clients
one after the other, each request as soon as it is sent.

* `process_runs` — a worker gets through the operations of a message;
* `request_runs`, `client_runs` — one request, and all of one client;
* `exists_completed` — a reachable state in which every client has its reply.
-/

namespace SysProg.Sockets

open Lts

variable {T N : ℕ} {P : Protobuf} {R : ℕ} {assign : Fin T → Fin N} {s : State T N} {c : Fin T}
  {w : Fin N} {i offset : ℕ} {buffer : List UInt8} {op : OperationData} {ops : List OperationData}

/-- Some run leads to these clients, streams, replies and workers. -/
def Reaches (P : Protobuf) (R : ℕ) (assign : Fin T → Fin N) (client : Fin T → ClientPc)
    (stream : Fin T → List (List UInt8)) (reply : Fin T → Option (List UInt8))
    (worker : Fin N → WorkerPc T) : Prop :=
  ∃ s, Reachable (system P R assign) s ∧ s.client = client ∧ s.stream = stream ∧
    s.reply = reply ∧ s.worker = worker

theorem workStep_operate (hpc : s.worker w = .processing c buffer offset (op :: ops))
    (hop : op.type ≠ .termination) :
    ∃ number, workStep P w s =
      some { s.setWorker w (.processing c buffer offset ops) with number := number } := by
  unfold workStep
  rw [hpc]
  cases htype : op.type with
  | add => exact ⟨s.number + op.arg.signExtend 64, by simp only [htype]⟩
  | sub => exact ⟨s.number - op.arg.signExtend 64, by simp only [htype]⟩
  | termination => exact absurd htype hop
  | randomData => exact ⟨s.number, by simp only [htype]; rfl⟩

/-- A worker with a whole message of requests in hand becomes idle again. -/
theorem process_runs (hr : Reachable (system P R assign) s)
    (hpc : s.worker w = .processing c buffer buffer.length ops)
    (hops : ∀ op ∈ ops, op.type ≠ .termination) :
    Reaches P R assign s.client s.stream s.reply (Function.update s.worker w .idle) := by
  induction ops generalizing s with
  | nil =>
    have hstep : workStep P w s = some (s.setWorker w .idle) := by simp [workStep, hpc]
    exact ⟨_, hr.step (Label.work w) hstep, rfl, rfl, rfl, rfl⟩
  | cons op ops ih =>
    rcases workStep_operate hpc (hops op List.mem_cons_self) with ⟨number, hstep⟩
    have hrest := ih (hr.step (Label.work w) hstep) (Function.update_self _ _ _)
      fun op' hop' => hops op' (List.mem_cons_of_mem _ hop')
    simpa using hrest

/-- The worker of a connection takes a payload from it and parses it. -/
theorem deliver_runs (hP : P.Lawful) {msg : ClientMsg} (hr : Reachable (system P R assign) s)
    (hidle : s.worker (assign c) = .idle) (hstream : s.stream c = [P.serializeToArray msg])
    (hreply : s.reply c = none) (hne : msg.ops ≠ []) :
    Reaches P R assign s.client (Function.update s.stream c []) s.reply
      (Function.update s.worker (assign c)
        (.processing c (P.serializeToArray msg) (P.serializeToArray msg).length msg.ops)) := by
  -- a message with operations has bytes
  have hpos : 0 < (P.serializeToArray msg).length := by
    rw [List.length_pos_iff]
    intro hnil
    have hparse := hP.parse_serialize msg
    rw [hnil, hP.parse_nil] at hparse
    injection hparse with hparse
    exact hne (by rw [← hparse])
  have hreceive : receiveStep assign c s = some ((s.setStream c []).setWorker (assign c)
      (.processing c (P.serializeToArray msg) 0 [])) := by
    simp [receiveStep, hidle, hstream, hreply]
  have hparse : workStep P (assign c) ((s.setStream c []).setWorker (assign c)
      (.processing c (P.serializeToArray msg) 0 [])) =
      some (((s.setStream c []).setWorker (assign c)
        (.processing c (P.serializeToArray msg) 0 [])).setWorker (assign c)
        (.processing c (P.serializeToArray msg) (P.serializeToArray msg).length msg.ops)) := by
    simp [workStep, hpos, hP.parse_serialize, hP.byteSize]
  have hr₁ := hr.step (Label.receive c) hreceive
  exact ⟨_, hr₁.step (Label.work (assign c)) hparse, rfl, rfl, rfl, by simp⟩

/-- A worker at a TERMINATION takes its snapshot and sends it. -/
theorem reply_runs (hr : Reachable (system P R assign) s)
    (hpc : s.worker w = .processing c buffer offset (terminationOp :: ops)) :
    ∃ b, Reaches P R assign s.client s.stream (Function.update s.reply c (some b))
      (Function.update s.worker w .idle) := by
  have hsnapshot : workStep P w s = some { s.setWorker w (.replying c s.number) with
      snapshots := (c, s.number) :: s.snapshots } := by
    simp [workStep, hpc, terminationOp]
  have hreply : workStep P w { s.setWorker w (.replying c s.number) with
      snapshots := (c, s.number) :: s.snapshots } =
      some { (s.setWorker w (.replying c s.number)).setWorker w .idle with
        snapshots := (c, s.number) :: s.snapshots
        reply := Function.update s.reply c
          (some (P.serializeReply ⟨s.number.setWidth 32⟩)) } := by
    simp [workStep, State.setWorker]
  have hr₁ := hr.step (Label.work w) hsnapshot
  exact ⟨_, _, hr₁.step (Label.work w) hreply, rfl, rfl, rfl, by simp⟩

/-- A client sends the request it holds into an empty stream. -/
theorem send_runs (hr : Reachable (system P R assign) s) (hpc : s.client c = .holding i buffer)
    (hstream : s.stream c = []) :
    Reaches P R assign (Function.update s.client c (.sending (i + 1)))
      (Function.update s.stream c [buffer]) s.reply s.worker := by
  have hsend : clientStep P R c s =
      some ((s.secureSend c buffer).setClient c (.sending (i + 1))) := by
    simp [clientStep, hpc]
  exact ⟨_, hr.step (Label.client c) hsend, rfl, by simp [State.secureSend, hstream], rfl, rfl⟩

section Client

variable (hP : P.Lawful) (hr : Reachable (system P R assign) s)
  (hidle : s.worker (assign c) = .idle) (hstream : s.stream c = []) (hreply : s.reply c = none)
include hP hr hidle hstream hreply

/-- One request of a client, from `get_operation` to the end of `process_request`. -/
theorem request_runs (hpc : s.client c = .sending i) (hi : i < R) :
    Reaches P R assign (Function.update s.client c (.sending (i + 1))) s.stream s.reply
      s.worker := by
  have hops : (getOperation s.counter).ops ≠ [] := by
    unfold getOperation
    split <;> simp
  have hrequest : clientStep P R c s = some
      { s.setClient c (.holding i (P.serializeToArray (getOperation s.counter))) with
        counter := s.counter + 1
        produced := getOperation s.counter :: s.produced } := by
    simp [clientStep, hpc, hi]
  -- sent at once, it is the only payload of the stream
  rcases send_runs (hr.step (Label.client c) hrequest) (c := c) (Function.update_self _ _ _) hstream with
    ⟨s₂, hr₂, hclient₂, hstream₂, hreply₂, hworker₂⟩
  rcases deliver_runs hP hr₂ (by simpa [hworker₂] using hidle) (by simp [hstream₂])
    (by simpa [hreply₂] using hreply) hops with ⟨s₃, hr₃, hclient₃, hstream₃, hreply₃, hworker₃⟩
  rcases process_runs hr₃ (by rw [hworker₃, Function.update_self])
    fun op hop => getOperation_type _ hop with ⟨s₄, hr₄, hclient₄, hstream₄, hreply₄, hworker₄⟩
  refine ⟨s₄, hr₄, ?_, ?_, ?_, ?_⟩
  · simp [hclient₄, hclient₃, hclient₂]
  · simp [hstream₄, hstream₃, hstream₂, ← hstream]
  · simp [hreply₄, hreply₃, hreply₂]
  · simp [hworker₄, hworker₃, hworker₂, ← hidle]

theorem requests_run (hpc : s.client c = .sending 0) (n : ℕ) (hn : n ≤ R) :
    Reaches P R assign (Function.update s.client c (.sending n)) s.stream s.reply s.worker := by
  induction n with
  | zero => exact ⟨s, hr, by simp [← hpc], rfl, rfl, rfl⟩
  | succ n ih =>
    rcases ih (Nat.le_of_succ_le hn) with ⟨s₁, hr₁, hclient₁, hstream₁, hreply₁, hworker₁⟩
    have hnext := request_runs hP hr₁ (by rwa [hworker₁]) (by rwa [hstream₁]) (by rwa [hreply₁])
      (by rw [hclient₁, Function.update_self]) hn
    simpa [hclient₁, hstream₁, hreply₁, hworker₁] using hnext

/-- All of one client: its requests, its termination message and the reply to it. -/
theorem client_runs (hpc : s.client c = .sending 0) :
    ∃ b, Reaches P R assign (Function.update s.client c .waiting) s.stream
      (Function.update s.reply c (some b)) s.worker := by
  rcases requests_run hP hr hidle hstream hreply hpc R (Nat.le_refl R) with
    ⟨s₁, hr₁, hclient₁, hstream₁, hreply₁, hworker₁⟩
  have hterminate : clientStep P R c s₁ =
      some ((s₁.secureSend c (P.serializeToArray terminationMsg)).setClient c .waiting) := by
    simp [clientStep, hclient₁]
  have hsent : ((s₁.secureSend c (P.serializeToArray terminationMsg)).setClient c
      .waiting).stream c = [P.serializeToArray terminationMsg] := by
    simp [State.secureSend, hstream₁, hstream]
  rcases deliver_runs hP (hr₁.step (Label.client c) hterminate)
    (by simpa [State.secureSend, hworker₁] using hidle) hsent
    (by simpa [State.secureSend, hreply₁] using hreply) (List.cons_ne_nil _ _) with
    ⟨s₃, hr₃, hclient₃, hstream₃, hreply₃, hworker₃⟩
  -- the worker is at the TERMINATION
  rcases reply_runs hr₃ (by rw [hworker₃, Function.update_self]; rfl) with
    ⟨b, s₄, hr₄, hclient₄, hstream₄, hreply₄, hworker₄⟩
  refine ⟨b, s₄, hr₄, ?_, ?_, ?_, ?_⟩
  · simp [hclient₄, hclient₃, hclient₁, State.secureSend]
  · simp [hstream₄, hstream₃, hstream₁, ← hstream, State.secureSend]
  · simp [hreply₄, hreply₃, hreply₁, State.secureSend]
  · simp [hworker₄, hworker₃, hworker₁, ← hidle, State.secureSend]

end Client

/-- Whatever the numbers of clients, requests and workers, some run completes. -/
theorem exists_completed (hP : P.Lawful) (R : ℕ) (assign : Fin T → Fin N) :
    ∃ s, Reachable (system P R assign) s ∧ Completed s := by
  -- the first `k` clients are served, the others have not started
  have hfirst : ∀ k, k ≤ T → ∃ s, Reachable (system P R assign) s ∧
      (∀ c, s.stream c = []) ∧ (∀ w, s.worker w = .idle) ∧
      (∀ c : Fin T, c < k → s.reply c ≠ none) ∧
      (∀ c : Fin T, k ≤ c → s.client c = .sending 0 ∧ s.reply c = none) := by
    intro k
    induction k with
    | zero =>
      intro _
      refine ⟨init T N, .init rfl, fun _ => rfl, fun _ => rfl, ?_, fun _ _ => ⟨rfl, rfl⟩⟩
      intro c hc
      exact absurd hc (Nat.not_lt_zero _)
    | succ k ih =>
      intro hk
      rcases ih (Nat.le_of_succ_le hk) with ⟨s, hr, hstream, hidle, hserved, hwaiting⟩
      rcases hwaiting ⟨k, hk⟩ (Nat.le_refl k) with ⟨hpc, hreply⟩
      rcases client_runs hP hr (hidle _) (hstream _) hreply hpc with
        ⟨b, s', hr', hclient', hstream', hreply', hworker'⟩
      refine ⟨s', hr', by rwa [hstream'], by rwa [hworker'], ?_, ?_⟩
      · intro c hc
        by_cases heq : c = ⟨k, hk⟩
        · simp [hreply', heq]
        · have hne : c.val ≠ k := fun h => heq (Fin.ext h)
          simpa [hreply', heq] using hserved c (by omega)
      · intro c hc
        have hne : c ≠ ⟨k, hk⟩ := by
          rintro rfl
          exact absurd hc (Nat.not_succ_le_self k)
        simpa [hclient', hreply', hne] using hwaiting c (Nat.le_of_succ_le hc)
  rcases hfirst T (Nat.le_refl T) with ⟨s, hr, _, _, hserved, _⟩
  exact ⟨s, hr, fun c => hserved c c.isLt⟩

end SysProg.Sockets
