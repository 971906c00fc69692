import Mathlib.Tactic
import SysProg.Lib.Lts
import SysProg.Sockets.Message

/-!
# Clients and server of `task6-sockets`

`T` client threads, each with one connection, and `N` worker threads of the server. A
connection is a FIFO stream of whole payloads; `assign` says which worker serves it. One
step is one access to something threads share: the static counter of `get_operation`, a
stream, or `number`.

* `ClientPc`, `WorkerPc` — the point a thread is at;
* `clientStep`, `receiveStep`, `workStep` — the step of a client, a worker taking the next
  payload of a connection, a worker inside `process_request`;
* `system` — every interleaving of them.

The state also remembers the requests made and the snapshots taken. No step looks at
those.
-/

namespace SysProg.Sockets

open Lts

/-- A client thread: before request `i`, before the `secure_send` of request `i`, before
the `secure_recv` of the reply, and after it. -/
inductive ClientPc where
  | sending (i : ℕ)
  | holding (i : ℕ) (buffer : List UInt8)
  | waiting
  | done (buffer : List UInt8)
deriving DecidableEq, Repr

/-- A worker thread: waiting for input; in `process_request`, at byte `offset` of a
buffer of connection `c` with operations of the current message left; before the
`secure_send` of a reply. -/
inductive WorkerPc (T : ℕ) where
  | idle
  | processing (c : Fin T) (buffer : List UInt8) (offset : ℕ) (ops : List OperationData)
  | replying (c : Fin T) (snapshot : BitVec 64)
deriving DecidableEq, Repr

structure State (T N : ℕ) where
  /-- the static `i` of `get_operation` -/
  counter : BitVec 32
  client : Fin T → ClientPc
  /-- payloads on their way to the server -/
  stream : Fin T → List (List UInt8)
  number : BitVec 64
  worker : Fin N → WorkerPc T
  /-- the payload the server has sent back, with which it closes the connection -/
  reply : Fin T → Option (List UInt8)
  /-- the messages of `get_operation`, latest first -/
  produced : List ClientMsg
  /-- the snapshots of `number`, latest first -/
  snapshots : List (Fin T × BitVec 64)

def init (T N : ℕ) : State T N where
  counter := 0
  client _ := .sending 0
  stream _ := []
  number := 0
  worker _ := .idle
  reply _ := none
  produced := []
  snapshots := []

/-- The thread or connection that moves. -/
inductive Label (T N : ℕ) where
  | client (c : Fin T)
  | receive (c : Fin T)
  | work (w : Fin N)
deriving DecidableEq, Repr

variable {T N : ℕ}

namespace State

variable (s : State T N)

@[simps -fullyApplied]
def setClient (c : Fin T) (pc : ClientPc) : State T N :=
  { s with client := Function.update s.client c pc }

@[simps -fullyApplied]
def setWorker (w : Fin N) (pc : WorkerPc T) : State T N :=
  { s with worker := Function.update s.worker w pc }

@[simps -fullyApplied]
def setStream (c : Fin T) (payloads : List (List UInt8)) : State T N :=
  { s with stream := Function.update s.stream c payloads }

/-- `secure_send` of a client. -/
def secureSend (c : Fin T) (payload : List UInt8) : State T N :=
  s.setStream c (s.stream c ++ [payload])

end State

variable (P : Protobuf) (R : ℕ) (assign : Fin T → Fin N)

/-- The next step of `client()`: `R` requests, the termination message, the reply. -/
def clientStep (c : Fin T) (s : State T N) : Option (State T N) :=
  match s.client c with
  | .sending i =>
    if i < R then
      let msg := getOperation s.counter
      some { s.setClient c (.holding i (P.serializeToArray msg)) with
        counter := s.counter + 1
        produced := msg :: s.produced }
    else
      some ((s.secureSend c (P.serializeToArray terminationMsg)).setClient c .waiting)
  | .holding i buffer => some ((s.secureSend c buffer).setClient c (.sending (i + 1)))
  | .waiting => (s.reply c).map fun buffer => s.setClient c (.done buffer)
  | .done _ => none

/-- The worker of an open connection finds it readable and calls `secure_recv`. -/
def receiveStep (c : Fin T) (s : State T N) : Option (State T N) :=
  match s.worker (assign c), s.stream c, s.reply c with
  | .idle, buffer :: payloads, none =>
    some ((s.setStream c payloads).setWorker (assign c) (.processing c buffer 0 []))
  | _, _, _ => none

/-- The next step of `process_request`. -/
def workStep (w : Fin N) (s : State T N) : Option (State T N) :=
  match s.worker w with
  | .idle => none
  | .processing c buffer offset [] =>
    if offset < buffer.length then
      -- a buffer that does not parse ends the server: no step follows
      (P.parseFromArray (buffer.drop offset)).map fun msg =>
        s.setWorker w (.processing c buffer (offset + P.byteSizeLong msg) msg.ops)
    else
      some (s.setWorker w .idle)
  | .processing c buffer offset (op :: ops) =>
    match op.type with
    | .add =>
      some { s.setWorker w (.processing c buffer offset ops) with
        number := s.number + op.arg.signExtend 64 }
    | .sub =>
      some { s.setWorker w (.processing c buffer offset ops) with
        number := s.number - op.arg.signExtend 64 }
    | .termination =>
      some { s.setWorker w (.replying c s.number) with
        snapshots := (c, s.number) :: s.snapshots }
    | .randomData => some (s.setWorker w (.processing c buffer offset ops))
  | .replying c snapshot =>
    -- `static_cast<int32_t>(snapshot)`
    some { s.setWorker w .idle with
      reply := Function.update s.reply c (some (P.serializeReply ⟨snapshot.setWidth 32⟩)) }

def step : Label T N → State T N → Option (State T N)
  | .client c, s => clientStep P R c s
  | .receive c, s => receiveStep assign c s
  | .work w, s => workStep P w s

/-- All threads together, in every interleaving. -/
def system : System (State T N) (Label T N) where
  Init s := s = init T N
  Next l s s' := step P R assign l s = some s'

/-- All TERMINATION operations have been processed: every connection has its reply. -/
def Completed (s : State T N) : Prop :=
  ∀ c, s.reply c ≠ none

/-- The number that the reply on connection `c` carries. -/
def replied (s : State T N) (c : Fin T) : Option ℤ :=
  ((s.reply c).bind P.parseReply).map fun msg => msg.result.toInt

end SysProg.Sockets
