import Mathlib.Tactic
import SysProg.Lib.WireFormat

/-!
# Messages of `task6-sockets`

The two protobuf messages, the requests that `get_operation` makes, and what is assumed
of the protobuf library.

* `ClientMsg`, `ServerMsg` — the messages, with the fields the program sets or reads;
* `getOperation`, `terminationMsg` — what clients send;
* `Protobuf` — the library as a parameter, `Protobuf.Lawful` its documented behaviour;
* `wire` — the library's wire format, which is lawful.
-/

namespace SysProg.Sockets

/-- `client_msg::OperationType`. -/
inductive OperationType where
  | add
  | sub
  | termination
  | randomData
deriving DecidableEq, Repr

/-- `client_msg::OperationData`. -/
structure OperationData where
  type : OperationType
  argument : Option (BitVec 32)
  randomData : Option (List UInt8)
deriving DecidableEq, Repr

/-- `client_msg`. -/
structure ClientMsg where
  ops : List OperationData
deriving DecidableEq, Repr

/-- `server_msg`. The server never sets `total_bytes`. -/
structure ServerMsg where
  result : BitVec 32
deriving DecidableEq, Repr

/-- `op.argument()`: an unset argument reads as zero. -/
def OperationData.arg (op : OperationData) : BitVec 32 :=
  op.argument.getD 0

/-- An operation with an argument. -/
def operation (type : OperationType) (argument : BitVec 32) : OperationData :=
  ⟨type, some argument, none⟩

/-- The operation that `send_termination_message` adds to its message. -/
def terminationOp : OperationData :=
  ⟨.termination, none, none⟩

/-- The message of `send_termination_message`. -/
def terminationMsg : ClientMsg :=
  ⟨[terminationOp]⟩

/-- The message that `get_operation` makes when `fetch_add` returns `i`. The remainder
is that of a signed division. -/
def getOperation (i : BitVec 32) : ClientMsg :=
  if i.toInt.tmod 2 = 0 then ⟨[operation .add 2, operation .add 3]⟩
  else ⟨[operation .sub 2]⟩

/-! ## What requests are worth -/

/-- What an operation contributes: ADD arguments count, SUB arguments count negatively. -/
def OperationData.amount (op : OperationData) : ℤ :=
  match op.type with
  | .add => op.arg.toInt
  | .sub => - op.arg.toInt
  | .termination | .randomData => 0

/-- The sum of all ADD arguments minus the sum of all SUB arguments. -/
def ClientMsg.amount (msg : ClientMsg) : ℤ :=
  (msg.ops.map OperationData.amount).sum

def total (msgs : List ClientMsg) : ℤ :=
  (msgs.map ClientMsg.amount).sum

/-- The first `n` messages of `get_operation`, latest first. -/
def requests : ℕ → List ClientMsg
  | 0 => []
  | n + 1 => getOperation (BitVec.ofNat 32 n) :: requests n

theorem requests_length (n : ℕ) : (requests n).length = n := by
  induction n with
  | zero => rfl
  | succ n ih => rw [requests, List.length_cons, ih]

/-- The counter wraps at an even number, so its parity is that of the number of calls. -/
theorem ofNat_tmod_two (n : ℕ) : (BitVec.ofNat 32 n).toInt.tmod 2 = 0 ↔ n % 2 = 0 := by
  rw [← Int.dvd_iff_tmod_eq_zero, BitVec.toInt_eq_toNat_cond, BitVec.toNat_ofNat]
  split <;> omega

theorem getOperation_amount (n : ℕ) :
    (getOperation (BitVec.ofNat 32 n)).amount = if n % 2 = 0 then 5 else -2 := by
  unfold getOperation
  by_cases hn : n % 2 = 0
  · rw [if_pos ((ofNat_tmod_two n).mpr hn), if_pos hn]
    decide
  · rw [if_neg (fun h => hn ((ofNat_tmod_two n).mp h)), if_neg hn]
    decide

/-- Half of the requests, rounded up, add 5; the others subtract 2. -/
theorem total_requests (n : ℕ) :
    total (requests n) = 5 * ((n + 1) / 2 : ℕ) - 2 * (n / 2 : ℕ) := by
  induction n with
  | zero => rfl
  | succ n ih =>
    have hcons : total (requests (n + 1)) =
        (getOperation (BitVec.ofNat 32 n)).amount + total (requests n) := by
      simp [total, requests]
    rw [hcons, ih, getOperation_amount]
    split <;> omega

/-- No operation of a request is a TERMINATION. -/
theorem getOperation_type (i : BitVec 32) {op : OperationData} (h : op ∈ (getOperation i).ops) :
    op.type ≠ .termination := by
  unfold getOperation at h
  split at h
  · have hop : op = operation .add 2 ∨ op = operation .add 3 := by simpa using h
    rcases hop with rfl | rfl <;> decide
  · have hop : op = operation .sub 2 := by simpa using h
    rw [hop]
    decide

/-! ## The protobuf library -/

/-- The functions of the protobuf library that the program calls. -/
structure Protobuf where
  serializeToArray : ClientMsg → List UInt8
  parseFromArray : List UInt8 → Option ClientMsg
  byteSizeLong : ClientMsg → ℕ
  serializeReply : ServerMsg → List UInt8
  parseReply : List UInt8 → Option ServerMsg

/-- What is assumed of the library: parsing undoes serialization, `ByteSizeLong` is the
length of the serialization, and no bytes are the message without fields. -/
structure Protobuf.Lawful (P : Protobuf) : Prop where
  parse_serialize : ∀ msg, P.parseFromArray (P.serializeToArray msg) = some msg
  byteSize : ∀ msg, P.byteSizeLong msg = (P.serializeToArray msg).length
  parse_nil : P.parseFromArray [] = some ⟨[]⟩
  parseReply_serialize : ∀ msg, P.parseReply (P.serializeReply msg) = some msg

/-- What is assumed of the bytes of a reply: the tag of field 1 with a varint (`required int32
result = 1`), and a varint of at most ten bytes. -/
structure Protobuf.TaggedReplies (P : Protobuf) : Prop where
  tag : ∀ msg, (P.serializeReply msg).head? = some 8
  size : ∀ msg, (P.serializeReply msg).length ≤ 11

/-! ## The wire format -/

section Wire

open WireFormat

/-- The numbers of `enum OperationType`. -/
def OperationType.number : OperationType → ℕ
  | .add => 0
  | .sub => 1
  | .termination => 2
  | .randomData => 3

def OperationType.ofNumber : ℕ → Option OperationType
  | 0 => some .add
  | 1 => some .sub
  | 2 => some .termination
  | 3 => some .randomData
  | _ => none

/-- An `int32` is sent as the varint of its sign extension to 64 bits. -/
def encodeInt32 (x : BitVec 32) : ℕ := (x.signExtend 64).toNat

def decodeInt32 (n : ℕ) : BitVec 32 := BitVec.ofNat 32 n

def OperationData.fields (op : OperationData) : List TaggedField :=
  ⟨1, .varint op.type.number⟩ ::
    ((op.argument.map fun x => TaggedField.mk 2 (.varint (encodeInt32 x))).toList ++
      (op.randomData.map fun data => TaggedField.mk 3 (.bytes data)).toList)

/-- The type is required; of a repeated field the last value wins. -/
def OperationData.ofFields (fields : List TaggedField) : Option OperationData := do
  let number ← lastVarint 1 fields
  let type ← OperationType.ofNumber number
  some ⟨type, (lastVarint 2 fields).map decodeInt32, (allBytes 3 fields).getLast?⟩

def ClientMsg.fields (msg : ClientMsg) : List TaggedField :=
  msg.ops.map fun op => ⟨3, .bytes (encodeFields op.fields)⟩

def ClientMsg.ofFields (fields : List TaggedField) : Option ClientMsg := do
  let ops ← (allBytes 3 fields).mapM fun data => (parseFields data).bind OperationData.ofFields
  some ⟨ops⟩

/-- Both messages in the wire format. -/
def wire : Protobuf where
  serializeToArray msg := encodeFields msg.fields
  parseFromArray input := (parseFields input).bind ClientMsg.ofFields
  byteSizeLong msg := (encodeFields msg.fields).length
  serializeReply msg := encodeFields [⟨1, .varint (encodeInt32 msg.result)⟩]
  parseReply input := (parseFields input).bind fun fields =>
    (lastVarint 1 fields).map fun n => ⟨decodeInt32 n⟩

theorem decodeInt32_encodeInt32 (x : BitVec 32) : decodeInt32 (encodeInt32 x) = x := by
  unfold decodeInt32 encodeInt32
  rw [BitVec.ofNat_toNat]
  ext i hi
  rw [BitVec.getElem_setWidth, BitVec.getLsbD_signExtend]
  simp [hi, BitVec.getLsbD_eq_getElem, show i < 64 by omega]

theorem OperationType.ofNumber_number (type : OperationType) :
    OperationType.ofNumber type.number = some type := by
  cases type <;> rfl

theorem OperationData.ofFields_fields (op : OperationData) :
    OperationData.ofFields op.fields = some op := by
  rcases op with ⟨type, argument, data⟩
  cases argument <;> cases data <;>
    simp [OperationData.fields, OperationData.ofFields, lastVarint, allBytes,
      OperationType.ofNumber_number, decodeInt32_encodeInt32]

/-- Reading the operations back, one embedded message each. -/
theorem mapM_ofFields (ops : List OperationData) :
    (ops.map fun op => encodeFields op.fields).mapM
      (fun data => (parseFields data).bind OperationData.ofFields) = some ops := by
  induction ops with
  | nil => rfl
  | cons op ops ih =>
    rw [List.map_cons, List.mapM_cons, parse_encode, Option.bind_some,
      OperationData.ofFields_fields, ih]
    rfl

theorem ClientMsg.ofFields_fields (msg : ClientMsg) :
    ClientMsg.ofFields msg.fields = some msg := by
  have hbytes : allBytes 3 msg.fields = msg.ops.map fun op => encodeFields op.fields := by
    simp [ClientMsg.fields, allBytes, List.filterMap_map]
  unfold ClientMsg.ofFields
  rw [hbytes, mapM_ofFields]
  rfl

theorem wire_lawful : wire.Lawful where
  parse_serialize msg := by
    show (parseFields (encodeFields msg.fields)).bind ClientMsg.ofFields = some msg
    rw [parse_encode, Option.bind_some, ClientMsg.ofFields_fields]
  byteSize _ := rfl
  parse_nil := rfl
  parseReply_serialize msg := by
    show ((parseFields (encodeFields [⟨1, .varint (encodeInt32 msg.result)⟩])).bind
      fun fields => (lastVarint 1 fields).map fun n => ServerMsg.mk (decodeInt32 n)) = some msg
    rw [parse_encode]
    simp [lastVarint, decodeInt32_encodeInt32]

end Wire

end SysProg.Sockets
