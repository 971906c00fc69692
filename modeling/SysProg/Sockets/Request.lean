import SysProg.Lib.Loop
import SysProg.Sockets.Message

/-!
# `process_request` of `task6-sockets/server.cc`

One payload may hold several messages: `process_request` parses all bytes from `offset`
on as a message, then moves `offset` on by the size which that message has when it is
serialized. A parser also accepts encodings longer than that.

* `MessageParser` — what `process_request` uses of the protobuf library;
* `processRequest` — the loop over the payload;
* `Rereads` — how the bytes beyond the size of the message are read again;
* `request_applied_iff` — when every operation of the payload is applied once.
-/

namespace SysProg.Sockets

open Loop

/-! ## Model -/

/-- Parsed messages of a library that may keep more in them than the program reads, such
as unknown fields. No bytes are the message without operations. -/
structure MessageParser (M : Type) where
  parseFromArray : List UInt8 → Option M
  ops : M → List OperationData
  byteSizeLong : M → ℕ
  ops_of_nil : ∀ msg, parseFromArray [] = some msg → ops msg = []

/-- How `process_request` ends: it returns true, it returns false after a reply with a
snapshot of `number`, or it ends the server. -/
inductive RequestResult where
  | processed (number : BitVec 64)
  | terminated (number snapshot : BitVec 64)
  | exited
deriving DecidableEq, Repr

/-- The loop over the operations of a message: `number` after it, and the snapshot if
there was a TERMINATION, after which nothing is looked at. -/
def processOps : List OperationData → BitVec 64 → BitVec 64 × Option (BitVec 64)
  | [], number => (number, none)
  | op :: ops, number =>
    match op.type with
    | .add => processOps ops (number + op.arg.signExtend 64)
    | .sub => processOps ops (number - op.arg.signExtend 64)
    | .termination => (number, some number)
    | .randomData => processOps ops number

/-- The variables of `process_request`. -/
structure RequestLoop where
  offset : ℕ
  number : BitVec 64

variable {M : Type} (parser : MessageParser M)

/-- One round of `process_request`. -/
def requestStep (buffer : List UInt8) (s : RequestLoop) : RequestLoop ⊕ RequestResult :=
  if s.offset < buffer.length then
    match parser.parseFromArray (buffer.drop s.offset) with
    | none => .inr .exited
    | some msg =>
      match processOps (parser.ops msg) s.number with
      | (number, none) => .inl ⟨s.offset + parser.byteSizeLong msg, number⟩
      | (number, some snapshot) => .inr (.terminated number snapshot)
  else .inr (.processed s.number)

/-- `process_request` with a bound on the rounds. -/
def processRequest (fuel : ℕ) (buffer : List UInt8) (number : BitVec 64) :
    Option RequestResult :=
  run (requestStep parser buffer) fuel ⟨0, number⟩

/-! ## Operations -/

/-- No operation of a message is a TERMINATION. -/
def MessageParser.Plain (msg : M) : Prop :=
  ∀ op ∈ parser.ops msg, op.type ≠ .termination

/-- The sum of all ADD arguments minus the sum of all SUB arguments. -/
def MessageParser.amount (msg : M) : ℤ :=
  ((parser.ops msg).map OperationData.amount).sum

theorem processOps_plain (ops : List OperationData) (number : BitVec 64)
    (hops : ∀ op ∈ ops, op.type ≠ .termination) :
    processOps ops number =
      (number + BitVec.ofInt 64 (ops.map OperationData.amount).sum, none) := by
  induction ops generalizing number with
  | nil => simp [processOps]
  | cons op ops ih =>
    have hih := fun number => ih number fun x hx => hops x (List.mem_cons_of_mem op hx)
    -- sign extension is the integer value in 64 bits
    have hsign : op.arg.signExtend 64 = BitVec.ofInt 64 op.arg.toInt := rfl
    rw [List.map_cons, List.sum_cons, BitVec.ofInt_add]
    unfold processOps
    cases htype : op.type with
    | add =>
      have hamount : op.amount = op.arg.toInt := by simp [OperationData.amount, htype]
      simp only [hih, hsign, hamount, BitVec.add_assoc]
    | sub =>
      have hamount : op.amount = -op.arg.toInt := by simp [OperationData.amount, htype]
      simp only [hih, hsign, hamount, BitVec.ofInt_neg, BitVec.sub_eq_add_neg,
        BitVec.add_assoc]
    | termination => exact absurd htype (hops op List.mem_cons_self)
    | randomData =>
      have hamount : op.amount = 0 := by simp [OperationData.amount, htype]
      simp [hih, hamount]

theorem processOps_terminated {ops : List OperationData}
    (hops : ¬ ∀ op ∈ ops, op.type ≠ .termination) (number : BitVec 64) :
    ∃ number' snapshot, processOps ops number = (number', some snapshot) := by
  induction ops generalizing number with
  | nil => simp at hops
  | cons op ops ih =>
    unfold processOps
    cases htype : op.type with
    | termination => exact ⟨number, number, rfl⟩
    | add | sub | randomData =>
      refine ih ?_ _
      simpa [htype] using hops

/-! ## The rounds of the loop -/

/-- The bytes at the end of a payload are messages for the loop, none with a TERMINATION:
each takes as many bytes as its size says, the last one maybe more than there are. The
number is the sum of what they add. -/
inductive Rereads : List UInt8 → ℤ → Prop where
  | nil : Rereads [] 0
  | cons {bytes : List UInt8} {msg : M} {amount : ℤ} (hne : bytes ≠ [])
      (hparse : parser.parseFromArray bytes = some msg) (hplain : parser.Plain msg)
      (hrest : Rereads (bytes.drop (parser.byteSizeLong msg)) amount) :
      Rereads bytes (parser.amount msg + amount)

variable {parser}

theorem requestStep_of_parse {buffer : List UInt8} {s : RequestLoop} {msg : M}
    (hlt : s.offset < buffer.length)
    (hparse : parser.parseFromArray (buffer.drop s.offset) = some msg)
    (hplain : parser.Plain msg) :
    requestStep parser buffer s =
      .inl ⟨s.offset + parser.byteSizeLong msg,
        s.number + BitVec.ofInt 64 (parser.amount msg)⟩ := by
  unfold requestStep
  simp only [if_pos hlt, hparse]
  rw [processOps_plain _ _ hplain]
  rfl

/-- Reading the rest of the payload ends the loop, with what the rest adds. -/
theorem Rereads.run {buffer bytes : List UInt8} {amount : ℤ} (h : Rereads parser bytes amount)
    {s : RequestLoop} (hbytes : bytes = buffer.drop s.offset) :
    ∃ fuel, run (requestStep parser buffer) fuel s =
      some (.processed (s.number + BitVec.ofInt 64 amount)) := by
  induction h generalizing s with
  | nil =>
    have hge : ¬ s.offset < buffer.length :=
      Nat.not_lt.mpr (List.drop_eq_nil_iff.mp hbytes.symm)
    refine ⟨1, run_succ_inr ?_⟩
    unfold requestStep
    rw [if_neg hge]
    simp
  | @cons bytes msg amount hne hparse hplain hrest ih =>
    have hlt : s.offset < buffer.length := by
      rw [hbytes] at hne
      exact Nat.lt_of_not_le fun hle => hne (List.drop_eq_nil_iff.mpr hle)
    have hstep := requestStep_of_parse hlt (hbytes ▸ hparse) hplain
    rcases ih (s := ⟨s.offset + parser.byteSizeLong msg,
        s.number + BitVec.ofInt 64 (parser.amount msg)⟩)
      (by rw [hbytes, List.drop_drop]) with ⟨fuel, hrun⟩
    refine ⟨fuel + 1, ?_⟩
    rw [run_succ_inl hstep, hrun, BitVec.ofInt_add, BitVec.add_assoc]

/-- A loop that returns true has read the rest of the payload. -/
theorem rereads_of_run {buffer : List UInt8} {fuel : ℕ} {s : RequestLoop} {number : BitVec 64}
    (h : run (requestStep parser buffer) fuel s = some (.processed number)) :
    ∃ amount, Rereads parser (buffer.drop s.offset) amount ∧
      number = s.number + BitVec.ofInt 64 amount := by
  induction fuel generalizing s with
  | zero => exact absurd h (by simp [run])
  | succ fuel ih =>
    by_cases hlt : s.offset < buffer.length
    · have hne : buffer.drop s.offset ≠ [] := fun hnil =>
        absurd (List.drop_eq_nil_iff.mp hnil) (Nat.not_le.mpr hlt)
      cases hparse : parser.parseFromArray (buffer.drop s.offset) with
      | none =>
        -- the server ends
        have hstep : requestStep parser buffer s = .inr .exited := by
          simp [requestStep, hlt, hparse]
        rw [run_succ_inr hstep] at h
        exact absurd h (by simp)
      | some msg =>
        by_cases hplain : parser.Plain msg
        · rw [run_succ_inl (requestStep_of_parse hlt hparse hplain)] at h
          rcases ih h with ⟨amount, hrest, hnumber⟩
          rw [← List.drop_drop] at hrest
          refine ⟨_, .cons hne hparse hplain hrest, ?_⟩
          rw [hnumber, BitVec.ofInt_add, BitVec.add_assoc]
        · -- a TERMINATION makes it return false
          rcases processOps_terminated hplain s.number with ⟨number', snapshot, hops⟩
          have hstep : requestStep parser buffer s = .inr (.terminated number' snapshot) := by
            simp [requestStep, hlt, hparse, hops]
          rw [run_succ_inr hstep] at h
          exact absurd h (by simp)
    · have hstep : requestStep parser buffer s = .inr (.processed s.number) := by
        simp [requestStep, hlt]
      rw [run_succ_inr hstep] at h
      have hnumber : s.number = number := by simpa using h
      rw [List.drop_eq_nil_iff.mpr (Nat.le_of_not_lt hlt)]
      exact ⟨0, .nil, by simp [hnumber]⟩

/-! ## Requests -/

theorem ofInt_eq_zero_iff (x : ℤ) : BitVec.ofInt 64 x = 0#64 ↔ (2 ^ 64 : ℤ) ∣ x := by
  rw [← BitVec.toNat_inj, BitVec.toNat_ofInt]
  have hzero : (0#64).toNat = 0 := rfl
  rw [hzero]
  omega

theorem applied_of_rereads {payload : List UInt8} {msg : M} {amount : ℤ}
    (hparse : parser.parseFromArray payload = some msg) (hplain : parser.Plain msg)
    (hrest : Rereads parser (payload.drop (parser.byteSizeLong msg)) amount)
    (hdvd : (2 ^ 64 : ℤ) ∣ amount) (number : BitVec 64) :
    ∃ fuel, processRequest parser fuel payload number =
      some (.processed (number + BitVec.ofInt 64 (parser.amount msg))) := by
  have hzero := (ofInt_eq_zero_iff amount).mpr hdvd
  by_cases hnil : payload = []
  · -- no bytes, no operations
    rw [hnil] at hparse
    have hamount : parser.amount msg = 0 := by
      rw [MessageParser.amount, parser.ops_of_nil msg hparse]
      rfl
    refine ⟨1, run_succ_inr ?_⟩
    simp [requestStep, hnil, hamount]
  · have hreads := Rereads.cons hnil hparse hplain hrest
    rcases hreads.run (s := ⟨0, number⟩) (List.drop_zero).symm with ⟨fuel, hrun⟩
    refine ⟨fuel, ?_⟩
    rw [processRequest, hrun, BitVec.ofInt_add, hzero, BitVec.add_zero]

/-- The operations of a payload are applied once each, and no others: the bytes beyond the
size of its message, if there are any, must read as messages that add nothing. -/
theorem request_applied_iff {payload : List UInt8} {msg : M}
    (hparse : parser.parseFromArray payload = some msg) (hplain : parser.Plain msg)
    (number : BitVec 64) :
    (∃ fuel, processRequest parser fuel payload number =
      some (.processed (number + BitVec.ofInt 64 (parser.amount msg)))) ↔
    ∃ amount, Rereads parser (payload.drop (parser.byteSizeLong msg)) amount ∧
      (2 ^ 64 : ℤ) ∣ amount := by
  constructor
  · rintro ⟨fuel, hrun⟩
    rcases rereads_of_run hrun with ⟨amount, hreads, hnumber⟩
    rw [List.drop_zero] at hreads
    cases hreads with
    | nil =>
      rw [List.drop_nil]
      exact ⟨0, .nil, Int.dvd_zero _⟩
    | @cons _ msg' amount hne hparse' hplain' hrest =>
      -- the first message is the one of the payload, so the others add nothing
      rcases Option.some.inj (hparse.symm.trans hparse') with rfl
      refine ⟨amount, hrest, ?_⟩
      rw [BitVec.ofInt_add, ← BitVec.add_assoc] at hnumber
      rw [← ofInt_eq_zero_iff]
      exact BitVec.self_eq_add_right.mp hnumber
  · rintro ⟨amount, hrest, hdvd⟩
    exact applied_of_rereads hparse hplain hrest hdvd number

/-! ## Lawful libraries -/

/-- A lawful library as a parser. -/
def Protobuf.Lawful.messageParser {P : Protobuf} (hP : P.Lawful) : MessageParser ClientMsg where
  parseFromArray := P.parseFromArray
  ops := ClientMsg.ops
  byteSizeLong := P.byteSizeLong
  ops_of_nil msg h := by
    rw [hP.parse_nil] at h
    rw [← Option.some.inj h]

/-- What a client serializes is applied once: nothing is left over to be read again. -/
theorem serialized_applied {P : Protobuf} (hP : P.Lawful) {msg : ClientMsg}
    (hplain : hP.messageParser.Plain msg) (number : BitVec 64) :
    ∃ fuel, processRequest hP.messageParser fuel (P.serializeToArray msg) number =
      some (.processed (number + BitVec.ofInt 64 msg.amount)) := by
  refine applied_of_rereads (hP.parse_serialize msg) hplain ?_ (Int.dvd_zero _) number
  have hsize : hP.messageParser.byteSizeLong msg = (P.serializeToArray msg).length := hP.byteSize msg
  rw [hsize, List.drop_length]
  exact .nil

/-- The wire format as a parser. -/
def wireParser : MessageParser ClientMsg := wire_lawful.messageParser

/-- An ADD of 5 and a SUB of 5. -/
def cancelling : List UInt8 := [26, 4, 8, 0, 16, 5, 26, 4, 8, 1, 16, 5]

/-- An ADD of 1 with twelve bytes more than it needs, and the two others. -/
def longRequest : List UInt8 :=
  [26, 16, 8, 128, 128, 128, 128, 128, 128, 0, 16, 129, 128, 128, 128, 128, 128, 0] ++ cancelling

/-- The last twelve bytes are left over and read once more, and what they add cancels. -/
theorem request_applied_cancelled :
    wireParser.parseFromArray longRequest =
      some ⟨[operation .add 1, operation .add 5, operation .sub 5]⟩ ∧
    ∃ fuel, processRequest wireParser fuel longRequest 41 = some (.processed 42) := by
  have hparse : wireParser.parseFromArray longRequest =
      some ⟨[operation .add 1, operation .add 5, operation .sub 5]⟩ := by decide +kernel
  have hparse' : wireParser.parseFromArray cancelling =
      some ⟨[operation .add 5, operation .sub 5]⟩ := by decide +kernel
  have hplain : ∀ op ∈ [operation .add 1, operation .add 5, operation .sub 5],
      op.type ≠ .termination := by decide
  have hrest : Rereads wireParser cancelling (0 + 0) := by
    refine .cons (by decide) hparse' (fun op hop => hplain op (.tail _ hop)) ?_
    rw [show cancelling.drop _ = [] by decide +kernel]
    exact .nil
  refine ⟨hparse, (request_applied_iff hparse hplain 41).mpr ⟨0, ?_, Int.dvd_zero _⟩⟩
  rw [show longRequest.drop _ = cancelling by decide +kernel]
  exact hrest

/-- The same ADD with 1 in two bytes: the last byte of the payload is left over, is no
message, and the server ends. -/
theorem overlong_varint_exits :
    wireParser.parseFromArray [26, 5, 8, 0, 16, 129, 0] = some ⟨[operation .add 1]⟩ ∧
    wireParser.Plain ⟨[operation .add 1]⟩ ∧
    processRequest wireParser 2 [26, 5, 8, 0, 16, 129, 0] 41 = some .exited ∧
    ¬ ∃ fuel, processRequest wireParser fuel [26, 5, 8, 0, 16, 129, 0] 41 =
      some (.processed 42) := by
  have hexit : processRequest wireParser 2 [26, 5, 8, 0, 16, 129, 0] 41 = some .exited := by
    decide +kernel
  refine ⟨by decide +kernel, ?_, hexit, ?_⟩
  · intro op hop
    rcases List.mem_singleton.mp hop with rfl
    decide
  · rintro ⟨fuel, hrun⟩
    -- with the larger of the two bounds both results would be the same
    have hleft := run_mono (Nat.le_max_left 2 fuel) hexit
    have hright := run_mono (Nat.le_max_right 2 fuel) hrun
    exact absurd (hleft.symm.trans hright) (by simp)

end SysProg.Sockets
