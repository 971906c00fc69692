import SysProg.Sockets.Refinement
import SysProg.Sockets.Progress

/-!
# No update of the counter is lost

When every connection has its reply, `number` is the sum of all operations that clients
made, and so is the snapshot taken last. The reply carries the snapshot as an `int32`.

* `Completed.counter` — `number` and the last reply of a complete run;
* `CounterExact` — `number` and the last reply are the exact sum;
* `counter_exact_iff` — they are when the sum fits the reply.
-/

namespace SysProg.Sockets

open Lts

variable {T N : ℕ} {P : Protobuf} {R : ℕ} {assign : Fin T → Fin N} {s : State T N}

theorem setWidth_ofInt (x : ℤ) : (BitVec.ofInt 64 x).setWidth 32 = BitVec.ofInt 32 x := by
  apply BitVec.eq_of_toNat_eq
  rw [BitVec.toNat_setWidth, BitVec.toNat_ofInt, BitVec.toNat_ofInt]
  omega

/-- All requests have been made when every line of the sink is closed. -/
theorem Inv.produced_of_terminated (hinv : Inv P R assign s)
    (hall : ∀ c, (s.client c).terminated = true) : s.produced = requests (T * R) := by
  have hfetched : ∀ c, (s.client c).fetched R = R := by
    intro c
    have hc := hall c
    cases hpc : s.client c with
    | sending | holding => rw [hpc] at hc; exact Bool.noConfusion hc
    | waiting => rfl
    | done => rfl
  have hcount : s.produced.length = T * R := by
    rw [hinv.count, Finset.sum_congr rfl fun c _ => hfetched c]
    simp
  rw [hinv.produced, hcount]

/-- In a complete run nothing is lost and nothing counted twice: `number` is the sum of
all operations as a 64-bit number, and the reply to the latest snapshot is that sum as a
32-bit number. -/
theorem Completed.counter (hP : P.Lawful) (hr : Reachable (system P R assign) s)
    (hdone : Completed s) :
    s.produced = requests (T * R) ∧ s.number = BitVec.ofInt 64 (total s.produced) ∧
      (0 < T → ∃ x ∈ s.snapshots.head?,
        replied P s x.1 = some (BitVec.ofInt 32 (total s.produced)).toInt) := by
  rcases reachable_refines hP hr with ⟨a, ha, hinv, href⟩
  have hsink := Pipeline.reachable_inv ha
  -- a connection with a reply is finished
  have hfinished : ∀ c, a.Finished c := by
    intro c
    rcases Option.ne_none_iff_exists'.mp (hdone c) with ⟨b, hb⟩
    rcases hinv.replies c b hb with ⟨v, hv, _⟩
    rw [href.snapshots] at hv
    exact List.mem_map_of_mem hv
  rcases hsink.total_of_finished hfinished with ⟨htotal, hlast⟩
  refine ⟨?_, ?_, ?_⟩
  · refine hinv.produced_of_terminated fun c => ?_
    rw [href.closed c]
    exact (hsink.finished c (hfinished c)).1
  · rw [href.number, htotal, href.made]
  · intro hT
    -- some connection is finished, so there is a latest snapshot
    cases hclosings : a.closings with
    | nil =>
      have hc := hfinished ⟨0, hT⟩
      unfold Pipeline.State.Finished at hc
      rw [hclosings] at hc
      simp at hc
    | cons x rest =>
      have hx : x ∈ a.closings.head? := by rw [hclosings]; rfl
      refine ⟨x, by rw [href.snapshots]; exact hx, ?_⟩
      rcases Option.ne_none_iff_exists'.mp (hdone x.1) with ⟨b, hb⟩
      rcases hinv.replies x.1 b hb with ⟨v, hv, hb'⟩
      -- a connection has one snapshot
      have hv' : v = x.2 := by
        rw [href.snapshots] at hv
        have hmem : x ∈ a.closings := by rw [hclosings]; exact List.mem_cons_self
        exact congrArg Prod.snd (List.inj_on_of_nodup_map hsink.nodup hv hmem rfl)
      unfold replied
      rw [hb, hb', Option.bind_some, hP.parseReply_serialize, hv', hlast x hx, ← href.made,
        setWidth_ofInt]
      rfl

/-- `number` is the sum of the operations that clients made, and the reply to the snapshot
taken last carries it. -/
def CounterExact (P : Protobuf) (s : State T N) : Prop :=
  s.number.toInt = total s.produced ∧
    (0 < T → ∃ x ∈ s.snapshots.head?, replied P s x.1 = some (total s.produced))

theorem toInt_ofInt_iff {x : ℤ} (hx : 0 ≤ x) : (BitVec.ofInt 32 x).toInt = x ↔ x < 2 ^ 31 := by
  rw [BitVec.toInt_ofInt, Int.bmod_def]
  omega

theorem toInt_ofInt_of_lt {x : ℤ} (hx : 0 ≤ x) (hlt : x < 2 ^ 31) :
    (BitVec.ofInt 64 x).toInt = x := by
  rw [BitVec.toInt_ofInt, Int.bmod_def]
  omega

/-- In every complete run all requests are made; the counter and the last reply are their
exact sum just when that fits the `int32` of the reply. -/
theorem counter_exact_iff (hP : P.Lawful) (hr : Reachable (system P R assign) s)
    (hdone : Completed s) :
    s.produced.length = T * R ∧
      (T * R % 2 = 0 → total s.produced = 3 * (T * R : ℕ) / 2) ∧
      (CounterExact P s ↔
        5 * ((T * R + 1) / 2 : ℕ) - 2 * (T * R / 2 : ℕ) < (2 : ℤ) ^ 31) := by
  rcases hdone.counter hP hr with ⟨hproduced, hnumber, hreply⟩
  have htotal : total s.produced = 5 * ((T * R + 1) / 2 : ℕ) - 2 * (T * R / 2 : ℕ) := by
    rw [hproduced, total_requests]
  have hnonneg : 0 ≤ total s.produced := by omega
  refine ⟨by rw [hproduced, requests_length], fun heven => by omega, ?_⟩
  rw [← htotal]
  constructor
  · intro hexact
    rcases Nat.eq_zero_or_pos T with hT | hT
    · -- without clients the sum is zero
      have hzero : T * R = 0 := by rw [hT, Nat.zero_mul]
      rw [hzero] at htotal
      rw [htotal]
      norm_num
    · rcases hexact.2 hT with ⟨x, hx, hxtotal⟩
      rcases hreply hT with ⟨y, hy, hytotal⟩
      have hxy : x = y := Option.mem_unique hx hy
      rw [hxy, hytotal] at hxtotal
      injection hxtotal with hxtotal
      exact (toInt_ofInt_iff hnonneg).mp hxtotal
  · intro hlt
    refine ⟨by rw [hnumber, toInt_ofInt_of_lt hnonneg hlt], fun hT => ?_⟩
    rcases hreply hT with ⟨x, hx, hxtotal⟩
    exact ⟨x, hx, by rw [hxtotal, (toInt_ofInt_iff hnonneg).mpr hlt]⟩

/-- Two clients with one request each, both connections on one of two workers. -/
theorem counter_exact_two : ∃ s : State 2 2,
    (Reachable (system wire 1 fun _ => 0) s ∧ Completed s) ∧ s.produced.length = 2 ∧
      total s.produced = 3 ∧ CounterExact wire s := by
  rcases exists_completed wire_lawful 1 fun _ : Fin 2 => (0 : Fin 2) with ⟨s, hr, hdone⟩
  rcases counter_exact_iff wire_lawful hr hdone with ⟨hlength, heven, hexact⟩
  exact ⟨s, ⟨hr, hdone⟩, hlength, heven rfl, hexact.mpr (by norm_num)⟩

/-- One client with 1431655766 requests: the counter is exact, and the reply is not. -/
theorem last_reply_wraps : ∃ s : State 1 1,
    (Reachable (system wire 1431655766 fun _ => 0) s ∧ Completed s) ∧
      s.number.toInt = 2147483649 ∧ total s.produced = 2147483649 ∧
      (∃ x ∈ s.snapshots.head?, replied wire s x.1 = some (-2147483647)) ∧
      ¬ CounterExact wire s := by
  rcases exists_completed wire_lawful 1431655766 fun _ : Fin 1 => (0 : Fin 1) with ⟨s, hr, hdone⟩
  rcases hdone.counter wire_lawful hr with ⟨hproduced, hnumber, hreply⟩
  have htotal : total s.produced = 2147483649 := by
    rw [hproduced, total_requests]
    norm_num
  rcases hreply Nat.one_pos with ⟨x, hx, hxreply⟩
  rw [htotal] at hnumber hxreply
  have hwrapped : replied wire s x.1 = some (-2147483647) := by
    rw [hxreply]
    decide
  refine ⟨s, ⟨hr, hdone⟩, by rw [hnumber]; decide, htotal, ⟨x, hx, hwrapped⟩, ?_⟩
  intro hexact
  rcases hexact.2 Nat.one_pos with ⟨y, hy, hytotal⟩
  rw [Option.mem_unique hy hx, hwrapped, htotal] at hytotal
  exact absurd hytotal (by decide)

end SysProg.Sockets
