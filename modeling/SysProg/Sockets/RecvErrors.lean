import Mathlib.Tactic
import SysProg.Sockets.Framing

/-!
# Errors in `recv_all`

After an error that `recv_all` does not expect, the result -1 is added to the counter of the
bytes received, as if one byte less had arrived.

* `RecvOutcome.Unexpected` — the errors of that kind, `EINTR` among them;
* `Complete` — what a caller takes the result `true` for;
* `Counted` — what the counter says about the stream and the memory;
* `recvAll_complete_iff` — the result `true` is right just when no such error occurs.
-/

namespace SysProg.Sockets

open Loop

/-- `recv_all`: the result, and the receiver and the memory after it. -/
def recvAll (fuel : ℕ) (recv : ℕ → RecvOutcome) (count : ℕ) (fresh : ℕ → UInt8)
    (receiver : Receiver) : Option (Bool × RecvLoop) :=
  run (recvStep recv count) fuel ⟨receiver, 0, fresh⟩

/-- `recv` has failed, and not because there is nothing there yet. -/
def RecvOutcome.Unexpected : RecvOutcome → Prop
  | .error errno => ¬ (errno = EAGAIN ∨ errno = EWOULDBLOCK ∨ errno = ECONNRESET)
  | .received _ => False

instance : DecidablePred RecvOutcome.Unexpected
  | .error errno =>
    inferInstanceAs (Decidable (¬ (errno = EAGAIN ∨ errno = EWOULDBLOCK ∨ errno = ECONNRESET)))
  | .received _ => isFalse id

/-- The next `count` bytes of the stream have been received, and are in memory in their order;
no other memory has changed. -/
structure Complete (count : ℕ) (fresh : ℕ → UInt8) (receiver : Receiver) (s : RecvLoop) :
    Prop where
  enough : count ≤ receiver.rest.length
  received : s.receiver.rest = receiver.rest.drop count
  stored : ∀ k, k < count → receiver.rest[k]? = some (s.data k)
  outside : ∀ k, count ≤ k → s.data k = fresh k

section

variable {recv : ℕ → RecvOutcome} {count fuel : ℕ} {fresh fresh' : ℕ → UInt8}
  {receiver : Receiver} {s s' : RecvLoop}

/-- The number of unexpected errors in the first calls. -/
def unexpectedErrors (recv : ℕ → RecvOutcome) (calls : ℕ) : ℕ :=
  Nat.count (fun i => (recv i).Unexpected) calls

theorem unexpectedErrors_succ {calls : ℕ} (h : (recv calls).Unexpected) :
    unexpectedErrors recv (calls + 1) = unexpectedErrors recv calls + 1 := by
  rw [unexpectedErrors, Nat.count_succ, if_pos h, unexpectedErrors]

theorem unexpectedErrors_succ_of_not {calls : ℕ} (h : ¬ (recv calls).Unexpected) :
    unexpectedErrors recv (calls + 1) = unexpectedErrors recv calls := by
  rw [unexpectedErrors, Nat.count_succ, if_neg h, unexpectedErrors, Nat.add_zero]

theorem unexpectedErrors_mono (recv : ℕ → RecvOutcome) {a b : ℕ} (h : a ≤ b) :
    unexpectedErrors recv a ≤ unexpectedErrors recv b :=
  Nat.count_monotone _ h

theorem unexpectedErrors_lt {a i b : ℕ} (ha : a ≤ i) (hb : i < b) (h : (recv i).Unexpected) :
    unexpectedErrors recv a < unexpectedErrors recv b :=
  lt_of_le_of_lt (unexpectedErrors_mono recv ha) (Nat.count_strict_mono h hb)

theorem exists_unexpected {a b : ℕ} (h : unexpectedErrors recv a < unexpectedErrors recv b) :
    ∃ i, a ≤ i ∧ i < b ∧ (recv i).Unexpected := by
  induction b with
  | zero => exact absurd h (Nat.not_lt_zero _)
  | succ b ih =>
    by_cases hlast : (recv b).Unexpected
    · have hle : a ≤ b := by
        by_contra hgt
        exact absurd (unexpectedErrors_mono recv (Nat.lt_of_not_le hgt)) (Nat.not_le_of_lt h)
      exact ⟨b, hle, Nat.lt_succ_self b, hlast⟩
    · rw [unexpectedErrors_succ_of_not hlast] at h
      rcases ih h with ⟨i, hfrom, hto, hunexpected⟩
      exact ⟨i, hfrom, Nat.lt_succ_of_lt hto, hunexpected⟩

/-- The memory from the last byte of the buffer on is as it was before. -/
def Untouched (count : ℕ) (fresh : ℕ → UInt8) (s : RecvLoop) : Prop :=
  ∀ k, count ≤ k + 1 → s.data k = fresh k

/-- Before a round of `recv_all` there are as many bytes received as the counter says and as
unexpected errors have been counted; or the counter has gone below zero. -/
structure Counted (recv : ℕ → RecvOutcome) (count : ℕ) (fresh : ℕ → UInt8) (receiver : Receiver)
    (s : RecvLoop) : Prop where
  calls : receiver.calls ≤ s.receiver.calls
  received : ∃ n, n ≤ receiver.rest.length ∧ s.receiver.rest = receiver.rest.drop n ∧
    (s.charsRecved ≤ count ∧
        s.charsRecved + unexpectedErrors recv s.receiver.calls =
          n + unexpectedErrors recv receiver.calls ∧
        (s.charsRecved < count → Untouched count fresh s) ∨
      s.charsRecved = 2 ^ 64 - 1 ∧ 0 < count ∧
        unexpectedErrors recv receiver.calls < unexpectedErrors recv s.receiver.calls ∧
        Untouched count fresh s)
  stored : unexpectedErrors recv s.receiver.calls = unexpectedErrors recv receiver.calls →
    Receiving receiver.rest s
  outside : ∀ k, count ≤ k → s.data k = fresh k

theorem Counted.initial (recv : ℕ → RecvOutcome) (count : ℕ) (fresh : ℕ → UInt8)
    (receiver : Receiver) : Counted recv count fresh receiver ⟨receiver, 0, fresh⟩ where
  calls := le_rfl
  received := ⟨0, Nat.zero_le _, rfl, .inl ⟨Nat.zero_le _, rfl, fun _ _ _ => rfl⟩⟩
  stored := fun _ => ⟨rfl, fun k hk => absurd hk (Nat.not_lt_zero k)⟩
  outside := fun _ _ => rfl

/-- Bytes stored before the end of a range do not change what is behind it. -/
theorem store_behind {data : ℕ → UInt8} {offset k : ℕ} {bytes : List UInt8}
    (h : offset + bytes.length ≤ k) : store data offset bytes k = data k := by
  have hnone : bytes[k - offset]? = none := List.getElem?_eq_none (by omega)
  rw [store, if_pos (by omega), hnone, Option.getD_none]

/-- While the loop goes on, the counter has not gone below zero. -/
theorem Counted.unfinished (h : Counted recv count fresh receiver s) (hcount : count < 2 ^ 64)
    (hlt : s.charsRecved < count) :
    ∃ n, n ≤ receiver.rest.length ∧ s.receiver.rest = receiver.rest.drop n ∧
      s.charsRecved + unexpectedErrors recv s.receiver.calls =
        n + unexpectedErrors recv receiver.calls ∧ Untouched count fresh s := by
  rcases h.received with ⟨n, hn, hrest, ⟨-, hsum, huntouched⟩ | ⟨hwrapped, -⟩⟩
  · exact ⟨n, hn, hrest, hsum, huntouched hlt⟩
  · omega

section Rounds

variable (h : Counted recv count fresh receiver s) (hcount : count < 2 ^ 64)
  (hlt : s.charsRecved < count)
include h hcount hlt

/-- After an error that `recv_all` expects, only the call has been made. -/
theorem Counted.again (hexpected : ¬ (recv s.receiver.calls).Unexpected) :
    Counted recv count fresh receiver
      ⟨⟨s.receiver.calls + 1, s.receiver.rest⟩, s.charsRecved, s.data⟩ := by
  have hsame := unexpectedErrors_succ_of_not hexpected
  rcases h.unfinished hcount hlt with ⟨n, hn, hrest, hsum, huntouched⟩
  refine ⟨Nat.le_succ_of_le h.calls, ⟨n, hn, hrest, .inl ⟨hlt.le, ?_, fun _ => huntouched⟩⟩, ?_,
    h.outside⟩
  · rw [hsame]
    exact hsum
  · intro hnone
    rw [hsame] at hnone
    exact ⟨(h.stored hnone).ahead, (h.stored hnone).stored⟩

/-- Any other error takes one off the counter. -/
theorem Counted.miscounted (hunexpected : (recv s.receiver.calls).Unexpected) :
    Counted recv count fresh receiver
      ⟨⟨s.receiver.calls + 1, s.receiver.rest⟩, (s.charsRecved + (2 ^ 64 - 1)) % 2 ^ 64,
        s.data⟩ := by
  have hmore := unexpectedErrors_succ hunexpected
  have hbefore := unexpectedErrors_mono recv h.calls
  rcases h.unfinished hcount hlt with ⟨n, hn, hrest, hsum, huntouched⟩
  refine ⟨Nat.le_succ_of_le h.calls, ⟨n, hn, hrest, ?_⟩, ?_, h.outside⟩
  · simp only [hmore]
    by_cases hzero : s.charsRecved = 0
    · -- the counter wraps around
      refine .inr ⟨by omega, by omega, by omega, huntouched⟩
    · -- the last byte is taken for not received
      refine .inl ⟨by omega, by omega, fun _ => huntouched⟩
  · intro hnone
    simp only [hmore] at hnone
    omega

/-- The bytes that have arrived go behind those that the counter says are there. -/
theorem Counted.piece {m : ℕ} (hexpected : ¬ (recv s.receiver.calls).Unexpected)
    (hm : m ≤ count - s.charsRecved) :
    Counted recv count fresh receiver
      ⟨⟨s.receiver.calls + 1, s.receiver.rest.drop (s.receiver.rest.take m).length⟩,
        s.charsRecved + (s.receiver.rest.take m).length,
        store s.data s.charsRecved (s.receiver.rest.take m)⟩ := by
  have hsame := unexpectedErrors_succ_of_not hexpected
  have hpiece := (List.length_take_le m s.receiver.rest).trans hm
  rcases h.unfinished hcount hlt with ⟨t, ht, hrest, hsum, huntouched⟩
  have hfits : (s.receiver.rest.take m).length ≤ receiver.rest.length - t := by
    rw [List.length_take, hrest, List.length_drop]
    exact Nat.min_le_right _ _
  refine ⟨Nat.le_succ_of_le h.calls, ⟨t + (s.receiver.rest.take m).length, by omega, ?_,
    .inl ⟨?_, ?_, ?_⟩⟩, ?_, ?_⟩
  · rw [← List.drop_drop, ← hrest]
  · simp only
    omega
  · simp only [hsame]
    omega
  · -- as long as the buffer is not full its last byte has not been written
    intro hopen k hk
    simp only at hopen
    exact (store_behind (by omega)).trans (huntouched k hk)
  · intro hnone
    rw [hsame] at hnone
    exact (h.stored hnone).piece rfl
  · intro k hk
    exact (store_behind (by omega)).trans (h.outside k hk)

end Rounds

theorem Counted.next (h : Counted recv count fresh receiver s) (hcount : count < 2 ^ 64)
    (hstep : recvStep recv count s = .inl s') : Counted recv count fresh receiver s' := by
  have hround := recvStep_round recv count s
  rw [hstep] at hround
  cases hround with
  | again hlt herror hretry =>
    refine h.again hcount hlt ?_
    rw [herror]
    exact not_not_intro hretry
  | miscounted hlt herror hother =>
    refine h.miscounted hcount hlt ?_
    rw [herror]
    exact hother
  | piece hlt hn hm hne =>
    refine h.piece hcount hlt ?_ hm
    rw [hn]
    exact id

/-- What the result `true` says. -/
theorem recvAll_counted (hcount : count < 2 ^ 64)
    (hrun : recvAll fuel recv count fresh receiver = some (true, s)) :
    Counted recv count fresh receiver s ∧ count ≤ s.charsRecved := by
  have hpost := run_post (Counted recv count fresh receiver)
    (fun r => r.1 = true → Counted recv count fresh receiver r.2 ∧ count ≤ r.2.charsRecved)
    (fun _ _ h hstep => h.next hcount hstep) ?_ (Counted.initial recv count fresh receiver) hrun
  · exact hpost rfl
  · intro s r h hstep htrue
    have hround := recvStep_round recv count s
    rw [hstep] at hround
    cases hround with
    | closed => cases htrue
    | done hge => exact ⟨h, hge⟩

/-- Without unexpected errors the result `true` is right. -/
theorem Counted.complete (h : Counted recv count fresh receiver s) (hge : count ≤ s.charsRecved)
    (hnone : unexpectedErrors recv s.receiver.calls = unexpectedErrors recv receiver.calls) :
    Complete count fresh receiver s := by
  rcases h.received with ⟨n, hn, hrest, ⟨hle, hsum, -⟩ | ⟨-, -, hmore, -⟩⟩
  · have hchars : s.charsRecved = count := Nat.le_antisymm hle hge
    have hn' : n = count := by omega
    subst hn'
    refine ⟨hn, hrest, fun k hk => ?_, h.outside⟩
    exact (h.stored hnone).stored k (hchars ▸ hk)
  · omega

/-- With unexpected errors, too many bytes have been received, or the last byte of the buffer
has not been written. -/
theorem Counted.not_complete (h : Counted recv count fresh receiver s)
    (hge : count ≤ s.charsRecved)
    (hmore : unexpectedErrors recv receiver.calls < unexpectedErrors recv s.receiver.calls)
    (hfresh : ∀ k, receiver.rest[k]? ≠ some (fresh k)) : ¬ Complete count fresh receiver s := by
  intro hcomplete
  rcases h.received with ⟨n, hn, hrest, ⟨hle, hsum, -⟩ | ⟨-, hpos, -, huntouched⟩⟩
  · have hlength := congrArg List.length (hrest.symm.trans hcomplete.received)
    have henough := hcomplete.enough
    simp only [List.length_drop] at hlength
    omega
  · have hlast := hcomplete.stored (count - 1) (by omega)
    rw [huntouched (count - 1) (by omega)] at hlast
    exact hfresh _ hlast

/-! ## Memory before the call -/

/-- Two loops that differ in the memory only. -/
def SameCounter (s t : RecvLoop) : Prop :=
  s.receiver = t.receiver ∧ s.charsRecved = t.charsRecved

/-- What is in the memory does not change what `recv_all` does. -/
theorem recvStep_same {t : RecvLoop} (h : SameCounter s t) :
    (∃ s' t', recvStep recv count s = .inl s' ∧ recvStep recv count t = .inl t' ∧
      SameCounter s' t') ∨
    ∃ r r', recvStep recv count s = .inr r ∧ recvStep recv count t = .inr r' ∧
      (r.1 = r'.1 ∧ r.2.receiver = r'.2.receiver) := by
  rcases s with ⟨receiver, chars, data⟩
  rcases t with ⟨_, _, data'⟩
  rcases h with ⟨rfl, rfl⟩
  unfold recvStep
  by_cases hlt : chars < count
  · simp only [if_pos hlt]
    cases hn : recv receiver.calls with
    | error =>
      simp only
      split_ifs <;> exact .inl ⟨_, _, rfl, rfl, rfl, rfl⟩
    | received =>
      simp only
      split_ifs
      · exact .inr ⟨_, _, rfl, rfl, rfl, rfl⟩
      · exact .inl ⟨_, _, rfl, rfl, rfl, rfl⟩
  · simp only [if_neg hlt]
    exact .inr ⟨_, _, rfl, rfl, rfl, rfl⟩

theorem recvAll_fresh (hrun : recvAll fuel recv count fresh receiver = some (true, s))
    (fresh' : ℕ → UInt8) :
    ∃ s', recvAll fuel recv count fresh' receiver = some (true, s') ∧
      s.receiver = s'.receiver := by
  have hsame : SameCounter ⟨receiver, 0, fresh⟩ ⟨receiver, 0, fresh'⟩ := ⟨rfl, rfl⟩
  rcases run_related SameCounter (fun r r' : Bool × RecvLoop => r.1 = r'.1 ∧
    r.2.receiver = r'.2.receiver)
    (fun _ _ h => recvStep_same h) hsame hrun with ⟨⟨_, s'⟩, hrun', rfl, hreceiver⟩
  exact ⟨s', hrun', hreceiver⟩

/-- Memory that differs from the stream everywhere. -/
def unlike (stream : List UInt8) (k : ℕ) : UInt8 :=
  if stream[k]? = some 0 then 1 else 0

theorem unlike_ne (stream : List UInt8) (k : ℕ) : stream[k]? ≠ some (unlike stream k) := by
  unfold unlike
  split_ifs with hzero
  · rw [hzero]
    decide
  · exact hzero

end

/-- Whatever the kernel does: the result `true` always stands for complete data, whatever the
memory held before, just when no call of `recv` fails with an error that is not expected. -/
theorem recvAll_complete_iff (recv : ℕ → RecvOutcome) {count : ℕ} (hcount : count < 2 ^ 64)
    (receiver : Receiver) :
    (∀ fuel fresh s, recvAll fuel recv count fresh receiver = some (true, s) →
      Complete count fresh receiver s) ↔
    ∀ fuel fresh s, recvAll fuel recv count fresh receiver = some (true, s) →
      ∀ i, receiver.calls ≤ i → i < s.receiver.calls → ¬ (recv i).Unexpected := by
  constructor
  · intro hall fuel fresh s hrun i hfrom hto hunexpected
    rcases recvAll_fresh hrun (unlike receiver.rest) with ⟨s', hrun', hreceiver⟩
    rw [hreceiver] at hto
    rcases recvAll_counted hcount hrun' with ⟨hcounted, hge⟩
    exact hcounted.not_complete hge (unexpectedErrors_lt hfrom hto hunexpected)
      (unlike_ne receiver.rest) (hall fuel _ s' hrun')
  · intro hnone fuel fresh s hrun
    rcases recvAll_counted hcount hrun with ⟨hcounted, hge⟩
    refine hcounted.complete hge (Nat.le_antisymm ?_ (unexpectedErrors_mono recv hcounted.calls))
    by_contra hlt
    rcases exists_unexpected (Nat.lt_of_not_le hlt) with ⟨i, hfrom, hto, hunexpected⟩
    exact hnone fuel fresh s hrun i hfrom hto hunexpected

/-- Four bytes arrive one by one, with the connection slow in between. -/
theorem recvAll_complete_bytewise :
    (∀ fuel fresh s, recvAll fuel (fun i => if i % 2 = 0 then .error EAGAIN else .received 1) 4
        fresh ⟨0, [1, 2, 3, 4, 5]⟩ = some (true, s) → Complete 4 fresh ⟨0, [1, 2, 3, 4, 5]⟩ s) ∧
      (recvAll 9 (fun i => if i % 2 = 0 then .error EAGAIN else .received 1) 4 (fun _ => 0)
        ⟨0, [1, 2, 3, 4, 5]⟩).isSome := by
  refine ⟨(recvAll_complete_iff _ (by decide) _).mpr ?_, by decide +kernel⟩
  intro fuel fresh s _ i _ _
  split_ifs
  · decide
  · exact id

/-- A signal arrives before the first byte, and the buffer is taken for full. -/
theorem interrupted_recv_complete :
    ∃ s, recvAll 2 (fun _ => .error EINTR) 4 (fun _ => 0) ⟨0, [1, 2, 3, 4]⟩ = some (true, s) ∧
      s.receiver.rest = [1, 2, 3, 4] ∧ s.bytes 4 = [0, 0, 0, 0] ∧
      ¬ Complete 4 (fun _ => 0) ⟨0, [1, 2, 3, 4]⟩ s := by
  refine ⟨_, rfl, rfl, by decide, fun hcomplete => ?_⟩
  have hreceived := hcomplete.received
  revert hreceived
  decide

end SysProg.Sockets
