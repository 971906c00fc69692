import Mathlib.Tactic
import SysProg.Concurrency.LockFreeInv

/-!
# The lock-free list is a linearizable set

* `Sequential` — the operations of a set;
* `set_step` — which steps change the set of keys, and how;
* `Call` — a completed call in a behavior; `LinearizedAt` — the step of the call at
  which it takes effect;
* `Evidence` — what a thread has seen so far in its call. A search that ends without
  the key needs the step at which it loaded the link it now returns, or at which it
  bypassed marked nodes; a search that ends with the key needs its last load;
* `linearizable_set` — the three parts together.
-/

namespace SysProg.LockFree

open Lts

/-- The operation with this result takes the set `A` to the set `B`. -/
def Sequential (op : Op) (result : Bool) (A B : Set ℤ) : Prop :=
  match op with
  | .insert k => (result = true ↔ k ∉ A) ∧ B = insert k A
  | .remove k => (result = true ↔ k ∈ A) ∧ B = A \ {k}
  | .find k => (result = true ↔ k ∈ A) ∧ B = A

/-- The operation a thread is executing. -/
def Pc.op : Pc → Option Op
  | .idle => none
  | .searchHead c | .searchNext c _ _ _ | .searchUnlink c _ _ _ | .searchCheck c _ _ => some c.op
  | .insertStore key _ _ _ | .insertCas key _ _ _ => some (.insert key)
  | .removeLoad key _ _ | .removeMark key _ _ _ | .removeUnlink key _ _ _ => some (.remove key)
  | .ret op _ => some op

variable {Tid : Type} [DecidableEq Tid] {P : State Tid → State Tid → Prop} {rightNext : ℕ} {key : ℤ}

/-- The next step of the thread is an insertion CAS that succeeds. -/
def Inserts (s : State Tid) (t : Tid) (key : ℤ) : Prop :=
  ∃ insertion left right, s.pc t = .insertCas key insertion left right ∧
    s.heap.next left = ⟨right, false⟩

/-- The next step of the thread is a mark CAS that succeeds. -/
def Marks (s : State Tid) (t : Tid) (key : ℤ) : Prop :=
  ∃ left right rightNext, s.pc t = .removeMark key left right rightNext ∧
    s.heap.next right = ⟨rightNext, false⟩

/-- Thread `t` calls `op` at position `i`, and the call returns at position `j`. -/
structure Call (e : Behavior (system Tid)) (t : Tid) (op : Op) (result : Bool) (i j : ℕ) :
    Prop where
  invoke : e.label i = some (t, .invoke op)
  lt : i < j
  ret : e.label j = some (t, .ret result)
  inside : ∀ n, i < n → n < j → ∀ b, e.label n ≠ some (t, .ret b)

/-- Among the steps of `t` from position `i` to before `n`, the one at `m` does what the
sequential operation does, and no other changes the set. -/
structure LinearizedAt (e : Behavior (system Tid)) (t : Tid) (op : Op) (result : Bool)
    (i n m : ℕ) : Prop where
  after : i < m
  before : m < n
  step : e.label m = some (t, .step)
  sequential : Sequential op result (keys (e.state m).heap) (keys (e.state (m + 1)).heap)
  only : ∀ n', i ≤ n' → n' < n → n' ≠ m → ∀ ev, e.label n' = some (t, ev) →
    keys (e.state (n' + 1)).heap = keys (e.state n').heap

variable {s s' : State Tid} {t u : Tid} {ev : Event} {h h' : Heap} {pc pc' : Pc} {c : Caller}
  {k : ℤ} {left leftNext node right x : ℕ}

/-! ## Which steps change the set -/

/-- The effect of one step of a thread on the set. -/
structure SetStep (s : State Tid) (t : Tid) (s' : State Tid) : Prop where
  inserts : ∀ key, Inserts s t key →
    key ∉ keys s.heap ∧ keys s'.heap = insert key (keys s.heap)
  marks : ∀ key, Marks s t key → key ∈ keys s.heap ∧ keys s'.heap = keys s.heap \ {key}
  others : (∀ key, ¬ Inserts s t key ∧ ¬ Marks s t key) → keys s'.heap = keys s.heap

omit [DecidableEq Tid] in
theorem not_inserts (hpc : ∀ key insertion left right, s.pc t ≠ .insertCas key insertion left right)
    (key : ℤ) : ¬ Inserts s t key := by
  intro hins
  rcases hins with ⟨insertion, left, right, heq, -⟩
  exact hpc key insertion left right heq

omit [DecidableEq Tid] in
theorem not_marks (hpc : ∀ key left right rightNext, s.pc t ≠ .removeMark key left right rightNext)
    (key : ℤ) : ¬ Marks s t key := by
  intro hmark
  rcases hmark with ⟨left, right, rightNext, heq, -⟩
  exact hpc key left right rightNext heq

omit [DecidableEq Tid] in
/-- A step that is neither of the two. -/
theorem SetStep.of_eq (hins : ∀ key, ¬ Inserts s t key) (hmark : ∀ key, ¬ Marks s t key)
    (heq : keys s'.heap = keys s.heap) : SetStep s t s' :=
  ⟨fun key h => absurd h (hins key), fun key h => absurd h (hmark key), fun _ => heq⟩

/-- A step at a point that is neither of the two compare-and-swaps. -/
theorem advance_keys (ok : HeapOk h) (hpc : PcOk h pc) (hadv : advance h pc = some (h', pc'))
    (hins : ∀ key insertion left right, pc ≠ .insertCas key insertion left right)
    (hmark : ∀ key left right rightNext, pc ≠ .removeMark key left right rightNext) :
    keys h' = keys h := by
  cases stepped_of_advance hadv with
  | bypass c left leftNext right hlink =>
    rcases hpc with ⟨-, hl, hd, hr⟩
    exact (unlinking_of_search hl hd hr hlink).keys_eq ok
  | store =>
    -- the node is not on the chain yet
    rcases hpc with ⟨hx, -⟩
    refine ok.keys_of_unpublished hx.unpublished hx.gt (fun y hy => ?_) rfl le_rfl
    simp [Heap.store, hy]
  | insert key insertion left right hlink => exact absurd rfl (hins key insertion left right)
  | mark key left right rightNext hlink => exact absurd rfl (hmark key left right rightNext)
  | unlink key left right rightNext hlink =>
    rcases hpc with ⟨hl, hpub, hkey, hnext⟩
    exact (unlinking_of_remove ok hl hpub hkey hnext hlink).keys_eq ok
  | _ => rfl

theorem insertCas_keys (ok : HeapOk h) (hpc : PcOk h (.insertCas k x left right))
    (hadv : advance h (.insertCas k x left right) = some (h', pc')) :
    h.next left = ⟨right, false⟩ ∧ (k ∉ keys h ∧ keys h' = insert k (keys h)) ∨
      h.next left ≠ ⟨right, false⟩ ∧ h' = h := by
  cases stepped_of_advance hadv with
  | insert key insertion left right hlink =>
    have hkeys := (insertion_of_insertCas hpc hlink).keys_eq ok
    rw [hpc.1.key] at hkeys
    exact .inl ⟨hlink, hkeys⟩
  | insertFails key insertion left right hlink => exact .inr ⟨hlink, rfl⟩

theorem removeMark_keys (ok : HeapOk h) (hpc : PcOk h (.removeMark k left right rightNext))
    (hadv : advance h (.removeMark k left right rightNext) = some (h', pc')) :
    h.next right = ⟨rightNext, false⟩ ∧ (k ∈ keys h ∧ keys h' = keys h \ {k}) ∨
      h.next right ≠ ⟨rightNext, false⟩ ∧ h' = h := by
  rcases hpc with ⟨-, hpub, hkey⟩
  cases stepped_of_advance hadv with
  | mark key left right rightNext hlink =>
    -- a marked node is no longer in the set, although it is still linked
    have hkeys := mark_keys hpub hlink ok
    rw [hkey] at hkeys
    exact .inl ⟨hlink, hkeys⟩
  | markFails key left right rightNext hlink => exact .inr ⟨hlink, rfl⟩

theorem set_step (hinv : Inv s) (hacted : Acted s t ev s') : SetStep s t s' := by
  cases hacted with
  | invoke op hpc =>
    refine .of_eq (not_inserts (by simp [hpc])) (not_marks (by simp [hpc])) ?_
    cases op with
    | insert =>
      exact hinv.heap.keys_of_unpublished hinv.heap.fresh_unpublished hinv.heap.fresh
        (fun _ hy => create_node hy) rfl (Nat.le_succ _)
    | remove => rfl
    | find => rfl
  | ret op result hpc => exact .of_eq (not_inserts (by simp [hpc])) (not_marks (by simp [hpc])) rfl
  | step h' pc' hadv =>
    have hok := hinv.thread t
    cases hpc : s.pc t with
    | insertCas key insertion left right =>
      rw [hpc] at hadv hok
      have hmarks := not_marks (s := s) (t := t) (by simp [hpc])
      rcases insertCas_keys hinv.heap hok hadv with ⟨hlink, hkeys⟩ | ⟨hlink, rfl⟩
      · refine ⟨?_, fun key hm => absurd hm (hmarks key), fun hno => ?_⟩
        · intro key' hins
          rcases hins with ⟨_, _, _, heq, -⟩
          rw [hpc] at heq
          rcases Pc.insertCas.inj heq with ⟨rfl, -⟩
          exact hkeys
        · exact absurd ⟨insertion, left, right, hpc, hlink⟩ (hno key).1
      · -- the compare-and-swap fails
        refine .of_eq ?_ hmarks rfl
        intro key' hins
        rcases hins with ⟨_, _, _, heq, hlink'⟩
        rw [hpc] at heq
        rcases Pc.insertCas.inj heq with ⟨-, -, rfl, rfl⟩
        exact hlink hlink'
    | removeMark key left right rightNext =>
      rw [hpc] at hadv hok
      have hinserts := not_inserts (s := s) (t := t) (by simp [hpc])
      rcases removeMark_keys hinv.heap hok hadv with ⟨hlink, hkeys⟩ | ⟨hlink, rfl⟩
      · refine ⟨fun key hi => absurd hi (hinserts key), ?_, fun hno => ?_⟩
        · intro key' hmark
          rcases hmark with ⟨_, _, _, heq, -⟩
          rw [hpc] at heq
          rcases Pc.removeMark.inj heq with ⟨rfl, -⟩
          exact hkeys
        · exact absurd ⟨left, right, rightNext, hpc, hlink⟩ (hno key).2
      · -- another thread was faster
        refine .of_eq hinserts ?_ rfl
        intro key' hmark
        rcases hmark with ⟨_, _, _, heq, hlink'⟩
        rw [hpc] at heq
        rcases Pc.removeMark.inj heq with ⟨-, -, rfl, rfl⟩
        exact hlink hlink'
    | _ =>
      refine .of_eq (not_inserts (by simp [hpc])) (not_marks (by simp [hpc])) ?_
      exact advance_keys hinv.heap hok hadv (by simp [hpc]) (by simp [hpc])

/-! ## What a thread has seen in its call -/

section Evidence

variable (e : Behavior (system Tid)) (t : Tid) (op : Op) (i : ℕ)

/-- No step of `t` from `i` to before `n` changed the set. -/
def Quiet (n : ℕ) : Prop :=
  ∀ m, i ≤ m → m < n → ∀ ev, e.label m = some (t, ev) →
    keys (e.state (m + 1)).heap = keys (e.state m).heap

/-- Position `n` is no step of `t` that changes the set. -/
def Keeps (n : ℕ) : Prop :=
  ∀ ev, e.label n = some (t, ev) → keys (e.state (n + 1)).heap = keys (e.state n).heap

/-- Some step of `t` between `i` and `n` satisfied `P`. -/
def Saw (n : ℕ) (P : State Tid → State Tid → Prop) : Prop :=
  ∃ m, i < m ∧ m < n ∧ e.label m = some (t, .step) ∧ P (e.state m) (e.state (m + 1))

/-- At a step of the thread the key was absent, or present. -/
def SawAbsent (k : ℤ) (n : ℕ) : Prop :=
  Saw e t i n fun s s' => k ∉ keys s.heap ∧ keys s'.heap = keys s.heap

def SawPresent (k : ℤ) (n : ℕ) : Prop :=
  Saw e t i n fun s s' => k ∈ keys s.heap ∧ keys s'.heap = keys s.heap

/-- At a step of the thread `left` pointed to `leftNext` and was not marked. -/
def SawLink (k : ℤ) (left leftNext n : ℕ) : Prop :=
  Saw e t i n fun s s' => Before s.heap k left ∧ s.heap.next left = ⟨leftNext, false⟩ ∧
    keys s'.heap = keys s.heap

def Linearized (result : Bool) (n : ℕ) : Prop :=
  ∃ m, LinearizedAt e t op result i n m

/-- Before its effect a call is quiet; the search after it belongs to a call with effect. -/
def CallerEvidence (n : ℕ) (c : Caller) : Prop :=
  c.op = op ∧
  match c with
  | .cleanup _ _ => Linearized e t op i true n
  | _ => Quiet e t i n

/-- What the thread has seen when it is at a point of its call. -/
def Evidence (n : ℕ) : Pc → Prop
  | .idle => False
  | .searchHead c | .searchUnlink c _ _ _ => CallerEvidence e t op i n c
  | .searchNext c left leftNext _ =>
      CallerEvidence e t op i n c ∧ SawLink e t i c.key left leftNext n
  | .searchCheck c _ right => CallerEvidence e t op i n c ∧
      (c.key < (e.state n).heap.key right → SawAbsent e t i c.key n)
  | .insertStore key _ _ _ | .insertCas key _ _ _ => op = .insert key ∧ Quiet e t i n
  | .removeLoad key _ _ | .removeMark key _ _ _ => op = .remove key ∧ Quiet e t i n
  | .removeUnlink key _ _ _ => op = .remove key ∧ Linearized e t op i true n
  | .ret op' result => op' = op ∧ Linearized e t op i result n

end Evidence

variable {e : Behavior (system Tid)} {op : Op} {i n : ℕ} {result : Bool}

theorem Saw.mono {n' : ℕ} (h : Saw e t i n P) (hn : n ≤ n') :
    Saw e t i n' P := by
  rcases h with ⟨m, hi, hm, hl, hP⟩
  exact ⟨m, hi, hm.trans_le hn, hl, hP⟩

theorem Quiet.succ (h : Quiet e t i n) (hn : Keeps e t n) : Quiet e t i (n + 1) := by
  intro m hi hm ev hl
  rcases Nat.lt_succ_iff_lt_or_eq.mp hm with hlt | rfl
  · exact h m hi hlt ev hl
  · exact hn ev hl

theorem Linearized.succ (h : Linearized e t op i result n) (hn : Keeps e t n) :
    Linearized e t op i result (n + 1) := by
  rcases h with ⟨m, hm⟩
  refine ⟨m, hm.after, hm.before.trans (Nat.lt_succ_self n), hm.step, hm.sequential, ?_⟩
  intro n' hi hn' hne ev hl
  rcases Nat.lt_succ_iff_lt_or_eq.mp hn' with hlt | rfl
  · exact hm.only n' hi hlt hne ev hl
  · exact hn ev hl

theorem CallerEvidence.succ (h : CallerEvidence e t op i n c) (hn : Keeps e t n) :
    CallerEvidence e t op i (n + 1) c := by
  refine ⟨h.1, ?_⟩
  cases c with
  | cleanup => exact Linearized.succ h.2 hn
  | insert | remove | find => exact Quiet.succ h.2 hn

/-- A quiet call takes effect at any step at which the sequential operation changes nothing. -/
theorem Quiet.linearized (h : Quiet e t i n) (hsaw : Saw e t i n P)
    (hP : ∀ s s', P s s' → Sequential op result (keys s.heap) (keys s'.heap)) :
    Linearized e t op i result n := by
  rcases hsaw with ⟨m, hi, hm, hl, hPm⟩
  exact ⟨m, hi, hm, hl, hP _ _ hPm, fun n' hi' hn' _ ev hl' => h n' hi' hn' ev hl'⟩

/-- A step that has the effect of the operation. -/
theorem Quiet.linearized_step (h : Quiet e t i n) (hin : i < n) (hl : e.label n = some (t, .step))
    (hseq : Sequential op result (keys (e.state n).heap) (keys (e.state (n + 1)).heap)) :
    Linearized e t op i result (n + 1) := by
  refine ⟨n, hin, Nat.lt_succ_self n, hl, hseq, ?_⟩
  intro n' hi hn' hne ev hl'
  exact h n' hi (by omega) ev hl'

/-- The link that was seen had nothing between its ends, so a key that belongs there was
absent. -/
theorem SawLink.absent (h : SawLink e t i k left right n)
    (hr : right = tail ∨ k < (e.state n).heap.key right) : SawAbsent e t i k n := by
  rcases h with ⟨m, hi, hm, hl, hbefore, hlink, hkeys⟩
  have hinv := reachable_inv (e.reachable m)
  refine ⟨m, hi, hm, hl, ?_, hkeys⟩
  refine hinv.heap.absent_between hbefore.listed hlink hbefore.key ?_
  -- at that time `right` was a node of the list, with the key it has now
  have htarget := hinv.heap.target left hbefore.listed
  have hsucc : (e.state m).heap.succ left = right := by simp [Heap.succ, hlink]
  rw [hsucc] at htarget
  rcases htarget with htail | hpub
  · exact .inl htail
  · rcases hr with htail | hlt
    · exact .inl htail
    · refine .inr ⟨hpub, ?_⟩
      rw [(published_between e hm.le hpub).2] at hlt
      exact hlt

/-! ### The local part of a step -/

section

variable (hc : CallerEvidence e t op i n c)
include hc

theorem searched_evidence (hr : Behind h c.key right)
    (habsent : right = tail ∨ c.key < h.key right → SawAbsent e t i c.key n)
    (hpresent : right ≠ tail → h.key right = c.key → SawPresent e t i c.key n) :
    Evidence e t op i n (searched h c left right) := by
  -- a key that is not that of `right` belongs before it
  have hmissing : ¬ (right ≠ tail ∧ h.key right = c.key) → SawAbsent e t i c.key n := by
    intro hne
    refine habsent ?_
    rcases hr with heq | ⟨-, hle⟩
    · exact .inl heq
    · by_cases heq : right = tail
      · exact .inl heq
      · exact .inr (lt_of_le_of_ne hle fun hkey => hne ⟨heq, hkey.symm⟩)
  rcases hc with ⟨rfl, hquiet⟩
  cases c with
  | insert =>
    simp only [Caller.key] at hpresent
    simp only [searched]
    split
    · -- the key is in the list already
      rename_i hfound
      refine ⟨rfl, Quiet.linearized hquiet (hpresent hfound.1 hfound.2) ?_⟩
      intro s s' hs
      rcases hs with ⟨hk, heq⟩
      exact ⟨by simpa using hk, by rw [heq, Set.insert_eq_of_mem hk]⟩
    · exact ⟨rfl, hquiet⟩
  | remove key =>
    simp only [Caller.key] at hmissing
    simp only [searched]
    split
    · -- there is nothing to remove
      rename_i hfound
      have hne : ¬ (right ≠ tail ∧ h.key right = key) := by
        intro hboth
        rcases hfound with heq | hkey
        · exact hboth.1 heq
        · exact hkey hboth.2
      refine ⟨rfl, Quiet.linearized hquiet (hmissing hne) ?_⟩
      intro s s' hs
      rcases hs with ⟨hk, heq⟩
      exact ⟨by simpa using hk, by rw [heq, Set.sdiff_singleton_eq_self hk]⟩
    · exact ⟨rfl, hquiet⟩
  | cleanup => exact ⟨rfl, hquiet⟩
  | find key =>
    simp only [Caller.key] at hpresent hmissing
    refine ⟨rfl, ?_⟩
    by_cases hfound : right ≠ tail ∧ h.key right = key
    · refine Quiet.linearized hquiet (hpresent hfound.1 hfound.2) ?_
      intro s s' hs
      exact ⟨by simpa [hfound] using hs.1, hs.2⟩
    · refine Quiet.linearized hquiet (hmissing hfound) ?_
      intro s s' hs
      exact ⟨by simpa [hfound] using hs.1, hs.2⟩

theorem check_evidence (hr : Behind (e.state n).heap c.key right)
    (habsent : right = tail ∨ c.key < (e.state n).heap.key right → SawAbsent e t i c.key n) :
    Evidence e t op i n (check (e.state n).heap c left right) := by
  unfold check
  split
  · exact ⟨hc, fun hlt => habsent (.inr hlt)⟩
  · rename_i htail
    exact searched_evidence hc hr habsent fun hne => absurd hne htail

theorem adjacent_evidence (hr : Behind (e.state n).heap c.key right)
    (hlink : SawLink e t i c.key left leftNext n) :
    Evidence e t op i n (adjacent (e.state n).heap c left leftNext right) := by
  unfold adjacent
  split
  · rename_i heq
    subst heq
    exact check_evidence hc hr hlink.absent
  · exact hc

theorem visit_evidence {link : Link}
    (hmarked : link.marked = true → SawLink e t i c.key left leftNext n)
    (hunmarked : link.marked = false → SawLink e t i c.key node link.ptr n) :
    Evidence e t op i n (visit (e.state n).heap c left leftNext node link) := by
  unfold visit
  cases hmark : link.marked with
  | true =>
    -- a marked node does not move `left`
    simp only [if_true]
    split
    · rename_i htail
      exact adjacent_evidence hc (.inl htail) (hmarked hmark)
    · exact ⟨hc, hmarked hmark⟩
  | false =>
    simp only [Bool.false_eq_true, if_false]
    split
    · rename_i htail
      exact adjacent_evidence hc (.inl htail) (hunmarked hmark)
    · exact ⟨hc, hunmarked hmark⟩

end

/-! ### One position -/

section Position

variable (hin : i < n) (hlabel : e.label n = some (t, .step))
include hin hlabel

/-- What the thread sees at this step. -/
theorem saw_now (hP : P (e.state n) (e.state (n + 1))) :
    Saw e t i (n + 1) P :=
  ⟨n, hin, Nat.lt_succ_self n, hlabel, hP⟩

omit hin hlabel in
theorem keep_of_heap (hheap : (e.state n).heap = (e.state (n + 1)).heap) : Keeps e t n :=
  fun _ _ => by rw [hheap]

theorem searchHead_evidence (hev : Evidence e t op i n (.searchHead c))
    (hadv : advance (e.state n).heap (.searchHead c) = some ((e.state (n + 1)).heap, pc')) :
    Evidence e t op i (n + 1) pc' := by
  rcases Prod.mk.inj (Option.some.inj hadv) with ⟨hheap, rfl⟩
  have hok := (reachable_inv (e.reachable (n + 1))).heap
  rw [hheap]
  refine visit_evidence (CallerEvidence.succ hev (keep_of_heap hheap)) ?_ ?_
  · intro hmark
    rw [hok.head] at hmark
    cases hmark
  · intro hmark
    refine saw_now hin hlabel ⟨⟨.inl rfl, .inl rfl⟩, ?_, by rw [hheap]⟩
    rw [hheap, ← hmark]

theorem searchNext_evidence (hpc : PcOk (e.state n).heap (.searchNext c left leftNext node))
    (hev : Evidence e t op i n (.searchNext c left leftNext node))
    (hadv : advance (e.state n).heap (.searchNext c left leftNext node) =
      some ((e.state (n + 1)).heap, pc')) :
    Evidence e t op i (n + 1) pc' := by
  rcases hpc with ⟨-, -, -, hpub⟩
  rcases hev with ⟨hcaller, hlink⟩
  have hstep := stepped_of_advance hadv
  generalize hheap : (e.state (n + 1)).heap = h' at hstep
  cases hstep with
  | next _ _ _ _ hcond =>
    rw [← hheap] at hcond hpub ⊢
    refine visit_evidence (hcaller.succ (keep_of_heap hheap.symm))
      (fun _ => hlink.mono (Nat.le_succ n)) ?_
    intro hmark
    -- the loop goes on behind an unmarked node only if its key is smaller
    have hlt := hcond.resolve_left (by simp [hmark])
    refine saw_now hin hlabel ⟨?_, ?_, by rw [hheap]⟩
    · rw [← hheap]
      exact ⟨.inr hpub, .inr hlt⟩
    · rw [← hheap, ← hmark]
  | leave _ _ _ _ _ hkey =>
    -- the first node with a key that is not smaller
    rw [← hheap] at hkey hpub ⊢
    exact adjacent_evidence (hcaller.succ (keep_of_heap hheap.symm)) (.inr ⟨hpub, hkey⟩)
      (hlink.mono (Nat.le_succ n))

theorem searchUnlink_evidence
    (hpc : PcOk (e.state n).heap (.searchUnlink c left leftNext right))
    (hev : Evidence e t op i n (.searchUnlink c left leftNext right))
    (hadv : advance (e.state n).heap (.searchUnlink c left leftNext right) =
      some ((e.state (n + 1)).heap, pc')) :
    Evidence e t op i (n + 1) pc' := by
  have hok := (reachable_inv (e.reachable n)).heap
  have hok' := (reachable_inv (e.reachable (n + 1))).heap
  have hkeys := advance_keys hok hpc hadv (by simp) (by simp)
  have hcaller := CallerEvidence.succ hev fun _ _ => hkeys
  rcases hpc with ⟨-, hl, hd, hr⟩
  have hstep := stepped_of_advance hadv
  generalize hheap : (e.state (n + 1)).heap = h' at hstep
  cases hstep with
  | bypass _ _ _ _ hlink =>
    have hchange := Change.unlink left leftNext right (unlinking_of_search hl hd hr hlink)
    rw [← hheap] at hchange ⊢
    have hl' := hl.stable hchange hok
    have hr' := hr.stable hchange hok
    refine check_evidence hcaller hr' fun hright => ?_
    -- now `left` points to `right`
    refine saw_now hin hlabel ⟨?_, hkeys⟩
    rw [← hkeys]
    have hnow : (e.state (n + 1)).heap.next left = ⟨right, false⟩ := by
      rw [hheap]
      simp
    refine hok'.absent_between hl'.listed hnow hl'.key ?_
    rcases hright with heq | hlt
    · exact .inl heq
    · exact hr'.imp_right fun hpub => ⟨hpub.1, hlt⟩
  | bypassFails => exact hcaller

theorem searchCheck_evidence (hpc : PcOk (e.state n).heap (.searchCheck c left right))
    (hev : Evidence e t op i n (.searchCheck c left right))
    (hadv : advance (e.state n).heap (.searchCheck c left right) =
      some ((e.state (n + 1)).heap, pc')) :
    Evidence e t op i (n + 1) pc' := by
  have hok := (reachable_inv (e.reachable n)).heap
  rcases hpc with ⟨-, -, hr, htail⟩
  rcases hev with ⟨hcaller, habsent⟩
  have hstep := stepped_of_advance hadv
  generalize hheap : (e.state (n + 1)).heap = h' at hstep
  cases hstep with
  | again => exact hcaller.succ (keep_of_heap hheap.symm)
  | found _ _ _ hmark =>
    refine searched_evidence (hcaller.succ (keep_of_heap hheap.symm)) hr ?_ ?_
    · intro hright
      exact (habsent (hright.resolve_left htail)).mono (Nat.le_succ n)
    · -- `right` is published and this load found it unmarked
      intro _ hkey
      have hpub := (hr.resolve_left htail).1
      exact saw_now hin hlabel ⟨hok.mem_keys.mpr ⟨right, hpub, hmark, hkey⟩, by rw [hheap]⟩

theorem insert_evidence {insertion : ℕ}
    (hpc : PcOk (e.state n).heap (.insertCas key insertion left right))
    (hev : Evidence e t op i n (.insertCas key insertion left right))
    (hadv : advance (e.state n).heap (.insertCas key insertion left right) =
      some ((e.state (n + 1)).heap, pc')) :
    Evidence e t op i (n + 1) pc' := by
  have hok := (reachable_inv (e.reachable n)).heap
  rcases hev with ⟨rfl, hquiet⟩
  have hset := insertCas_keys hok hpc hadv
  have hstep := stepped_of_advance hadv
  generalize hheap : (e.state (n + 1)).heap = h' at hstep
  cases hstep with
  | insert _ _ _ _ hlink =>
    -- the compare-and-swap is the effect of the call
    rcases hset with ⟨-, habsent, hkeys⟩ | ⟨hne, -⟩
    · exact ⟨rfl, hquiet.linearized_step hin hlabel ⟨by simpa using habsent, hkeys⟩⟩
    · exact absurd hlink hne
  | insertFails => exact ⟨rfl, hquiet.succ (keep_of_heap hheap.symm)⟩

theorem remove_evidence
    (hpc : PcOk (e.state n).heap (.removeMark key left right rightNext))
    (hev : Evidence e t op i n (.removeMark key left right rightNext))
    (hadv : advance (e.state n).heap (.removeMark key left right rightNext) =
      some ((e.state (n + 1)).heap, pc')) :
    Evidence e t op i (n + 1) pc' := by
  have hok := (reachable_inv (e.reachable n)).heap
  rcases hev with ⟨rfl, hquiet⟩
  have hset := removeMark_keys hok hpc hadv
  have hstep := stepped_of_advance hadv
  generalize hheap : (e.state (n + 1)).heap = h' at hstep
  cases hstep with
  | mark _ _ _ _ hlink =>
    -- `remove` takes effect with the mark, before the node is unlinked
    rcases hset with ⟨-, hpresent, hkeys⟩ | ⟨hne, -⟩
    · exact ⟨rfl, hquiet.linearized_step hin hlabel ⟨by simpa using hpresent, hkeys⟩⟩
    · exact absurd hlink hne
  | markFails => exact ⟨rfl, hquiet.succ (keep_of_heap hheap.symm)⟩

omit hin hlabel in
theorem removeUnlink_evidence
    (hpc : PcOk (e.state n).heap (.removeUnlink key left right rightNext))
    (hev : Evidence e t op i n (.removeUnlink key left right rightNext))
    (hadv : advance (e.state n).heap (.removeUnlink key left right rightNext) =
      some ((e.state (n + 1)).heap, pc')) :
    Evidence e t op i (n + 1) pc' := by
  have hok := (reachable_inv (e.reachable n)).heap
  have hkeys := advance_keys hok hpc hadv (by simp) (by simp)
  rcases hpc with ⟨-, -, hkey, -⟩
  rcases hev with ⟨rfl, hlin⟩
  have hlin' := hlin.succ fun _ _ => hkeys
  have hstep := stepped_of_advance hadv
  generalize (e.state (n + 1)).heap = h' at hstep
  cases hstep with
  | unlink => exact ⟨rfl, hlin'⟩
  | unlinkFails =>
    rw [hkey]
    exact ⟨rfl, hlin'⟩

theorem step_evidence (hpc : PcOk (e.state n).heap pc) (hev : Evidence e t op i n pc)
    (hadv : advance (e.state n).heap pc = some ((e.state (n + 1)).heap, pc')) :
    Evidence e t op i (n + 1) pc' := by
  have hok := (reachable_inv (e.reachable n)).heap
  cases pc with
  | idle | ret => cases hadv
  | searchHead => exact searchHead_evidence hin hlabel hev hadv
  | searchNext => exact searchNext_evidence hin hlabel hpc hev hadv
  | searchUnlink => exact searchUnlink_evidence hin hlabel hpc hev hadv
  | searchCheck => exact searchCheck_evidence hin hlabel hpc hev hadv
  -- these steps change no key
  | insertStore =>
    have hkeys := advance_keys hok hpc hadv (by simp) (by simp)
    rcases Prod.mk.inj (Option.some.inj hadv) with ⟨-, rfl⟩
    exact ⟨hev.1, hev.2.succ fun _ _ => hkeys⟩
  | insertCas => exact insert_evidence hin hlabel hpc hev hadv
  | removeLoad =>
    have hkeys := advance_keys hok hpc hadv (by simp) (by simp)
    have hquiet := hev.2.succ fun _ _ => hkeys
    have hstep := stepped_of_advance hadv
    generalize (e.state (n + 1)).heap = h' at hstep
    cases hstep with
    | marked => exact ⟨hev.1.symm, hquiet⟩
    | unmarked => exact ⟨hev.1, hquiet⟩
  | removeMark => exact remove_evidence hin hlabel hpc hev hadv
  | removeUnlink => exact removeUnlink_evidence hpc hev hadv

end Position

/-- What a thread has seen stays seen while others step. -/
theorem Evidence.other (hev : Evidence e t op i n pc) (hpc : PcOk (e.state n).heap pc)
    (hnot : ∀ ev, e.label n ≠ some (t, ev)) : Evidence e t op i (n + 1) pc := by
  have hkeep : Keeps e t n := fun ev hl => absurd hl (hnot ev)
  cases pc with
  | idle => exact hev
  | ret => exact ⟨hev.1, hev.2.succ hkeep⟩
  | searchHead => exact CallerEvidence.succ hev hkeep
  | searchNext => exact ⟨hev.1.succ hkeep, hev.2.mono (Nat.le_succ n)⟩
  | searchUnlink => exact CallerEvidence.succ hev hkeep
  | searchCheck =>
    rcases hpc with ⟨-, -, hr, htail⟩
    refine ⟨hev.1.succ hkeep, fun hlt => (hev.2 ?_).mono (Nat.le_succ n)⟩
    rw [(published_between e (Nat.le_succ n) (hr.resolve_left htail).1).2] at hlt
    exact hlt
  | insertStore | insertCas | removeLoad | removeMark | removeUnlink => exact ⟨hev.1, hev.2.succ hkeep⟩

/-- The start of a call. -/
theorem invoke_evidence (hlabel : e.label i = some (t, .invoke op)) :
    Evidence e t op i (i + 1) ((e.state (i + 1)).pc t) := by
  have hinv := reachable_inv (e.reachable i)
  have hacted := acted_of_act (e.next i _ hlabel)
  have hquiet : Quiet e t i (i + 1) := by
    intro m hi hm ev hl
    obtain rfl : m = i := by omega
    generalize e.state (m + 1) = s' at hacted ⊢
    cases hacted with
    | invoke op hpc =>
      have hacted : Acted (e.state m) t (.invoke op) _ := .invoke op hpc
      exact (set_step hinv hacted).others fun key =>
        ⟨not_inserts (by simp [hpc]) key, not_marks (by simp [hpc]) key⟩
  generalize e.state (i + 1) = s' at hacted ⊢
  cases hacted with
  | invoke op hpc =>
    simp only [Function.update_self]
    cases op with
    | insert | remove | find => exact ⟨rfl, hquiet⟩

theorem call_evidence {j : ℕ} (hcall : Call e t op result i j) (hin : i < n) (hnj : n ≤ j) :
    Evidence e t op i n ((e.state n).pc t) := by
  induction n, Nat.succ_le_of_lt hin using Nat.le_induction with
  | base => exact invoke_evidence hcall.invoke
  | succ n hn ih =>
    have hev := ih hn (by omega)
    have hinv := reachable_inv (e.reachable n)
    cases hlabel : e.label n with
    | none =>
      have hother := hev.other (hinv.thread t) (by simp [hlabel])
      rw [e.stutter n hlabel]
      exact hother
    | some l =>
      rcases l with ⟨u, ev⟩
      have hacted := acted_of_act (e.next n _ hlabel)
      by_cases hut : u = t
      · subst hut
        generalize hs' : e.state (n + 1) = s' at hacted ⊢
        cases hacted with
        | invoke op' hpc =>
          -- the thread is in a call
          rw [hpc] at hev
          exact hev.elim
        | ret op' b hpc => exact absurd hlabel (hcall.inside n hn (by omega) b)
        | step h' pc' hadv =>
          simp only [Function.update_self]
          refine step_evidence hn hlabel (hinv.thread u) hev ?_
          rw [hs', hadv]
      · have hother := hev.other (hinv.thread t) (by simp [hlabel, hut])
        rcases hinv.moved hacted with ⟨o, pc', hmoved⟩
        rw [hmoved.pc_of_ne (Ne.symm hut)]
        exact hother

/-- Every completed call takes effect at one of its steps. -/
theorem call_linearized {j : ℕ} (hcall : Call e t op result i j) :
    ∃ m, LinearizedAt e t op result i j m := by
  have hev := call_evidence hcall hcall.lt le_rfl
  have hacted := acted_of_act (e.next j _ hcall.ret)
  generalize e.state (j + 1) = s' at hacted
  cases hacted with
  | ret op' b hpc =>
    rw [hpc] at hev
    exact hev.2

/-! ## Keys that nobody removes -/

omit [DecidableEq Tid] in
/-- A key goes only when a thread marks its node. -/
theorem SetStep.marks_of_lost (hstep : SetStep s t s') (hk : k ∈ keys s.heap)
    (hlost : k ∉ keys s'.heap) : Marks s t k := by
  by_cases hins : ∃ key, Inserts s t key
  · -- an insertion only adds
    rcases hins with ⟨key, hins⟩
    rw [(hstep.inserts key hins).2] at hlost
    exact absurd (Set.mem_insert_of_mem key hk) hlost
  · by_cases hmark : ∃ key, Marks s t key
    · rcases hmark with ⟨key, hmark⟩
      have hkeys := (hstep.marks key hmark).2
      by_cases heq : k = key
      · exact heq ▸ hmark
      · rw [hkeys] at hlost
        exact absurd ⟨hk, heq⟩ hlost
    · push Not at hins hmark
      rw [hstep.others fun key => ⟨hins key, hmark key⟩] at hlost
      exact absurd hk hlost

/-- Between a successful insertion of `k` by `t` and the effect of the next removal of `k`
by `t`, the key stays if no other thread removes `k`. -/
theorem kept_until_remove {i₁ j₁ i₂ j₂ m₁ m₂ : ℕ}
    (hlin₁ : LinearizedAt e t (.insert k) true i₁ j₁ m₁) (hret : e.label j₁ = some (t, .ret true))
    (hlin₂ : LinearizedAt e t (.remove k) result i₂ j₂ m₂) (hj₁ : j₁ < i₂)
    (hothers : ∀ n u, i₁ ≤ n → n ≤ j₂ → u ≠ t → ((e.state n).pc u).op ≠ some (.remove k))
    (hown : ∀ n, j₁ < n → n ≤ i₂ → ((e.state n).pc t).op ≠ some (.remove k)) :
    k ∈ keys (e.state m₂).heap := by
  have hm₁ := hlin₁.after
  have hm₁' := hlin₁.before
  have hm₂ := hlin₂.after
  have hm₂' := hlin₂.before
  have hfirst : k ∈ keys (e.state (m₁ + 1)).heap := by
    rw [hlin₁.sequential.2]
    exact Set.mem_insert _ _
  refine e.stable_between (P := fun s => k ∈ keys s.heap) (a := m₁ + 1) (by omega) ?_ hfirst
  intro n l hn hnm hlabel hk
  rcases l with ⟨u, ev⟩
  by_contra hlost
  have hstep := set_step (reachable_inv (e.reachable n)) (acted_of_act (e.next n _ hlabel))
  have hmarks := hstep.marks_of_lost hk hlost
  rcases hmarks with ⟨left, right, rightNext, hpc, -⟩
  have hop : ((e.state n).pc u).op = some (.remove k) := by
    rw [hpc]
    rfl
  by_cases hut : u = t
  · subst hut
    -- the step is one of the insertion, of its return, of a call in between or of the removal
    rcases Nat.lt_trichotomy n j₁ with hlt | rfl | hgt
    · rw [hlin₁.only n (by omega) hlt (by omega) ev hlabel] at hlost
      exact hlost hk
    · rw [hret] at hlabel
      have hacted := acted_of_act (e.next n _ hret)
      generalize e.state (n + 1) = s' at hacted
      cases hacted with
      | ret op' b hpc' =>
        rw [hpc'] at hpc
        cases hpc
    · by_cases hle : n ≤ i₂
      · exact hown n hgt hle hop
      · rw [hlin₂.only n (by omega) (by omega) (by omega) ev hlabel] at hlost
        exact hlost hk
  · exact hothers n u (by omega) (by omega) hut hop

/-- The lock-free list is a linearizable set.

* Only a successful insertion CAS and a successful mark CAS change the set; the first
  adds an absent key, the second deletes a present one.
* Every completed call has a step of its own at which the set goes through the sequential
  operation with the call's result, and no other step of the call changes the set.
* If `t` has inserted `k` and no other thread removes `k`, the next removal of `k` by `t`
  succeeds. -/
theorem linearizable_set :
    (∀ (s s' : State Tid) (t : Tid) (ev : Event), Reachable (system Tid) s →
      act (t, ev) s = some s' → SetStep s t s') ∧
    (∀ (e : Behavior (system Tid)) (t : Tid) (op : Op) (result : Bool) (i j : ℕ),
      Call e t op result i j → ∃ m, LinearizedAt e t op result i j m) ∧
    (∀ (e : Behavior (system Tid)) (t : Tid) (k : ℤ) (result : Bool) (i₁ j₁ i₂ j₂ : ℕ),
      Call e t (.insert k) true i₁ j₁ → Call e t (.remove k) result i₂ j₂ → j₁ < i₂ →
      (∀ n u, i₁ ≤ n → n ≤ j₂ → u ≠ t → ((e.state n).pc u).op ≠ some (.remove k)) →
      (∀ n, j₁ < n → n ≤ i₂ → ((e.state n).pc t).op ≠ some (.remove k)) → result = true) := by
  refine ⟨?_, ?_, ?_⟩
  · intro s s' t ev hr hact
    exact set_step (reachable_inv hr) (acted_of_act hact)
  · intro e t op result i j hcall
    exact call_linearized hcall
  · intro e t k result i₁ j₁ i₂ j₂ hinsert hremove hj₁ hothers hown
    rcases call_linearized hinsert with ⟨m₁, hlin₁⟩
    rcases call_linearized hremove with ⟨m₂, hlin₂⟩
    exact hlin₂.sequential.1.mpr (kept_until_remove hlin₁ hinsert.ret hlin₂ hj₁ hothers hown)

/-- Thread `true` inserts 5 and removes it again; `find(5)` of thread `false` overlaps the
insertion and misses it. -/
def insertFindRemove : Behavior (system Bool) :=
  .ofSchedule act (fun _ _ _ hact => hact) ⟨emptyList, fun _ => .idle⟩ init_idle
    [(true, .invoke (.insert 5)), (false, .invoke (.find 5)), (true, .step), (false, .step),
      (true, .step), (true, .step), (true, .ret true), (false, .ret false),
      (true, .invoke (.remove 5)), (true, .step), (true, .step), (true, .step), (true, .step),
      (true, .step), (true, .step), (true, .ret true)]

theorem linearizable_set_insertFindRemove :
    SetStep (insertFindRemove.state 5) true (insertFindRemove.state 6) ∧
    (∃ m, LinearizedAt insertFindRemove true (.insert 5) true 0 6 m) ∧
    (∃ m, LinearizedAt insertFindRemove false (.find 5) false 1 7 m) ∧
    (∃ result, Call insertFindRemove true (.remove 5) result 8 15 ∧ result = true) := by
  have hinsert : Call insertFindRemove true (.insert 5) true 0 6 := by
    refine ⟨by decide +kernel, by decide, by decide +kernel, ?_⟩
    have hinside : ∀ n < 6, ∀ b, insertFindRemove.label n ≠ some (true, .ret b) := by
      decide +kernel
    exact fun n _ hn => hinside n hn
  have hfind : Call insertFindRemove false (.find 5) false 1 7 := by
    refine ⟨by decide +kernel, by decide, by decide +kernel, ?_⟩
    have hinside : ∀ n < 7, ∀ b, insertFindRemove.label n ≠ some (false, .ret b) := by
      decide +kernel
    exact fun n _ hn => hinside n hn
  have hremove : Call insertFindRemove true (.remove 5) true 8 15 := by
    refine ⟨by decide +kernel, by decide, by decide +kernel, ?_⟩
    have hinside : ∀ n < 15, 8 < n → ∀ b, insertFindRemove.label n ≠ some (true, .ret b) := by
      decide +kernel
    exact fun n h8 hn => hinside n hn h8
  -- no other removal of the key is under way
  have hothers : ∀ n < 16, ((insertFindRemove.state n).pc false).op ≠ some (.remove 5) := by
    decide +kernel
  have hown : ∀ n < 9, 6 < n → ((insertFindRemove.state n).pc true).op ≠ some (.remove 5) := by
    decide +kernel
  refine ⟨?_, linearizable_set.2.1 _ _ _ _ _ _ hinsert, linearizable_set.2.1 _ _ _ _ _ _ hfind,
    true, hremove, ?_⟩
  · have hlabel : insertFindRemove.label 5 = some (true, .step) := by decide +kernel
    exact linearizable_set.1 _ _ _ _ (insertFindRemove.reachable 5) (insertFindRemove.next 5 _ hlabel)
  · refine linearizable_set.2.2 _ _ _ _ _ _ _ _ hinsert hremove (by decide) ?_ ?_
    · intro n u _ hn hu
      cases u with
      | false => exact hothers n (by omega)
      | true => exact absurd rfl hu
    · intro n h6 hn
      exact hown n (by omega) h6

end SysProg.LockFree
