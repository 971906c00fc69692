import Mathlib.Tactic
import SysProg.Lib.Loop
import SysProg.Concurrency.LockFreeRemoval

/-!
# `List::print` of the lock-free list

`print` follows the `next` pointers from `head`. It prints the key of a node before it looks at
its mark, and takes the pointer of a marked node with the mark bit in it.

* `Heap.deref` — a pointer with the mark bit is not the address of a node;
* `print` — the two loops, on a list that no thread changes meanwhile;
* `PrintsKeys` — the keys of the list in increasing order;
* `prints_keys_iff` — it prints them just when no node of the chain is marked;
* `print_quiet` — which is so when no operation is in progress.
-/

namespace SysProg.LockFree

open Lts Orbit

/-! ## The model -/

/-- The node behind a pointer, if it is the address of one. -/
def Heap.deref (h : Heap) (p : Link) : Option Node :=
  if p.marked = false ∧ p.ptr ≠ null ∧ p.ptr < h.fresh then some (h.node p.ptr) else none

/-- `print` is before the condition of its `for` loop, or of the `while` loop in it. -/
inductive PrintPc where
  | outer
  | inner
deriving DecidableEq, Repr

/-- The pointer `node`, and the keys printed so far. -/
structure PrintLoop where
  pc : PrintPc
  node : Link
  out : List ℤ
deriving DecidableEq, Repr

/-- One round of a loop. There is no result if a pointer is followed that is not the address
of a node. -/
def printStep (h : Heap) (s : PrintLoop) : PrintLoop ⊕ Option (List ℤ) :=
  match s.pc with
  | .outer =>
      if s.node = ⟨tail, false⟩ then .inr (some s.out)
      else
        match h.deref s.node with
        | none => .inr none
        | some node => .inl ⟨.inner, s.node, s.out ++ [node.key]⟩
  | .inner =>
      match h.deref s.node with
      | none => .inr none
      | some node => .inl ⟨if node.next.marked then .inner else .outer, node.next, s.out⟩

/-- `List::print` with a bound on the rounds: the keys it prints. -/
def print (rounds : ℕ) (h : Heap) : Option (Option (List ℤ)) :=
  Loop.run (printStep h) rounds ⟨.outer, h.next head, []⟩

/-- `print` ends, follows only addresses of nodes, and prints the keys of the list in order. -/
def PrintsKeys (h : Heap) : Prop :=
  ∃ rounds out, print rounds h = some (some out) ∧ out.Pairwise (· < ·) ∧
    ∀ k, k ∈ out ↔ k ∈ keys h

/-! ## Nodes on the way -/

variable {h : Heap} {x : ℕ} {out : List ℤ} {r : Option (List ℤ)}

/-- From this point on the loops end with this outcome. -/
def PrintEnds (h : Heap) (s : PrintLoop) (r : Option (List ℤ)) : Prop :=
  ∃ rounds, Loop.run (printStep h) rounds s = some r

theorem PrintEnds.step {s s' : PrintLoop} (hstep : printStep h s = .inl s')
    (hend : PrintEnds h s' r) : PrintEnds h s r := by
  rcases hend with ⟨rounds, hrun⟩
  exact ⟨rounds + 1, (Loop.run_succ_inl hstep).trans hrun⟩

section Published

variable (ok : HeapOk h) (hx : x ∈ h.published)
include ok hx

theorem HeapOk.deref_published : h.deref ⟨x, false⟩ = some (h.node x) := by
  rcases ok.bounds x hx with ⟨hgt, hlt⟩
  exact if_pos ⟨rfl, (Nat.zero_lt_of_lt hgt).ne', hlt⟩

/-- The key of a node is printed, and then its mark is looked at. -/
theorem printStep_outer (out : List ℤ) :
    printStep h ⟨.outer, ⟨x, false⟩, out⟩ = .inl ⟨.inner, ⟨x, false⟩, out ++ [h.key x]⟩ := by
  have htail : (⟨x, false⟩ : Link) ≠ ⟨tail, false⟩ := fun heq => ok.ne_tail hx (Link.mk.inj heq).1
  simp only [printStep, if_neg htail, ok.deref_published hx]
  rfl

theorem printStep_inner (out : List ℤ) : printStep h ⟨.inner, ⟨x, false⟩, out⟩ =
      .inl ⟨if (h.next x).marked then .inner else .outer, h.next x, out⟩ := by
  simp only [printStep, ok.deref_published hx]
  rfl

/-- Past an unmarked node. -/
theorem PrintEnds.unmarked (hmark : (h.next x).marked = false)
    (hend : PrintEnds h ⟨.outer, ⟨h.succ x, false⟩, out ++ [h.key x]⟩ r) :
    PrintEnds h ⟨.outer, ⟨x, false⟩, out⟩ r := by
  have hnext : h.next x = ⟨h.succ x, false⟩ := by
    rw [← hmark]
    rfl
  refine .step (printStep_outer ok hx out) (.step (printStep_inner ok hx _) ?_)
  simp only [hnext, Bool.false_eq_true, if_false]
  exact hend

/-- At a marked node the pointer behind it is followed with the mark bit. -/
theorem PrintEnds.marked (hmark : (h.next x).marked = true) (out : List ℤ) :
    PrintEnds h ⟨.outer, ⟨x, false⟩, out⟩ none := by
  refine .step (printStep_outer ok hx out) (.step (printStep_inner ok hx _) ⟨1, ?_⟩)
  refine Loop.run_succ_inr ?_
  simp [printStep, Heap.deref, hmark]

end Published

/-! ## Whole lists -/

/-- Without marked nodes the rest of the chain is printed. -/
theorem print_rest (ok : HeapOk h) (hall : ∀ x, OnChain h x → (h.next x).marked = false) (i : ℕ)
    (hi : h.succ^[i] x = tail) (hx : h.Target x) (hon : OnChain h x) (out : List ℤ) :
    ∃ rest, PrintEnds h ⟨.outer, ⟨x, false⟩, out⟩ (some (out ++ rest)) ∧ rest.Pairwise (· < ·) ∧
      ∀ k, k ∈ rest ↔ ∃ y, Reaches h.succ x y ∧ y ≠ tail ∧ h.key y = k := by
  -- on the number of steps to the tail
  induction i generalizing x out with
  | zero =>
    obtain rfl : x = tail := hi
    refine ⟨[], ⟨1, by simp [Loop.run, printStep]⟩, .nil, fun k => ?_⟩
    simp only [List.not_mem_nil, false_iff]
    rintro ⟨y, hy, hne, -⟩
    exact hne (ok.tail_of_reaches_tail hy)
  | succ i ih =>
    rcases hx with rfl | hpub
    · -- the tail is its own successor
      refine ih ?_ (.inl rfl) hon out
      rw [Function.iterate_succ_apply, ok.succ_tail] at hi
      exact hi
    · have hnext : OnChain h (h.succ x) := hon.trans (.step h.succ x)
      rcases ih hi (ok.target x (.inr hpub)) hnext (out ++ [h.key x]) with
        ⟨rest, hend, hsorted, hkeys⟩
      refine ⟨h.key x :: rest, ?_, List.pairwise_cons.mpr ⟨fun k hk => ?_, hsorted⟩, fun k => ?_⟩
      · have hpast := hend.unmarked ok hpub (hall x hon)
        rw [List.append_assoc, List.singleton_append] at hpast
        exact hpast
      · -- the keys increase along the chain
        rcases (hkeys k).mp hk with ⟨y, hy, hne, rfl⟩
        have hy' := ok.target_of_reaches (ok.target x (.inr hpub)) hy
        exact ok.key_lt hpub (hy'.resolve_left hne) hy
      · rw [List.mem_cons, hkeys]
        constructor
        · rintro (rfl | ⟨y, hy, hne, hk⟩)
          · exact ⟨x, .refl _ _, ok.ne_tail hpub, rfl⟩
          · exact ⟨y, (Reaches.step h.succ x).trans hy, hne, hk⟩
        · rintro ⟨y, hy, hne, rfl⟩
          rcases hy.cases_head with rfl | hy
          · exact .inl rfl
          · exact .inr ⟨y, hy, hne, rfl⟩

/-- A marked node ahead is reached, and then a marked pointer is followed. -/
theorem print_fails (ok : HeapOk h) (i : ℕ) (hmark : (h.next (h.succ^[i] x)).marked = true)
    (hx : h.Target x) (out : List ℤ) : PrintEnds h ⟨.outer, ⟨x, false⟩, out⟩ none := by
  induction i generalizing x out with
  | zero =>
    have hmark : (h.next x).marked = true := hmark
    rcases hx with rfl | hpub
    · rw [ok.tail] at hmark
      cases hmark
    · exact .marked ok hpub hmark out
  | succ i ih =>
    rcases hx with rfl | hpub
    · rw [Function.iterate_succ_apply, ok.succ_tail] at hmark
      exact ih hmark (.inl rfl) out
    · -- another marked node may come first
      cases hfirst : (h.next x).marked with
      | true => exact .marked ok hpub hfirst out
      | false => exact .unmarked ok hpub hfirst (ih hmark (ok.target x (.inr hpub)) _)

/-- The first pointer is not marked. -/
theorem HeapOk.next_head (ok : HeapOk h) : h.next LockFree.head = ⟨h.succ LockFree.head, false⟩ := by
  rw [← ok.head]
  rfl

theorem prints_of_unmarked (ok : HeapOk h) (hall : ∀ x, OnChain h x → (h.next x).marked = false) :
    PrintsKeys h := by
  have htarget := ok.target head (.inl rfl)
  rcases ok.reaches_tail htarget with ⟨i, hi⟩
  rcases print_rest ok hall i hi htarget (.step h.succ head) [] with ⟨out, ⟨rounds, hrun⟩, hsorted, hkeys⟩
  refine ⟨rounds, out, ?_, hsorted, fun k => ?_⟩
  · unfold print
    rw [ok.next_head]
    exact hrun
  · rw [hkeys]
    constructor
    · rintro ⟨y, hy, hne, rfl⟩
      have hon : OnChain h y := (Reaches.step h.succ head).trans hy
      exact ⟨y, hon, ok.target_ne_head (ok.target_of_reaches htarget hy), hne, hall y hon, rfl⟩
    · -- every node but the head is behind its successor
      rintro ⟨y, hon, hhead, hne, -, rfl⟩
      rcases hon.cases_head with heq | hy
      · exact absurd heq.symm hhead
      · exact ⟨y, hy, hne, rfl⟩

theorem not_prints_of_marked (ok : HeapOk h) (hon : OnChain h x) (hmark : (h.next x).marked = true) :
    ∃ rounds, print rounds h = some none := by
  rcases hon.cases_head with rfl | ⟨i, rfl⟩
  · rw [ok.head] at hmark
    cases hmark
  · rcases print_fails ok i hmark (ok.target head (.inl rfl)) [] with ⟨rounds, hrun⟩
    refine ⟨rounds, ?_⟩
    unfold print
    rw [ok.next_head]
    exact hrun

/-! ## Runs -/

section Threads

variable {Tid : Type} [DecidableEq Tid] {s : State Tid}

/-- In every reachable state `print` prints the keys of the list just when no node of the chain
is marked. -/
theorem prints_keys_iff (hr : Reachable (system Tid) s) :
    PrintsKeys s.heap ↔ ∀ x, OnChain s.heap x → (s.heap.next x).marked = false := by
  have ok := (reachable_inv hr).heap
  constructor
  · rintro ⟨rounds, out, hrun, -, -⟩ x hon
    by_contra hmark
    rcases not_prints_of_marked ok hon (by simpa using hmark) with ⟨rounds', hfails⟩
    -- the number of rounds does not matter to the result
    have heq := Loop.run_unique hrun hfails
    cases heq
  · exact prints_of_unmarked ok

/-- After the run, when no operation is in progress, the map can be printed. -/
theorem print_quiet (hr : Reachable (system Tid) s) (hidle : ∀ t, s.pc t = .idle) :
    PrintsKeys s.heap := by
  have hinv := reachable_removalInv hr
  refine prints_of_unmarked hinv.base.heap fun x hon => ?_
  by_contra hmark
  rcases hinv.marked x hon (by simpa using hmark) with ⟨t, ht⟩
  rw [hidle t] at ht
  cases ht

end Threads

/-- Before the removals of `removeBoth` two keys are printed, and after them none. -/
theorem prints_keys_removeBoth :
    (PrintsKeys (removeBoth.state 11).heap ↔ ∀ x, OnChain (removeBoth.state 11).heap x →
      ((removeBoth.state 11).heap.next x).marked = false) ∧
    print 10 (removeBoth.state 11).heap = some (some [3, 5]) ∧
    print 10 (removeBoth.state 33).heap = some (some []) := by
  refine ⟨prints_keys_iff (removeBoth.reachable 11), by decide +kernel, by decide +kernel⟩

/-- With one marked node in the list `print` follows its marked pointer. -/
theorem marked_pointer_followed :
    Reachable (system Bool) (insertRemove.state 11) ∧ OnChain (insertRemove.state 11).heap 3 ∧
      ((insertRemove.state 11).heap.next 3).marked = true ∧
      print 10 (insertRemove.state 11).heap = some none ∧ ¬ PrintsKeys (insertRemove.state 11).heap := by
  have hprint : print 10 (insertRemove.state 11).heap = some none := by decide +kernel
  refine ⟨insertRemove.reachable 11, ⟨1, by decide +kernel⟩, by decide +kernel, hprint, ?_⟩
  rintro ⟨rounds, out, hrun, -, -⟩
  have heq := Loop.run_unique hrun hprint
  cases heq

end SysProg.LockFree
