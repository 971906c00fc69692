import Mathlib.Tactic
import SysProg.Concurrency.LockFreeSet

/-!
# Marked nodes of the lock-free list

`remove` marks a node and then unlinks it. If the compare-and-swap for that fails, it leaves
the unlinking to another search for the key of the node.

* `Pc.removing` — the node that a call has marked and maybe not yet unlinked;
* `Seen` — what such a search knows from the unmarked link it has followed last;
* `advance_settles` — when the call is done with its node, the node is not on the chain;
* `RemovalInv` — every marked node of the chain is the node of some call;
* `marked_belongs` — and so in every behavior a marked node of the chain was marked by a call
  that has not returned.
-/

namespace SysProg.LockFree

open Lts Orbit

/-! ## Calls that have marked a node -/

/-- The node that the caller of a search has marked. -/
def Caller.removing : Caller → Option ℕ
  | .cleanup _ right => some right
  | _ => none

/-- The node that a call has marked, until the call knows that it is unlinked. -/
def Pc.removing : Pc → Option ℕ
  | .searchHead c | .searchNext c _ _ _ | .searchUnlink c _ _ _ | .searchCheck c _ _ => c.removing
  | .removeUnlink _ _ right _ => some right
  | _ => none

/-- If `x` is on the chain, it is `next` or comes behind it. -/
def Seen (h : Heap) (x next : ℕ) : Prop :=
  OnChain h x → next = x ∨ next ∈ h.published ∧ h.key next < h.key x

/-- What a search for a marked node knows about the link it has followed last from an
unmarked node. -/
def PcSeen (h : Heap) : Pc → Prop
  | .searchNext c _ next _ | .searchCheck c _ next => ∀ x, c.removing = some x → Seen h x next
  | _ => True

variable {h h' : Heap} {c : Caller} {pc pc' : Pc} {o : Option ℕ}
  {left leftNext next node right x : ℕ}

theorem CallerOk.removing (hc : CallerOk h c) (hx : c.removing = some x) :
    x ∈ h.published ∧ (h.next x).marked = true ∧ h.key x = c.key := by
  cases c with
  | cleanup => exact Option.some.inj hx ▸ hc
  | _ => cases hx

/-! ## What a link tells -/

/-- An unmarked node before the place of `x` is on the chain, so `x` can only be behind it. -/
theorem seen_of_link (ok : HeapOk h) (hx : x ∈ h.published) (hl : Before h (h.key x) left)
    (hlink : h.next left = ⟨next, false⟩) : Seen h x next := by
  intro hon
  have hsucc : h.succ left = next := by simp [Heap.succ, hlink]
  have hleft : OnChain h left := ok.onChain_of_listed hl.listed (by rw [hlink])
  rcases hleft.comparable hon with hr | hr
  · -- `x` is `left` or behind it
    rcases hr.cases_head with rfl | hr
    · rcases hl.key with heq | hlt
      · exact absurd heq (ok.ne_head hx)
      · exact absurd hlt (lt_irrefl _)
    · rw [hsucc] at hr
      rcases hr.cases_head with heq | hbehind
      · exact .inl heq
      · have htarget := ok.target left hl.listed
        rw [hsucc] at htarget
        rcases htarget with rfl | hpub
        · exact absurd (ok.tail_of_reaches_tail hr) (ok.ne_tail hx)
        · exact .inr ⟨hpub, ok.key_lt hpub hx hbehind⟩
  · -- keys grow along the chain, so `x` is not before `left`
    refine absurd hr (ok.not_reaches_back hl.listed (.inr hx) ?_)
    rcases hl.key with heq | hlt
    · exact .inl heq
    · exact .inr (.inr hlt)

/-- A link past the place of `x` that does not lead to `x` itself. -/
theorem Seen.off (hs : Seen h x next) (hr : Behind h (h.key x) next) (ok : HeapOk h) (hne : next ≠ x) :
    ¬ OnChain h x := by
  intro hon
  rcases hs hon with heq | ⟨hpub, hlt⟩
  · exact hne heq
  · rcases hr with rfl | ⟨-, hle⟩
    · exact ok.ne_tail hpub rfl
    · exact absurd hlt (not_lt.mpr hle)

/-- Keys do not change, and no node comes back onto the chain. -/
theorem Seen.stable (hs : Seen h x next) (hchange : Change h o h') (ok : HeapOk h)
    (hx : x ∈ h.published) : Seen h' x next := by
  intro hon
  rcases hs (hchange.onChain ok hx hon) with heq | ⟨hpub, hlt⟩
  · exact .inl heq
  · refine .inr ⟨(hchange.extends ok).published _ hpub, ?_⟩
    rw [key_stable hchange ok hpub, key_stable hchange ok hx]
    exact hlt

theorem PcSeen.stable (hs : PcSeen h pc) (hpc : PcOk h pc) (hchange : Change h o h')
    (ok : HeapOk h) : PcSeen h' pc := by
  cases pc with
  | searchNext | searchCheck => exact fun x hx => (hs x hx).stable hchange ok (hpc.1.removing hx).1
  | _ => trivial

/-! ## One step of a call -/

/-- The call that has marked `x` goes on with it, or `x` is not on the chain. -/
def Settles (h : Heap) (x : ℕ) (pc : Pc) : Prop :=
  pc.removing = some x ∨ ¬ OnChain h x

theorem searched_seen (h : Heap) (c : Caller) (left right : ℕ) :
    PcSeen h (searched h c left right) := by
  cases c with
  | insert | remove =>
    simp only [searched]
    split <;> trivial
  | cleanup => trivial
  | find => trivial

section Search

variable (ok : HeapOk h) (hc : CallerOk h c)
include ok hc

theorem check_settles (hr : Behind h c.key right)
    (hs : ∀ x, c.removing = some x → Seen h x right) :
    PcSeen h (check h c left right) ∧
      ∀ x, c.removing = some x → Settles h x (check h c left right) := by
  unfold check
  split
  · exact ⟨hs, fun x hx => .inl hx⟩
  · rename_i htail
    -- the search ends at the tail, so it has passed the place of `x`
    refine ⟨searched_seen _ _ _ _, fun x hx => .inr ?_⟩
    rcases hc.removing hx with ⟨hpub, -, hkey⟩
    refine (hs x hx).off (hkey ▸ hr) ok ?_
    rw [not_not.mp htail]
    exact (ok.ne_tail hpub).symm

theorem adjacent_settles (hr : Behind h c.key right)
    (hs : ∀ x, c.removing = some x → Seen h x leftNext) :
    PcSeen h (adjacent h c left leftNext right) ∧
      ∀ x, c.removing = some x → Settles h x (adjacent h c left leftNext right) := by
  unfold adjacent
  split
  · rename_i heq
    exact check_settles ok hc hr (heq ▸ hs)
  · exact ⟨trivial, fun x hx => .inl hx⟩

/-- The loop body. What was seen is forgotten when the node itself is not marked. -/
theorem visit_settles (hmarked : (h.next node).marked = true →
      ∀ x, c.removing = some x → Seen h x leftNext)
    (hunmarked : (h.next node).marked = false → Before h c.key node) :
    PcSeen h (visit h c left leftNext node (h.next node)) ∧
      ∀ x, c.removing = some x → Settles h x (visit h c left leftNext node (h.next node)) := by
  unfold visit
  cases hmark : (h.next node).marked with
  | true =>
    simp only [if_true]
    split
    · rename_i htail
      exact adjacent_settles ok hc (.inl htail) (hmarked hmark)
    · exact ⟨hmarked hmark, fun x hx => .inl hx⟩
  | false =>
    -- the link of an unmarked node shows what is behind it
    have hs : ∀ x, c.removing = some x → Seen h x (h.next node).ptr := by
      intro x hx
      rcases hc.removing hx with ⟨hpub, -, hkey⟩
      refine seen_of_link ok hpub (hkey ▸ hunmarked hmark) ?_
      rw [← hmark]
    simp only [Bool.false_eq_true, if_false]
    split
    · rename_i htail
      exact adjacent_settles ok hc (.inl htail) hs
    · exact ⟨hs, fun x hx => .inl hx⟩

end Search

/-- `search` bypasses marked nodes: the node is among them, was gone before, or is `right`. -/
theorem searchUnlink_settles (ok : HeapOk h) (hpc : PcOk h (.searchUnlink c left leftNext right))
    (hadv : advance h (.searchUnlink c left leftNext right) = some (h', pc')) :
    PcSeen h' pc' ∧ ∀ x, c.removing = some x → Settles h' x pc' := by
  rcases hpc with ⟨hc, hl, hd, hr⟩
  cases stepped_of_advance hadv with
  | bypass _ _ _ _ hlink =>
    have hchange := Change.unlink left leftNext right (unlinking_of_search hl hd hr hlink)
    have ok' := hchange.ok ok
    have hc' : CallerOk (h.store left ⟨right, false⟩) c := by
      refine hc.stable hchange ok fun x _ => ?_
      simp
    have hl' := hl.stable hchange ok
    refine check_settles ok' hc' (hr.stable hchange ok) fun x hx => ?_
    -- `left` points to `right` now
    rcases hc'.removing hx with ⟨hpub, -, hkey⟩
    exact seen_of_link ok' hpub (hkey ▸ hl') (by simp)
  | bypassFails => exact ⟨trivial, fun x hx => .inl hx⟩

/-- `search` returns if `right` is not marked, so `right` is not the node. -/
theorem searchCheck_settles (ok : HeapOk h) (hpc : PcOk h (.searchCheck c left right))
    (hs : PcSeen h (.searchCheck c left right))
    (hadv : advance h (.searchCheck c left right) = some (h', pc')) :
    PcSeen h' pc' ∧ ∀ x, c.removing = some x → Settles h' x pc' := by
  rcases hpc with ⟨hc, -, hr, -⟩
  cases stepped_of_advance hadv with
  | again => exact ⟨trivial, fun x hx => .inl hx⟩
  | found _ _ _ hmark =>
    refine ⟨searched_seen _ _ _ _, fun x hx => .inr ?_⟩
    rcases hc.removing hx with ⟨-, hxmark, hkey⟩
    refine (hs x hx).off (hkey ▸ hr) ok ?_
    rintro rfl
    rw [hxmark] at hmark
    cases hmark

/-- `remove` bypasses its node, or leaves that to a search. -/
theorem removeUnlink_settles {key : ℤ} {rightNext : ℕ} (ok : HeapOk h)
    (hpc : PcOk h (.removeUnlink key left right rightNext))
    (hadv : advance h (.removeUnlink key left right rightNext) = some (h', pc')) :
    PcSeen h' pc' ∧ Settles h' right pc' := by
  rcases hpc with ⟨hl, hpub, hkey, hnext⟩
  cases stepped_of_advance hadv with
  | unlink _ _ _ _ hlink =>
    have hunl := unlinking_of_remove ok hl hpub hkey hnext hlink
    have hchange := Change.unlink left right rightNext hunl
    have ok' := hchange.ok ok
    have hsucc : h.succ right = rightNext := by simp [Heap.succ, hnext]
    have hseen : Seen (h.store left ⟨rightNext, false⟩) right rightNext := by
      have hl' : Before (h.store left ⟨rightNext, false⟩)
          ((h.store left ⟨rightNext, false⟩).key right) left := by
        rw [store_key, hkey]
        exact hl.stable hchange ok
      exact seen_of_link ok' hpub hl' (by simp)
    refine ⟨trivial, .inr fun hon => ?_⟩
    -- the successor has a larger key, or is the tail
    have hlt : rightNext ∈ h.published → h.key right < h.key rightNext := by
      intro hmem
      rw [← hsucc] at hmem ⊢
      exact ok.sorted right hpub hmem
    rcases hseen hon with rfl | ⟨hmem, hless⟩
    · exact absurd (hlt hpub) (lt_irrefl _)
    · rw [store_key, store_key] at hless
      exact absurd (hlt hmem) hless.not_gt
  | unlinkFails => exact ⟨trivial, .inl rfl⟩

/-- A call gives up its node only when it is not on the chain any more. -/
theorem advance_settles (ok : HeapOk h) (hpc : PcOk h pc) (hs : PcSeen h pc)
    (hadv : advance h pc = some (h', pc')) :
    PcSeen h' pc' ∧ ∀ x, pc.removing = some x → Settles h' x pc' := by
  cases stepped_of_advance hadv with
  | first =>
    refine visit_settles ok hpc ?_ fun _ => ⟨.inl rfl, .inl rfl⟩
    intro hmark
    rw [ok.head] at hmark
    cases hmark
  | next c left leftNext node hcond =>
    rcases hpc with ⟨hc, hl, hd, hpub⟩
    refine visit_settles ok hc (fun _ => hs) fun hmark => ?_
    refine ⟨.inr hpub, .inr (hcond.resolve_left ?_)⟩
    simp [hmark]
  | leave c left leftNext node hmark hkey =>
    rcases hpc with ⟨hc, hl, hd, hpub⟩
    exact adjacent_settles ok hc (.inr ⟨hpub, hkey⟩) hs
  | bypass | bypassFails => exact searchUnlink_settles ok hpc hadv
  | again | found => exact searchCheck_settles ok hpc hs hadv
  | unlink | unlinkFails =>
    rcases removeUnlink_settles ok hpc hadv with ⟨hseen, hsettles⟩
    exact ⟨hseen, fun x hx => Option.some.inj hx ▸ hsettles⟩
  | _ => exact ⟨trivial, fun x hx => nomatch hx⟩

/-- The step by which `remove` marks a node. -/
structure MarkStep (h : Heap) (pc : Pc) (h' : Heap) (pc' : Pc) (x : ℕ) : Prop where
  pc : ∃ key left rightNext, pc = .removeMark key left x rightNext ∧
    pc' = .removeUnlink key left x rightNext ∧ h' = h.store x ⟨rightNext, true⟩
  unmarked : (h.next x).marked = false

theorem store_unmarked (h : Heap) (y z x : ℕ) :
    (h.store y ⟨z, false⟩).next x = h.next x ∨ ((h.store y ⟨z, false⟩).next x).marked = false := by
  rw [store_next]
  split
  · exact .inr rfl
  · exact .inl rfl

/-- Every other step leaves a link as it was, or without a mark. -/
theorem advance_next (hadv : advance h pc = some (h', pc')) :
    (∀ x, h'.next x = h.next x ∨ (h'.next x).marked = false) ∨ ∃ x, MarkStep h pc h' pc' x := by
  cases stepped_of_advance hadv with
  | bypass | store | insert => exact .inl (store_unmarked h _ _)
  | mark key left right rightNext hlink =>
    exact .inr ⟨right, ⟨key, left, rightNext, rfl, rfl, rfl⟩, by rw [hlink]⟩
  | unlink => exact .inl (store_unmarked h _ _)
  -- all other steps are loads, or compare-and-swaps that fail
  | _ => exact .inl fun x => .inl rfl

/-- A node that a step marks is the node of the call from then on. -/
theorem advance_marks (hold : (h.next x).marked = false) (hnew : (h'.next x).marked = true)
    (hadv : advance h pc = some (h', pc')) : MarkStep h pc h' pc' x := by
  rcases advance_next hadv with hnext | ⟨y, hmark⟩
  · rcases hnext x with heq | hfalse
    · rw [heq, hold] at hnew
      cases hnew
    · rw [hfalse] at hnew
      cases hnew
  · rcases hmark.pc with ⟨key, left, rightNext, -, -, rfl⟩
    rw [store_next] at hnew
    split at hnew
    · rename_i heq
      exact heq ▸ hmark
    · rw [hold] at hnew
      cases hnew

theorem MarkStep.removing (hmark : MarkStep h pc h' pc' x) : pc'.removing = some x := by
  rcases hmark.pc with ⟨key, left, rightNext, -, rfl, -⟩
  rfl

/-! ## All threads -/

section Threads

variable {Tid : Type} [DecidableEq Tid] {s s' : State Tid} {t : Tid} {ev : Event}

/-- Every marked node of the chain is the node of some call. -/
structure RemovalInv (s : State Tid) : Prop where
  base : Inv s
  seen : ∀ t, PcSeen s.heap (s.pc t)
  marked : ∀ x, OnChain s.heap x → (s.heap.next x).marked = true →
    ∃ t, (s.pc t).removing = some x

/-- A marked node of the chain is not one of the sentinels. -/
theorem HeapOk.published_of_marked (ok : HeapOk h) (hon : OnChain h x)
    (hmark : (h.next x).marked = true) : x ∈ h.published := by
  rcases ok.onChain_cases hon with rfl | rfl | hpub
  · rw [ok.head] at hmark
    cases hmark
  · rw [ok.tail] at hmark
    cases hmark
  · exact hpub

/-- A marked node was on the chain before a step, with or without the mark. -/
theorem Change.marked_before (hchange : Change h o h') (ok : HeapOk h) (hon : OnChain h' x)
    (hmark : (h'.next x).marked = true) : x ∈ h.published ∧ OnChain h x := by
  have hpub' := (hchange.ok ok).published_of_marked hon hmark
  have hpub : x ∈ h.published := by
    cases hchange with
    | insert y left right ins =>
      rcases List.mem_cons.mp hpub' with rfl | hpub
      · -- the node that is linked in has no mark
        rw [publish_next, store_next, if_neg ins.ne, ins.next] at hmark
        cases hmark
      · exact hpub
    | none | create | store | unlink | mark => exact hpub'
  exact ⟨hpub, hchange.onChain ok hpub hon⟩

/-- The step of a thread that has no node leaves the nodes of the others to them. -/
theorem RemovalInv.quiet (hinv : RemovalInv s) (hacted : Acted s t ev s')
    (hheap : ∀ x ∈ s.heap.published, s'.heap.next x = s.heap.next x)
    (hpc : (s.pc t).removing = none) (hseen : PcSeen s'.heap (s'.pc t)) : RemovalInv s' := by
  rcases hinv.base.moved hacted with ⟨o, pc', hmoved⟩
  refine ⟨hinv.base.step hacted, fun u => ?_, fun x hon hmark => ?_⟩
  · by_cases hu : u = t
    · exact hu ▸ hseen
    · rw [hmoved.pc_of_ne hu]
      exact (hinv.seen u).stable (hinv.base.thread u) hmoved.change hinv.base.heap
  · rcases hmoved.change.marked_before hinv.base.heap hon hmark with ⟨hpub, hold⟩
    rw [hheap x hpub] at hmark
    rcases hinv.marked x hold hmark with ⟨u, hu⟩
    -- `t` has no node before the step
    have hut : u ≠ t := by
      rintro rfl
      rw [hpc] at hu
      cases hu
    exact ⟨u, (hmoved.pc_of_ne hut).symm ▸ hu⟩

theorem RemovalInv.step (hinv : RemovalInv s) (hacted : Acted s t ev s') : RemovalInv s' := by
  -- `cases` below forgets the step itself
  have hacted' := hacted
  cases hacted with
  | invoke op hpc =>
    refine hinv.quiet hacted' (fun x hx => ?_) (by rw [hpc]; rfl) ?_
    · cases op with
      | insert =>
        have hne : x ≠ s.heap.fresh := (hinv.base.heap.bounds x hx).2.ne
        simp [start, Heap.next, create_node hne]
      | remove => rfl
      | find => rfl
    · simp only [Function.update_self]
      cases op <;> trivial
  | ret op result hpc =>
    refine hinv.quiet hacted' (fun _ _ => rfl) (by rw [hpc]; rfl) ?_
    simp only [Function.update_self]
    trivial
  | step h' pc' hadv =>
    have hok := hinv.base.heap
    have hthread := hinv.base.thread t
    rcases advance_spec hok hthread hadv with ⟨⟨o, -, hchange⟩, -, -⟩
    rcases advance_settles hok hthread (hinv.seen t) hadv with ⟨hseen, hsettles⟩
    refine ⟨hinv.base.step hacted', ?_, fun x hon hmark => ?_⟩
    · refine (Function.forall_update_iff s.pc fun _ pc => PcSeen h' pc).mpr ⟨hseen, fun u _ => ?_⟩
      exact (hinv.seen u).stable (hinv.base.thread u) hchange hok
    · refine (Function.exists_update_iff s.pc fun _ pc => pc.removing = some x).mpr ?_
      rcases hchange.marked_before hok hon hmark with ⟨-, hold⟩
      cases hbefore : (s.heap.next x).marked with
      | false =>
        -- the thread has marked the node just now
        exact .inl (advance_marks hbefore hmark hadv).removing
      | true =>
        rcases hinv.marked x hold hbefore with ⟨u, hu⟩
        by_cases hut : u = t
        · -- `x` is on the chain, so the call still has it
          exact .inl ((hsettles x (hut ▸ hu)).resolve_right (not_not.mpr hon))
        · exact .inr ⟨u, hut, hu⟩

theorem reachable_removalInv (hr : Reachable (system Tid) s) : RemovalInv s := by
  refine hr.invariant ?_ ?_
  · intro s hs
    have hbase := reachable_inv (.init hs)
    rcases hs with ⟨hheap, hpc⟩
    refine ⟨hbase, fun t => by rw [hpc]; trivial, fun x hon hmark => ?_⟩
    have hpub := hbase.heap.published_of_marked hon hmark
    rw [hheap] at hpub
    cases hpub
  · intro l s s' hinv hnext
    exact hinv.step (acted_of_act hnext)

/-! ## Behaviors -/

/-- Thread `t` has called `remove` at position `i`, has marked `x` at position `m`, and has not
returned before position `n`. -/
structure PendingRemove (e : Behavior (system Tid)) (t : Tid) (x i m n : ℕ) : Prop where
  invoke : ∃ key, e.label i = some (t, .invoke (.remove key))
  after : i < m
  before : m < n
  step : e.label m = some (t, .step)
  marks : ((e.state m).heap.next x).marked = false ∧ ((e.state (m + 1)).heap.next x).marked = true
  inside : ∀ j, i < j → j < n → ∀ b, e.label j ≠ some (t, .ret b)

/-- Thread `t` has called `op` at position `i` and has not returned before position `n`. -/
structure Calling (e : Behavior (system Tid)) (t : Tid) (op : Op) (i n : ℕ) : Prop where
  invoke : e.label i = some (t, .invoke op)
  before : i < n
  inside : ∀ j, i < j → j < n → ∀ b, e.label j ≠ some (t, .ret b)

variable {e : Behavior (system Tid)} {op : Op} {i m n : ℕ}

theorem Calling.succ (hcall : Calling e t op i n) (hn : ∀ b, e.label n ≠ some (t, .ret b)) :
    Calling e t op i (n + 1) := by
  refine ⟨hcall.invoke, hcall.before.trans (Nat.lt_succ_self n), fun j hij hj b => ?_⟩
  rcases Nat.lt_succ_iff_lt_or_eq.mp hj with hlt | rfl
  · exact hcall.inside j hij hlt b
  · exact hn b

theorem PendingRemove.succ (hrem : PendingRemove e t x i m n)
    (hn : ∀ b, e.label n ≠ some (t, .ret b)) : PendingRemove e t x i m (n + 1) := by
  refine ⟨hrem.invoke, hrem.after, hrem.before.trans (Nat.lt_succ_self n), hrem.step, hrem.marks,
    fun j hij hj b => ?_⟩
  rcases Nat.lt_succ_iff_lt_or_eq.mp hj with hlt | rfl
  · exact hrem.inside j hij hlt b
  · exact hn b

theorem searched_op (h : Heap) (c : Caller) (left right : ℕ) :
    (searched h c left right).op = some c.op := by
  cases c with
  | insert | remove =>
    simp only [searched]
    split <;> rfl
  | cleanup => rfl
  | find => rfl

theorem SearchGoes.pc_op (hgoes : SearchGoes h c pc) : pc.op = some c.op := by
  cases hgoes with
  | done left right => exact searched_op h c left right
  | _ => rfl

/-- A step belongs to the operation that was called. -/
theorem advance_op (hpc : PcOk h pc) (hadv : advance h pc = some (h', pc')) : pc'.op = pc.op := by
  cases stepped_of_advance hadv with
  | first | next => exact (visit_goes _ _ _ _ _ _).pc_op
  | leave => exact (adjacent_goes _ _ _ _ _).pc_op
  | bypass => exact (check_goes _ _ _ _).pc_op
  | found => exact searched_op _ _ _ _
  | unlinkFails key left right rightNext hlink =>
    -- the search is for the key of the node, which is the key of the call
    show some (Op.remove (h.key right)) = some (.remove key)
    rw [hpc.2.2.1]
  | _ => rfl

theorem SearchGoes.removing (hgoes : SearchGoes h c pc) (hx : pc.removing = some x) :
    c.removing = some x := by
  cases hgoes with
  | done =>
    exfalso
    cases c with
    | insert key insertion | remove key =>
      simp only [searched] at hx
      split at hx <;> cases hx
    | cleanup => cases hx
    | find => cases hx
  | _ => exact hx

/-- A step makes no node the node of a call, unless it marks it. -/
theorem advance_removing (hadv : advance h pc = some (h', pc')) (hx : pc'.removing = some x) :
    pc.removing = some x ∨ MarkStep h pc h' pc' x := by
  cases stepped_of_advance hadv with
  | first | next => exact .inl ((visit_goes _ _ _ _ _ _).removing hx)
  | leave => exact .inl ((adjacent_goes _ _ _ _ _).removing hx)
  | bypass => exact .inl ((check_goes _ _ _ _).removing hx)
  | found => exact .inl ((SearchGoes.done _ _).removing hx)
  | bypassFails | again | unlinkFails => exact .inl hx
  | mark key left right rightNext hlink =>
    rcases Option.some.inj hx with rfl
    exact .inr ⟨⟨key, left, rightNext, rfl, rfl, rfl⟩, by rw [hlink]⟩
  -- the other steps lead to points at which no node is marked
  | _ => cases hx

/-- What a position and the next one have in common for a thread that does not move. -/
theorem pc_other (hl : ∀ ev, e.label n ≠ some (t, ev)) : (e.state (n + 1)).pc t = (e.state n).pc t := by
  cases hlabel : e.label n with
  | none => rw [e.stutter n hlabel]
  | some l =>
    rcases l with ⟨u, ev⟩
    have hut : t ≠ u := by
      rintro rfl
      exact hl ev hlabel
    rcases (reachable_inv (e.reachable n)).moved (acted_of_act (e.next n _ hlabel)) with ⟨o, pc', hmoved⟩
    exact hmoved.pc_of_ne hut

/-- A thread in the middle of an operation has called it and has not returned. -/
theorem calling_of_op (n : ℕ) (hop : ((e.state n).pc t).op = some op) : ∃ i, Calling e t op i n := by
  induction n with
  | zero =>
    rw [e.init.2 t] at hop
    cases hop
  | succ n ih =>
    by_cases hl : ∃ ev, e.label n = some (t, ev)
    · rcases hl with ⟨ev, hlabel⟩
      have hacted := acted_of_act (e.next n _ hlabel)
      have hinv := reachable_inv (e.reachable n)
      generalize hs' : e.state (n + 1) = s' at hacted hop
      cases hacted with
      | invoke op' hpc =>
        simp only [Function.update_self] at hop
        have hop' : op' = op := by
          cases op' <;> exact Option.some.inj hop
        subst hop'
        -- the call starts here
        refine ⟨n, hlabel, Nat.lt_succ_self n, fun j hij hj => ?_⟩
        omega
      | step h' pc' hadv =>
        simp only [Function.update_self] at hop
        rw [advance_op (hinv.thread t) hadv] at hop
        rcases ih hop with ⟨i, hcall⟩
        exact ⟨i, hcall.succ (by simp [hlabel])⟩
      | ret =>
        simp only [Function.update_self] at hop
        cases hop
    · have hl' : ∀ ev, e.label n ≠ some (t, ev) := fun ev hev => hl ⟨ev, hev⟩
      rw [pc_other hl'] at hop
      rcases ih hop with ⟨i, hcall⟩
      exact ⟨i, hcall.succ fun b => hl' _⟩

/-- The node of a call has been marked by the call. -/
theorem pending_of_removing (n : ℕ) (hx : ((e.state n).pc t).removing = some x) :
    ∃ i m, PendingRemove e t x i m n := by
  induction n with
  | zero =>
    rw [e.init.2 t] at hx
    cases hx
  | succ n ih =>
    by_cases hl : ∃ ev, e.label n = some (t, ev)
    · rcases hl with ⟨ev, hlabel⟩
      have hacted := acted_of_act (e.next n _ hlabel)
      generalize hs' : e.state (n + 1) = s' at hacted hx
      cases hacted with
      | invoke op' hpc =>
        simp only [Function.update_self] at hx
        cases op' <;> cases hx
      | step h' pc' hadv =>
        simp only [Function.update_self] at hx
        rcases advance_removing hadv hx with hold | hmark
        · rcases ih hold with ⟨i, m, hrem⟩
          exact ⟨i, m, hrem.succ (by simp [hlabel])⟩
        · -- the node gets its mark here, in a call that has started before
          rcases hmark.pc with ⟨key, left, rightNext, hpc, -, rfl⟩
          have hop : ((e.state n).pc t).op = some (.remove key) := by
            rw [hpc]
            rfl
          rcases calling_of_op n hop with ⟨i, hcall⟩
          have hcall' := hcall.succ (by simp [hlabel])
          refine ⟨i, n, ⟨key, hcall.invoke⟩, hcall.before, Nat.lt_succ_self n, hlabel,
            ⟨hmark.unmarked, ?_⟩, hcall'.inside⟩
          rw [hs']
          simp
      | ret =>
        simp only [Function.update_self] at hx
        cases hx
    · have hl' : ∀ ev, e.label n ≠ some (t, ev) := fun ev hev => hl ⟨ev, hev⟩
      rw [pc_other hl'] at hx
      rcases ih hx with ⟨i, m, hrem⟩
      exact ⟨i, m, hrem.succ fun b => hl' _⟩

/-- Every marked node that is still on the chain was marked by a call of `remove` that has not
returned. So when no operation is in progress no node of the chain is marked. -/
theorem marked_belongs :
    (∀ (e : Behavior (system Tid)) (n x : ℕ), OnChain (e.state n).heap x →
      ((e.state n).heap.next x).marked = true → ∃ t i m, PendingRemove e t x i m n) ∧
    (∀ s : State Tid, Reachable (system Tid) s → ∀ x, OnChain s.heap x →
      (s.heap.next x).marked = true → ∃ t, (s.pc t).removing = some x) ∧
    ∀ s : State Tid, Reachable (system Tid) s → (∀ t, s.pc t = .idle) → ∀ x, OnChain s.heap x →
      (s.heap.next x).marked = false := by
  refine ⟨?_, ?_, ?_⟩
  · intro e n x hon hmark
    rcases (reachable_removalInv (e.reachable n)).marked x hon hmark with ⟨t, ht⟩
    exact ⟨t, pending_of_removing n ht⟩
  · intro s hr x hon hmark
    exact (reachable_removalInv hr).marked x hon hmark
  · intro s hr hidle x hon
    by_contra hmark
    rcases (reachable_removalInv hr).marked x hon (by simpa using hmark) with ⟨t, ht⟩
    -- an idle thread has no node
    rw [hidle t] at ht
    cases ht

end Threads

/-- Thread `true` inserts 3 and 5 and marks the node of 5. Then thread `false` marks the node of
3, so that the compare-and-swap of `true` at position 24 fails, and the search of `true` unlinks
both nodes. -/
def removeBoth : Behavior (system Bool) :=
  .ofSchedule act (fun _ _ _ hact => hact) ⟨emptyList, fun _ => .idle⟩ init_idle
    ([(true, Event.invoke (.insert 3)), (true, .step), (true, .step), (true, .step),
      (true, .ret true), (true, .invoke (.insert 5)), (true, .step), (true, .step), (true, .step),
      (true, .step), (true, .ret true), (true, .invoke (.remove 5))] ++
      List.replicate 6 (true, Event.step) ++ [(false, Event.invoke (.remove 3))] ++
      List.replicate 5 (false, Event.step) ++ List.replicate 5 (true, Event.step) ++
      [(true, Event.ret true)] ++ List.replicate 2 (false, Event.step) ++
      [(false, Event.ret true)])

theorem marked_belongs_removeBoth :
    (∃ t i m, PendingRemove removeBoth t 3 i m 25) ∧ (∃ t i m, PendingRemove removeBoth t 4 i m 25) ∧
      (∃ t, ((removeBoth.state 25).pc t).removing = some 4) ∧
      ∀ x, OnChain (removeBoth.state 33).heap x → ((removeBoth.state 33).heap.next x).marked = false := by
  have hthree : OnChain (removeBoth.state 25).heap 3 := ⟨1, by decide +kernel⟩
  have hfour : OnChain (removeBoth.state 25).heap 4 := ⟨2, by decide +kernel⟩
  have hidle : ∀ t, (removeBoth.state 33).pc t = .idle := by decide +kernel
  refine ⟨marked_belongs.1 removeBoth 25 3 hthree (by decide +kernel),
    marked_belongs.1 removeBoth 25 4 hfour (by decide +kernel),
    marked_belongs.2.1 _ (removeBoth.reachable 25) 4 hfour (by decide +kernel),
    marked_belongs.2.2 _ (removeBoth.reachable 33) hidle⟩

end SysProg.LockFree
