import Mathlib.Tactic
import SysProg.Concurrency.LockFreeChain

/-!
# Runs of the lock-free list

* `PcOk` — what a thread knows about the nodes in its local variables;
* `advance_spec` — the next step of a thread is one of the changes of `Change`;
* `Inv` — the invariant of all reachable states;
* `chain_invariant` — the chain from `head` ends at `tail` with growing keys, contains
  every published node that is not marked, and nodes that left it stay away.
-/

namespace SysProg.LockFree

open Lts Orbit

/-- `left` is a node of the list before the place of `k`. -/
structure Before (h : Heap) (k : ℤ) (left : ℕ) : Prop where
  listed : h.Listed left
  key : left = head ∨ h.key left < k

/-- `right` is the tail or a published node at or behind the place of `k`. -/
def Behind (h : Heap) (k : ℤ) (right : ℕ) : Prop :=
  right = tail ∨ right ∈ h.published ∧ k ≤ h.key right

/-- `x` is a new node with key `k` that has not been published. -/
structure Private (h : Heap) (k : ℤ) (x : ℕ) : Prop where
  unpublished : x ∉ h.published
  gt : tail < x
  lt : x < h.fresh
  key : h.key x = k

def CallerOk (h : Heap) : Caller → Prop
  | .insert key insertion => Private h key insertion
  | .cleanup key right => right ∈ h.published ∧ (h.next right).marked = true ∧ h.key right = key
  | .remove _ | .find _ => True

/-- What a thread knows at each point of a call. -/
def PcOk (h : Heap) : Pc → Prop
  | .idle | .ret _ _ => True
  | .searchHead c => CallerOk h c
  | .searchNext c left leftNext node =>
      CallerOk h c ∧ Before h c.key left ∧ Dead h leftNext node ∧ node ∈ h.published
  | .searchUnlink c left leftNext right =>
      CallerOk h c ∧ Before h c.key left ∧ Dead h leftNext right ∧ Behind h c.key right
  | .searchCheck c left right =>
      CallerOk h c ∧ Before h c.key left ∧ Behind h c.key right ∧ right ≠ tail
  | .insertStore key insertion left right =>
      Private h key insertion ∧ Before h key left ∧
        (right = tail ∨ right ∈ h.published ∧ key < h.key right)
  | .insertCas key insertion left right =>
      Private h key insertion ∧ Before h key left ∧
        (right = tail ∨ right ∈ h.published ∧ key < h.key right) ∧
        h.next insertion = ⟨right, false⟩
  | .removeLoad key left right | .removeMark key left right _ =>
      Before h key left ∧ right ∈ h.published ∧ h.key right = key
  | .removeUnlink key left right rightNext =>
      Before h key left ∧ right ∈ h.published ∧ h.key right = key ∧
        h.next right = ⟨rightNext, true⟩

/-- The unpublished node of the caller. -/
def Caller.owned : Caller → Option ℕ
  | .insert _ insertion => some insertion
  | _ => none

/-- The unpublished node of a thread. -/
def Pc.owned : Pc → Option ℕ
  | .searchHead c | .searchNext c _ _ _ | .searchUnlink c _ _ _ | .searchCheck c _ _ => c.owned
  | .insertStore _ insertion _ _ | .insertCas _ insertion _ _ => some insertion
  | _ => none

variable {h h' : Heap} {c : Caller} {pc pc' : Pc} {o : Option ℕ} {left leftNext node right x : ℕ}
  {k : ℤ}

/-! ## What stays true when other threads step -/

section Stable

variable (hchange : Change h o h') (ok : HeapOk h)
include hchange ok

theorem Before.stable (hl : Before h k left) : Before h' k left := by
  have hext := hchange.extends ok
  constructor
  · rcases hl.listed with heq | hpub
    · exact .inl heq
    · exact .inr (hext.published _ hpub)
  · rcases hl.key with heq | hlt
    · exact .inl heq
    · rcases hl.listed with heq | hpub
      · exact .inl heq
      · right
        rw [hext.key _ (ok.bounds _ hpub).2]
        exact hlt

theorem key_stable (hx : x ∈ h.published) : h'.key x = h.key x :=
  (hchange.extends ok).key x (ok.bounds x hx).2

theorem Behind.stable (hr : Behind h k right) : Behind h' k right := by
  rcases hr with heq | ⟨hpub, hle⟩
  · exact .inl heq
  · refine .inr ⟨(hchange.extends ok).published _ hpub, ?_⟩
    rw [key_stable hchange ok hpub]
    exact hle

theorem above_stable (hr : right = tail ∨ right ∈ h.published ∧ k < h.key right) :
    right = tail ∨ right ∈ h'.published ∧ k < h'.key right := by
  rcases hr with heq | ⟨hpub, hlt⟩
  · exact .inl heq
  · refine .inr ⟨(hchange.extends ok).published _ hpub, ?_⟩
    rw [key_stable hchange ok hpub]
    exact hlt

theorem Dead.stable (hd : Dead h left right) : Dead h' left right := by
  have hext := hchange.extends ok
  induction hd with
  | refl => exact .refl
  | @snoc y _ hpub hmark ih =>
    -- the link of a marked node does not change any more
    have hfrozen := hext.frozen y hpub hmark
    have hsucc : h'.succ y = h.succ y := by simp [Heap.succ, hfrozen]
    rw [← hsucc]
    exact ih.snoc (hext.published y hpub) (by rw [hfrozen]; exact hmark)

theorem Private.stable (hx : Private h k x) (ho : o ≠ some x) :
    Private h' k x ∧ h'.next x = h.next x := by
  rcases hchange.unpublished hx.unpublished hx.gt hx.lt ho with ⟨hpub, hnext⟩
  have hext := hchange.extends ok
  exact ⟨⟨hpub, hx.gt, hx.lt.trans_le hext.fresh, by rw [hext.key x hx.lt]; exact hx.key⟩, hnext⟩

theorem CallerOk.stable (hc : CallerOk h c) (ho : ∀ x, c.owned = some x → o ≠ some x) :
    CallerOk h' c := by
  cases c with
  | insert => exact (Private.stable hchange ok hc (ho _ rfl)).1
  | remove => trivial
  | cleanup =>
    rcases hc with ⟨hpub, hmark, hkey⟩
    have hext := hchange.extends ok
    refine ⟨hext.published _ hpub, ?_, ?_⟩
    · rw [hext.frozen _ hpub hmark]
      exact hmark
    · rw [key_stable hchange ok hpub]
      exact hkey
  | find => trivial

/-- What a thread knows survives a step that does not use the thread's own new node. -/
theorem PcOk.stable (hpc : PcOk h pc) (ho : ∀ x, pc.owned = some x → o ≠ some x) : PcOk h' pc := by
  have hext := hchange.extends ok
  cases pc with
  | idle => trivial
  | ret => trivial
  | searchHead => exact CallerOk.stable hchange ok hpc ho
  | searchNext =>
    rcases hpc with ⟨hc, hl, hd, hpub⟩
    exact ⟨hc.stable hchange ok ho, hl.stable hchange ok, hd.stable hchange ok,
      hext.published _ hpub⟩
  | searchUnlink =>
    rcases hpc with ⟨hc, hl, hd, hr⟩
    exact ⟨hc.stable hchange ok ho, hl.stable hchange ok, hd.stable hchange ok,
      hr.stable hchange ok⟩
  | searchCheck =>
    rcases hpc with ⟨hc, hl, hr, htail⟩
    exact ⟨hc.stable hchange ok ho, hl.stable hchange ok, hr.stable hchange ok, htail⟩
  | insertStore =>
    rcases hpc with ⟨hx, hl, hr⟩
    exact ⟨(hx.stable hchange ok (ho _ rfl)).1, hl.stable hchange ok,
      above_stable hchange ok hr⟩
  | insertCas =>
    rcases hpc with ⟨hx, hl, hr, hnext⟩
    have hx' := hx.stable hchange ok (ho _ rfl)
    exact ⟨hx'.1, hl.stable hchange ok, above_stable hchange ok hr, hx'.2.trans hnext⟩
  | removeLoad | removeMark =>
    rcases hpc with ⟨hl, hpub, hkey⟩
    exact ⟨hl.stable hchange ok, hext.published _ hpub, (key_stable hchange ok hpub).trans hkey⟩
  | removeUnlink =>
    rcases hpc with ⟨hl, hpub, hkey, hnext⟩
    refine ⟨hl.stable hchange ok, hext.published _ hpub, (key_stable hchange ok hpub).trans hkey, ?_⟩
    -- the thread itself has marked `right`
    rw [hext.frozen _ hpub (by rw [hnext])]
    exact hnext

end Stable

/-! ## One step of a call -/

section Search

variable (ok : HeapOk h) (hc : CallerOk h c) (hl : Before h c.key left)
include ok hc hl

omit ok in
theorem searched_ok (hr : Behind h c.key right) : PcOk h (searched h c left right) := by
  cases c with
  | insert key insertion =>
    simp only [searched]
    split
    · trivial
    · -- `right` is behind the place of the key, not at it
      rename_i hne
      refine ⟨hc, hl, ?_⟩
      rcases hr with rfl | ⟨hpub, hle⟩
      · exact .inl rfl
      · by_cases htail : right = tail
        · exact .inl htail
        · have hkey : h.key right ≠ key := fun heq => hne ⟨htail, heq⟩
          exact .inr ⟨hpub, lt_of_le_of_ne hle hkey.symm⟩
  | remove =>
    simp only [searched]
    split
    · trivial
    · rename_i hne
      simp only [not_or, not_not] at hne
      rcases hr with rfl | ⟨hpub, -⟩
      · exact absurd rfl hne.1
      · exact ⟨hl, hpub, hne.2⟩
  | cleanup => trivial
  | find => trivial

omit ok in
theorem check_ok (hr : Behind h c.key right) : PcOk h (check h c left right) := by
  unfold check
  split
  · rename_i hne
    exact ⟨hc, hl, hr, hne⟩
  · exact searched_ok hc hl hr

omit ok in
theorem adjacent_ok (hd : Dead h leftNext right) (hr : Behind h c.key right) :
    PcOk h (adjacent h c left leftNext right) := by
  unfold adjacent
  split
  · exact check_ok hc hl hr
  · exact ⟨hc, hl, hd, hr⟩

omit hl in
/-- The loop body. The node before may only be the head or one with a smaller key when
its successor is not marked. -/
theorem visit_ok (hnode : h.Listed node) (hmarked : (h.next node).marked = true →
      Before h c.key left ∧ Dead h leftNext node ∧ node ∈ h.published)
    (hunmarked : (h.next node).marked = false → Before h c.key node) :
    PcOk h (visit h c left leftNext node (h.next node)) := by
  have htarget : h.Target (h.succ node) := ok.target node hnode
  unfold visit
  cases hmark : (h.next node).marked with
  | true =>
    -- one more dead node behind `left`
    rcases hmarked hmark with ⟨hl, hd, hpub⟩
    simp only [if_true]
    split
    · rename_i htail
      exact adjacent_ok hc hl (hd.snoc hpub hmark) (.inl htail)
    · rename_i htail
      exact ⟨hc, hl, hd.snoc hpub hmark, htarget.resolve_left htail⟩
  | false =>
    -- `node` is the new `left`
    have hl := hunmarked hmark
    simp only [Bool.false_eq_true, if_false]
    split
    · rename_i htail
      exact adjacent_ok hc hl .refl (.inl htail)
    · rename_i htail
      exact ⟨hc, hl, .refl, htarget.resolve_left htail⟩

end Search

theorem searched_owned (h : Heap) (c : Caller) (left right : ℕ) :
    (searched h c left right).owned = none ∨ (searched h c left right).owned = c.owned := by
  cases c with
  | insert =>
    simp only [searched]
    split
    · exact .inl rfl
    · exact .inr rfl
  | remove =>
    simp only [searched]
    split
    · exact .inl rfl
    · exact .inl rfl
  | cleanup | find => exact .inl rfl

/-- Where the loads of a search lead: to another step of it, or back to the caller. -/
inductive SearchGoes (h : Heap) (c : Caller) : Pc → Prop where
  | next (left leftNext node : ℕ) : SearchGoes h c (.searchNext c left leftNext node)
  | unlink (left leftNext right : ℕ) : SearchGoes h c (.searchUnlink c left leftNext right)
  | check (left right : ℕ) : SearchGoes h c (.searchCheck c left right)
  | done (left right : ℕ) : SearchGoes h c (searched h c left right)

theorem check_goes (h : Heap) (c : Caller) (left right : ℕ) :
    SearchGoes h c (check h c left right) := by
  unfold check
  split
  · exact .check _ _
  · exact .done _ _

theorem adjacent_goes (h : Heap) (c : Caller) (left leftNext right : ℕ) :
    SearchGoes h c (adjacent h c left leftNext right) := by
  unfold adjacent
  split
  · exact check_goes h c left right
  · exact .unlink _ _ _

theorem visit_goes (h : Heap) (c : Caller) (left leftNext node : ℕ) (link : Link) :
    SearchGoes h c (visit h c left leftNext node link) := by
  unfold visit
  simp only
  split
  · exact adjacent_goes h c _ _ _
  · exact .next _ _ _

theorem SearchGoes.owned (hgoes : SearchGoes h c pc) : pc.owned = none ∨ pc.owned = c.owned := by
  cases hgoes with
  | done left right => exact searched_owned h c left right
  | _ => exact .inr rfl

/-- The outcome of a step of a thread at `pc`. -/
structure Advanced (h : Heap) (pc : Pc) (h' : Heap) (pc' : Pc) : Prop where
  change : ∃ o, (o = none ∨ o = pc.owned) ∧ Change h o h'
  ok : PcOk h' pc'
  owned : pc'.owned = none ∨ pc'.owned = pc.owned

/-- A load changes nothing. -/
theorem Advanced.load (hpc' : PcOk h pc') (ho : pc'.owned = none ∨ pc'.owned = pc.owned) :
    Advanced h pc h pc' :=
  ⟨⟨none, .inl rfl, .none⟩, hpc', ho⟩

theorem cas_some {expected desired : Link} (hcas : h.cas x expected desired = some h') :
    h.next x = expected ∧ h' = h.store x desired := by
  unfold Heap.cas at hcas
  split at hcas
  · rename_i heq
    exact ⟨heq, (Option.some.inj hcas).symm⟩
  · cases hcas

theorem cas_none {expected desired : Link} (hcas : h.cas x expected desired = none) :
    h.next x ≠ expected := by
  unfold Heap.cas at hcas
  split at hcas
  · cases hcas
  · assumption

/-- A compare-and-swap stores the new link, or fails and leaves the heap alone. -/
theorem cas_step {expected desired : Link} {f : Heap → Heap × Pc} {failed : Pc}
    (hadv : (match h.cas x expected desired with
      | some h₁ => some (f h₁)
      | none => some (h, failed)) = some (h', pc')) :
    (h.next x = expected ∧ f (h.store x desired) = (h', pc')) ∨
      (h.next x ≠ expected ∧ (h, failed) = (h', pc')) := by
  split at hadv
  · rename_i hcas
    rcases cas_some hcas with ⟨hlink, rfl⟩
    exact .inl ⟨hlink, Option.some.inj hadv⟩
  · rename_i hcas
    exact .inr ⟨cas_none hcas, Option.some.inj hadv⟩

/-- What the next step of a thread does: a load, a store, or a compare-and-swap that succeeds
or fails. -/
inductive Stepped (h : Heap) : Pc → Heap → Pc → Prop where
  | first (c : Caller) : Stepped h (.searchHead c) h (visit h c null null head (h.next head))
  | next (c : Caller) (left leftNext node : ℕ) : (h.next node).marked = true ∨ h.key node < c.key →
      Stepped h (.searchNext c left leftNext node) h (visit h c left leftNext node (h.next node))
  | leave (c : Caller) (left leftNext node : ℕ) : (h.next node).marked = false →
      c.key ≤ h.key node →
      Stepped h (.searchNext c left leftNext node) h (adjacent h c left leftNext node)
  | bypass (c : Caller) (left leftNext right : ℕ) : h.next left = ⟨leftNext, false⟩ →
      Stepped h (.searchUnlink c left leftNext right) (h.store left ⟨right, false⟩)
        (check (h.store left ⟨right, false⟩) c left right)
  | bypassFails (c : Caller) (left leftNext right : ℕ) : h.next left ≠ ⟨leftNext, false⟩ →
      Stepped h (.searchUnlink c left leftNext right) h (.searchHead c)
  | again (c : Caller) (left right : ℕ) : (h.next right).marked = true →
      Stepped h (.searchCheck c left right) h (.searchHead c)
  | found (c : Caller) (left right : ℕ) : (h.next right).marked = false →
      Stepped h (.searchCheck c left right) h (searched h c left right)
  | store (key : ℤ) (insertion left right : ℕ) :
      Stepped h (.insertStore key insertion left right) (h.store insertion ⟨right, false⟩)
        (.insertCas key insertion left right)
  | insert (key : ℤ) (insertion left right : ℕ) : h.next left = ⟨right, false⟩ →
      Stepped h (.insertCas key insertion left right)
        ((h.store left ⟨insertion, false⟩).publish insertion) (.ret (.insert key) true)
  | insertFails (key : ℤ) (insertion left right : ℕ) : h.next left ≠ ⟨right, false⟩ →
      Stepped h (.insertCas key insertion left right) h (.searchHead (.insert key insertion))
  | marked (key : ℤ) (left right : ℕ) : (h.next right).marked = true →
      Stepped h (.removeLoad key left right) h (.searchHead (.remove key))
  | unmarked (key : ℤ) (left right : ℕ) : (h.next right).marked = false →
      Stepped h (.removeLoad key left right) h (.removeMark key left right (h.next right).ptr)
  | mark (key : ℤ) (left right rightNext : ℕ) : h.next right = ⟨rightNext, false⟩ →
      Stepped h (.removeMark key left right rightNext) (h.store right ⟨rightNext, true⟩)
        (.removeUnlink key left right rightNext)
  | markFails (key : ℤ) (left right rightNext : ℕ) : h.next right ≠ ⟨rightNext, false⟩ →
      Stepped h (.removeMark key left right rightNext) h (.searchHead (.remove key))
  | unlink (key : ℤ) (left right rightNext : ℕ) : h.next left = ⟨right, false⟩ →
      Stepped h (.removeUnlink key left right rightNext) (h.store left ⟨rightNext, false⟩)
        (.ret (.remove key) true)
  | unlinkFails (key : ℤ) (left right rightNext : ℕ) : h.next left ≠ ⟨right, false⟩ →
      Stepped h (.removeUnlink key left right rightNext) h
        (.searchHead (.cleanup (h.key right) right))

theorem stepped_of_advance (hadv : advance h pc = some (h', pc')) : Stepped h pc h' pc' := by
  cases pc with
  | idle | ret => cases hadv
  | searchHead c =>
    rcases Option.some.inj hadv with ⟨⟩
    exact .first c
  -- a branch of the search, or a compare-and-swap that succeeds or fails
  | searchNext =>
    rcases ite_eq_iff.mp hadv with ⟨hcond, ⟨⟩⟩ | ⟨hcond, ⟨⟩⟩
    · exact .next _ _ _ _ hcond
    · simp only [not_or, not_lt, Bool.not_eq_true] at hcond
      exact .leave _ _ _ _ hcond.1 hcond.2
  | searchUnlink =>
    rcases cas_step hadv with ⟨hlink, ⟨⟩⟩ | ⟨hlink, ⟨⟩⟩
    · exact .bypass _ _ _ _ hlink
    · exact .bypassFails _ _ _ _ hlink
  | searchCheck =>
    rcases ite_eq_iff.mp hadv with ⟨hmark, ⟨⟩⟩ | ⟨hmark, ⟨⟩⟩
    · exact .again _ _ _ hmark
    · exact .found _ _ _ (Bool.eq_false_of_not_eq_true hmark)
  | insertStore =>
    rcases Option.some.inj hadv with ⟨⟩
    exact .store _ _ _ _
  | insertCas =>
    rcases cas_step hadv with ⟨hlink, ⟨⟩⟩ | ⟨hlink, ⟨⟩⟩
    · exact .insert _ _ _ _ hlink
    · exact .insertFails _ _ _ _ hlink
  | removeLoad =>
    rcases ite_eq_iff.mp hadv with ⟨hmark, ⟨⟩⟩ | ⟨hmark, ⟨⟩⟩
    · exact .marked _ _ _ hmark
    · exact .unmarked _ _ _ (Bool.eq_false_of_not_eq_true hmark)
  | removeMark =>
    rcases cas_step hadv with ⟨hlink, ⟨⟩⟩ | ⟨hlink, ⟨⟩⟩
    · exact .mark _ _ _ _ hlink
    · exact .markFails _ _ _ _ hlink
  | removeUnlink =>
    rcases cas_step hadv with ⟨hlink, ⟨⟩⟩ | ⟨hlink, ⟨⟩⟩
    · exact .unlink _ _ _ _ hlink
    · exact .unlinkFails _ _ _ _ hlink

/-- Part 3 of `search` bypasses marked nodes. -/
theorem unlinking_of_search (hl : Before h k left) (hd : Dead h leftNext right)
    (hr : Behind h k right) (hlink : h.next left = ⟨leftNext, false⟩) :
    Unlinking h left leftNext right := by
  refine ⟨hl.listed, hlink, hd, ?_, ?_⟩
  · rcases hr with heq | hr
    · exact .inl heq
    · exact .inr hr.1
  · rcases hr with heq | hr
    · exact .inr (.inl heq)
    · rcases hl.key with heq | hlt
      · exact .inl heq
      · exact .inr (.inr (hlt.trans_le hr.2))

/-- `remove` bypasses the node it has marked. -/
theorem unlinking_of_remove {rightNext : ℕ} (ok : HeapOk h) (hl : Before h k left)
    (hpub : right ∈ h.published) (hkey : h.key right = k) (hnext : h.next right = ⟨rightNext, true⟩)
    (hlink : h.next left = ⟨right, false⟩) : Unlinking h left right rightNext := by
  have hsucc : h.succ right = rightNext := by simp [Heap.succ, hnext]
  have htarget := ok.target right (.inr hpub)
  rw [hsucc] at htarget
  have hdead : Dead h right (h.succ right) := Dead.refl.snoc hpub (by rw [hnext])
  rw [hsucc] at hdead
  refine ⟨hl.listed, hlink, hdead, htarget, ?_⟩
  rcases hl.key with heq | hlt
  · exact .inl heq
  · rcases htarget with heq | hnextpub
    · exact .inr (.inl heq)
    · -- `left`, `right` and its successor have growing keys
      have hsorted := ok.sorted right hpub (hsucc ▸ hnextpub)
      rw [hsucc, hkey] at hsorted
      exact .inr (.inr (hlt.trans hsorted))

/-- `search` unlinks the marked nodes between the two. -/
theorem Advanced.bypass {c : Caller} {left leftNext right : ℕ} (ok : HeapOk h)
    (hpc : PcOk h (.searchUnlink c left leftNext right))
    (hlink : h.next left = ⟨leftNext, false⟩) :
    Advanced h (.searchUnlink c left leftNext right) (h.store left ⟨right, false⟩)
      (check (h.store left ⟨right, false⟩) c left right) := by
  rcases hpc with ⟨hc, hl, hd, hr⟩
  have hchange := Change.unlink left leftNext right (unlinking_of_search hl hd hr hlink)
  exact ⟨⟨none, .inl rfl, hchange⟩, check_ok (hc.stable hchange ok (by simp))
    (hl.stable hchange ok) (hr.stable hchange ok), (check_goes _ _ _ _).owned⟩

/-- The store to the new node is seen by nobody else. -/
theorem Advanced.store {key : ℤ} {insertion left right : ℕ} (ok : HeapOk h)
    (hpc : PcOk h (.insertStore key insertion left right)) :
    Advanced h (.insertStore key insertion left right) (h.store insertion ⟨right, false⟩)
      (.insertCas key insertion left right) := by
  rcases hpc with ⟨hx, hl, hr⟩
  have hchange := Change.store insertion ⟨right, false⟩ hx.unpublished hx.gt
  refine ⟨⟨_, .inr rfl, hchange⟩, ⟨?_, hl.stable hchange ok, above_stable hchange ok hr, ?_⟩,
    .inr rfl⟩
  · exact ⟨hx.unpublished, hx.gt, hx.lt, by rw [store_key]; exact hx.key⟩
  · simp

/-- The new node is between two neighbours when it is linked in. -/
theorem insertion_of_insertCas {key : ℤ} {insertion left right : ℕ}
    (hpc : PcOk h (.insertCas key insertion left right)) (hlink : h.next left = ⟨right, false⟩) :
    Insertion h insertion left right := by
  rcases hpc with ⟨hx, hl, hr, hnext⟩
  exact ⟨hx.unpublished, hx.gt, hx.lt, hnext, hl.listed, hlink, hx.key ▸ hl.key, hx.key ▸ hr⟩

/-- `remove` marks its node. -/
theorem Advanced.mark {key : ℤ} {left right rightNext : ℕ} (ok : HeapOk h)
    (hpc : PcOk h (.removeMark key left right rightNext))
    (hlink : h.next right = ⟨rightNext, false⟩) :
    Advanced h (.removeMark key left right rightNext) (h.store right ⟨rightNext, true⟩)
      (.removeUnlink key left right rightNext) := by
  rcases hpc with ⟨hl, hpub, hkey⟩
  have hchange := Change.mark right rightNext hpub hlink
  refine ⟨⟨none, .inl rfl, hchange⟩, ⟨hl.stable hchange ok, hpub, ?_, ?_⟩, .inl rfl⟩
  · rw [store_key]
    exact hkey
  · simp

/-- The next step of a thread is one of the changes, and the thread knows afterwards what
it has to. -/
theorem advance_spec (ok : HeapOk h) (hpc : PcOk h pc) (hadv : advance h pc = some (h', pc')) :
    Advanced h pc h' pc' := by
  cases stepped_of_advance hadv with
  | first =>
    refine .load (visit_ok ok hpc (.inl rfl) ?_ ?_) (visit_goes _ _ _ _ _ _).owned
    · -- `head` is never marked
      intro hmark
      rw [ok.head] at hmark
      cases hmark
    · intro _
      exact ⟨.inl rfl, .inl rfl⟩
  | next c left leftNext node hcond =>
    rcases hpc with ⟨hc, hl, hd, hpub⟩
    refine .load (visit_ok ok hc (.inr hpub) (fun _ => ⟨hl, hd, hpub⟩) ?_)
      (visit_goes _ _ _ _ _ _).owned
    -- the loop goes on behind an unmarked node only if its key is smaller
    intro hmark
    refine ⟨.inr hpub, .inr (hcond.resolve_left ?_)⟩
    simp [hmark]
  | leave c left leftNext node hmark hkey =>
    rcases hpc with ⟨hc, hl, hd, hpub⟩
    exact .load (adjacent_ok hc hl hd (.inr ⟨hpub, hkey⟩)) (adjacent_goes _ _ _ _ _).owned
  | bypass c left leftNext right hlink => exact .bypass ok hpc hlink
  | bypassFails | again => exact .load hpc.1 (.inr rfl)
  | found => exact .load (searched_ok hpc.1 hpc.2.1 hpc.2.2.1) (searched_owned _ _ _ _)
  | store => exact .store ok hpc
  | insert key insertion left right hlink =>
    exact ⟨⟨_, .inr rfl, .insert _ _ _ (insertion_of_insertCas hpc hlink)⟩, trivial, .inl rfl⟩
  | insertFails => exact .load hpc.1 (.inr rfl)
  | marked => exact .load trivial (.inl rfl)
  | unmarked => exact .load hpc (.inl rfl)
  | mark key left right rightNext hlink => exact .mark ok hpc hlink
  | markFails => exact .load trivial (.inl rfl)
  | unlink key left right rightNext hlink =>
    rcases hpc with ⟨hl, hpub, hkey, hnext⟩
    have hunlinking := unlinking_of_remove ok hl hpub hkey hnext hlink
    exact ⟨⟨none, .inl rfl, .unlink _ _ _ hunlinking⟩, trivial, .inl rfl⟩
  | unlinkFails key left right rightNext hlink =>
    -- the search is left with a node that is marked
    rcases hpc with ⟨-, hpub, -, hnext⟩
    refine .load ⟨hpub, ?_, rfl⟩ (.inl rfl)
    rw [hnext]

/-! ## All threads -/

variable {Tid : Type} [DecidableEq Tid] {s s' : State Tid} {t : Tid} {ev : Event}

/-- What an event of thread `t` does. -/
inductive Acted (s : State Tid) (t : Tid) : Event → State Tid → Prop where
  | invoke (op : Op) : s.pc t = .idle →
      Acted s t (.invoke op) ⟨(start s.heap op).1, Function.update s.pc t (start s.heap op).2⟩
  | step (h' : Heap) (pc' : Pc) : advance s.heap (s.pc t) = some (h', pc') →
      Acted s t .step ⟨h', Function.update s.pc t pc'⟩
  | ret (op : Op) (result : Bool) : s.pc t = .ret op result →
      Acted s t (.ret result) ⟨s.heap, Function.update s.pc t .idle⟩

theorem acted_of_act (hact : act (t, ev) s = some s') : Acted s t ev s' := by
  cases ev with
  | invoke op =>
    cases hpc : s.pc t with
    | idle =>
      simp only [act, hpc] at hact
      exact Option.some.inj hact ▸ .invoke op hpc
    | _ => simp [act, hpc] at hact
  | step =>
    simp only [act, Option.map_eq_some_iff] at hact
    rcases hact with ⟨⟨h', pc'⟩, hadv, rfl⟩
    exact .step h' pc' hadv
  -- the label names the result that is returned
  | ret result =>
    cases hpc : s.pc t with
    | ret op b =>
      simp only [act, hpc] at hact
      split at hact
      · rename_i heq
        subst heq
        exact Option.some.inj hact ▸ .ret op result hpc
      · cases hact
    | _ => simp [act, hpc] at hact

structure Inv (s : State Tid) : Prop where
  heap : HeapOk s.heap
  thread : ∀ t, PcOk s.heap (s.pc t)
  owned : ∀ t u x, (s.pc t).owned = some x → (s.pc u).owned = some x → t = u

theorem CallerOk.owned_lt (hc : CallerOk h c) (hx : c.owned = some x) : x < h.fresh := by
  cases c with
  | insert => exact Option.some.inj hx ▸ hc.lt
  | _ => cases hx

theorem PcOk.owned_lt (hpc : PcOk h pc) (hx : pc.owned = some x) : x < h.fresh := by
  cases pc with
  | searchHead => exact CallerOk.owned_lt hpc hx
  | searchNext | searchUnlink | searchCheck => exact CallerOk.owned_lt hpc.1 hx
  | insertStore | insertCas => exact Option.some.inj hx ▸ hpc.1.lt
  | _ => cases hx

/-- A step of one thread: a change that uses no new node but the thread's own, after
which the thread has no new node, the one it had or the one just created. -/
structure Moved (s : State Tid) (t : Tid) (s' : State Tid) (o : Option ℕ) (pc' : Pc) : Prop where
  change : Change s.heap o s'.heap
  uses : o = none ∨ o = (s.pc t).owned
  pc : s'.pc = Function.update s.pc t pc'
  ok : PcOk s'.heap pc'
  owned : pc'.owned = none ∨ pc'.owned = (s.pc t).owned ∨ pc'.owned = some s.heap.fresh

theorem Moved.pc_self (hmoved : Moved s t s' o pc') : s'.pc t = pc' := by
  rw [hmoved.pc, Function.update_self]

theorem Moved.pc_of_ne (hmoved : Moved s t s' o pc') {u : Tid} (hu : u ≠ t) : s'.pc u = s.pc u := by
  rw [hmoved.pc, Function.update_of_ne hu]

theorem Inv.moved (hinv : Inv s) (hacted : Acted s t ev s') : ∃ o pc', Moved s t s' o pc' := by
  cases hacted with
  | invoke op hpc =>
    cases op with
    | insert key =>
      -- the thread owns the node it creates
      refine ⟨none, _, .create key, .inl rfl, rfl, ?_, .inr (.inr rfl)⟩
      refine ⟨hinv.heap.fresh_unpublished, hinv.heap.fresh, Nat.lt_succ_self _, ?_⟩
      simp [start, Heap.create, Heap.key]
    | remove | find => exact ⟨none, _, .none, .inl rfl, rfl, trivial, .inl rfl⟩
  | step h' pc' hadv =>
    rcases advance_spec hinv.heap (hinv.thread t) hadv with ⟨⟨o, ho, hchange⟩, hok, howned⟩
    refine ⟨o, pc', hchange, ho, rfl, hok, ?_⟩
    rcases howned with hn | hs
    · exact .inl hn
    · exact .inr (.inl hs)
  | ret => exact ⟨none, _, .none, .inl rfl, rfl, trivial, .inl rfl⟩

/-- The new node of another thread is not touched. -/
theorem Moved.owned_ne (hmoved : Moved s t s' o pc') (hinv : Inv s) {u : Tid} (hu : u ≠ t)
    (hx : (s.pc u).owned = some x) : o ≠ some x := by
  rintro rfl
  rcases hmoved.uses with hn | hs
  · cases hn
  · exact hu (hinv.owned u t x hx hs.symm)

theorem Inv.step (hinv : Inv s) (hacted : Acted s t ev s') : Inv s' := by
  rcases hinv.moved hacted with ⟨o, pc', hmoved⟩
  refine ⟨hmoved.change.ok hinv.heap, ?_, ?_⟩
  · rw [hmoved.pc]
    refine (Function.forall_update_iff s.pc fun _ pc => PcOk s'.heap pc).mpr ⟨hmoved.ok, ?_⟩
    intro u hu
    exact (hinv.thread u).stable hmoved.change hinv.heap fun x hx => hmoved.owned_ne hinv hu hx
  · -- the new node of `t` is the old one or has an address that no thread had
    have hne : ∀ u x, u ≠ t → (s.pc u).owned = some x → pc'.owned ≠ some x := by
      intro u x hu hx heq
      rcases hmoved.owned with hn | hs | hf
      · rw [hn] at heq
        cases heq
      · exact hu (hinv.owned u t x hx (hs.symm.trans heq))
      · -- every node that a thread has is older than the next one
        rw [hf] at heq
        rcases Option.some.inj heq with rfl
        exact lt_irrefl _ ((hinv.thread u).owned_lt hx)
    intro u v x hu hv
    by_cases hut : u = t
    · by_cases hvt : v = t
      · rw [hut, hvt]
      · rw [hut, hmoved.pc_self] at hu
        rw [hmoved.pc_of_ne hvt] at hv
        exact absurd hu (hne v x hvt hv)
    · rw [hmoved.pc_of_ne hut] at hu
      by_cases hvt : v = t
      · rw [hvt, hmoved.pc_self] at hv
        exact absurd hv (hne u x hut hu)
      · rw [hmoved.pc_of_ne hvt] at hv
        exact hinv.owned u v x hu hv

theorem emptyList_ok : HeapOk emptyList := by
  refine ⟨by simp [emptyList], by decide, rfl, rfl, ?_, by simp [emptyList], by simp [emptyList]⟩
  intro x hx
  rcases hx with rfl | hx
  · exact .inl rfl
  · simp [emptyList] at hx

theorem reachable_inv (hr : Reachable (system Tid) s) : Inv s := by
  refine hr.invariant ?_ ?_
  · intro s hs
    rcases hs with ⟨hheap, hpc⟩
    refine ⟨hheap ▸ emptyList_ok, fun t => by rw [hpc]; trivial, ?_⟩
    intro t u x ht
    rw [hpc] at ht
    cases ht
  · intro l s s' hinv hnext
    exact hinv.step (acted_of_act hnext)

/-! ## The chain -/

/-- The chain from `head` ends at `tail`, its keys grow, and it contains every published
node that is not marked. -/
structure ChainOk (h : Heap) : Prop where
  ends : ∃ n, h.succ^[n] head = tail ∧ (∀ i < n, h.succ^[i] head ≠ tail) ∧
    ∀ i j, 0 < i → i < j → j < n → h.key (h.succ^[i] head) < h.key (h.succ^[j] head)
  unmarked : ∀ x ∈ h.published, (h.next x).marked = false → OnChain h x

theorem HeapOk.published_of_iterate (ok : HeapOk h) {i : ℕ} (hi : 0 < i)
    (hne : h.succ^[i] LockFree.head ≠ LockFree.tail) :
    h.succ^[i] LockFree.head ∈ h.published := by
  obtain ⟨j, rfl⟩ : ∃ j, i = j + 1 := ⟨i - 1, by omega⟩
  have htarget := ok.target_of_reaches (ok.target _ (.inl rfl)) ⟨j, rfl⟩
  exact htarget.resolve_left hne

theorem HeapOk.chainOk (ok : HeapOk h) : ChainOk h := by
  refine ⟨?_, ok.chain⟩
  have hreach : ∃ n, h.succ^[n] LockFree.head = LockFree.tail := by
    rcases ok.reaches_tail (ok.target LockFree.head (.inl rfl)) with ⟨n, hn⟩
    exact ⟨n + 1, hn⟩
  refine ⟨Nat.find hreach, Nat.find_spec hreach, fun i hi => Nat.find_min hreach hi, ?_⟩
  intro i j hi hij hj
  have hx := ok.published_of_iterate hi (Nat.find_min hreach (hij.trans hj))
  have hy := ok.published_of_iterate (hi.trans hij) (Nat.find_min hreach hj)
  refine ok.key_lt hx hy ⟨j - (i + 1), ?_⟩
  rw [← Function.iterate_succ_apply' h.succ i, ← Function.iterate_add_apply,
    show j - (i + 1) + (i + 1) = j by omega]

/-- A step brings no published node back onto the chain. -/
theorem Inv.stays_off (hinv : Inv s) (hacted : Acted s t ev s') (hx : x ∈ s.heap.published)
    (hoff : ¬ OnChain s.heap x) : x ∈ s'.heap.published ∧ ¬ OnChain s'.heap x := by
  rcases hinv.moved hacted with ⟨o, pc', hmoved⟩
  exact ⟨(hmoved.change.extends hinv.heap).published x hx,
    fun hon => hoff (hmoved.change.onChain hinv.heap hx hon)⟩

/-- Published nodes stay published and keep their keys. -/
theorem published_between (e : Behavior (system Tid)) {i j : ℕ} (hij : i ≤ j)
    (hx : x ∈ (e.state i).heap.published) :
    x ∈ (e.state j).heap.published ∧ (e.state j).heap.key x = (e.state i).heap.key x := by
  refine e.stable_between
    (P := fun s => x ∈ s.heap.published ∧ s.heap.key x = (e.state i).heap.key x) hij ?_ ⟨hx, rfl⟩
  intro k l _ _ hl hP
  have hinv := reachable_inv (e.reachable k)
  rcases hinv.moved (acted_of_act (e.next k l hl)) with ⟨o, pc', hmoved⟩
  exact ⟨(hmoved.change.extends hinv.heap).published x hP.1,
    (key_stable hmoved.change hinv.heap hP.1).trans hP.2⟩

/-- In every reachable state the chain is in order, and in every behavior a node that has
left the chain never comes back onto it. -/
theorem chain_invariant :
    (∀ s, Reachable (system Tid) s → ChainOk s.heap) ∧
    ∀ (e : Behavior (system Tid)) (x i j k : ℕ), i ≤ j → j ≤ k → OnChain (e.state i).heap x →
      ¬ OnChain (e.state j).heap x → ¬ OnChain (e.state k).heap x := by
  refine ⟨fun s hs => (reachable_inv hs).heap.chainOk, ?_⟩
  intro e x i j k hij hjk hon hoff
  have hok := (reachable_inv (e.reachable i)).heap
  have hokj := (reachable_inv (e.reachable j)).heap
  -- the sentinels are on every chain, so the node is a published one
  have hpub : x ∈ (e.state i).heap.published := by
    rcases hok.onChain_cases hon with rfl | rfl | hpub
    · exact absurd (.refl _ _) hoff
    · rcases hokj.reaches_tail (hokj.target head (.inl rfl)) with ⟨n, hn⟩
      exact absurd ⟨n + 1, hn⟩ hoff
    · exact hpub
  refine (e.stable_between (P := fun s => x ∈ s.heap.published ∧ ¬ OnChain s.heap x) hjk ?_
    ⟨(published_between e hij hpub).1, hoff⟩).2
  intro m l _ _ hl hP
  exact (reachable_inv (e.reachable m)).stays_off (acted_of_act (e.next m l hl)) hP.1 hP.2

/-- One thread inserts 5, then another removes it: the node is marked at position 11 and
unlinked at position 12. -/
def insertRemove : Behavior (system Bool) :=
  .ofSchedule act (fun _ _ _ hact => hact) ⟨emptyList, fun _ => .idle⟩ init_idle
    [(true, .invoke (.insert 5)), (true, .step), (true, .step), (true, .step), (true, .ret true),
      (false, .invoke (.remove 5)), (false, .step), (false, .step), (false, .step), (false, .step),
      (false, .step), (false, .step), (false, .ret true)]

theorem chain_invariant_insertRemove :
    (((insertRemove.state 11).heap.next 3).marked = true ∧ OnChain (insertRemove.state 11).heap 3 ∧
      ChainOk (insertRemove.state 11).heap) ∧
    ∀ k, 12 ≤ k → ¬ OnChain (insertRemove.state k).heap 3 := by
  have hon : OnChain (insertRemove.state 11).heap 3 := ⟨1, by decide +kernel⟩
  have hoff : ¬ OnChain (insertRemove.state 12).heap 3 := by
    intro h3
    have hhead : (insertRemove.state 12).heap.succ head = tail := by decide +kernel
    have htail : (insertRemove.state 12).heap.succ tail = tail := by decide +kernel
    have hcases := h3.invariant (P := fun z => z = head ∨ z = tail)
      (by rintro z (rfl | rfl) <;> simp [hhead, htail]) (.inl rfl)
    revert hcases
    decide
  refine ⟨⟨by decide +kernel, hon, chain_invariant.1 _ (insertRemove.reachable 11)⟩, ?_⟩
  intro k hk
  exact chain_invariant.2 insertRemove 3 11 12 k (by decide) hk hon hoff

end SysProg.LockFree
