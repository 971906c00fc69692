import Mathlib.Data.Set.Card
import Mathlib.Data.Prod.Lex
import Mathlib.Tactic
import SysProg.Lib.Progress
import SysProg.Concurrency.LockFreeInv

/-!
# Lock-freedom of the list

A call can be sent back to the start of `search` any number of times, but each time because
another call has changed the list, and calls that do not return change it only finitely often.

* `credit` — the changes of the chain that a call may still make; with the marked nodes of the
  chain, which may still be unlinked, it is the `work` that is left;
* `effort` — a bound on the steps up to the end of an attempt, with one more attempt added if
  what the thread has read is no longer `Current`;
* `Stepped.progress` — a step lowers the work, or it is invisible to others and lowers the effort;
* `returns_again` — while threads take steps, calls return.
-/

namespace SysProg.LockFree

open Lts Orbit

variable {h h' : Heap} {c : Caller} {pc pc' : Pc} {left leftNext node right x y : ℕ}

/-! ## The work that is left -/

/-- The marked nodes that are still to be unlinked. -/
def markedNodes (h : Heap) : Set ℕ :=
  {x | x ∈ h.published ∧ OnChain h x ∧ (h.next x).marked = true}

theorem markedNodes_finite (h : Heap) : (markedNodes h).Finite :=
  (List.finite_toSet h.published).subset fun _ hx => hx.1

/-- An insertion adds a node; a removal marks one, and a marked node is unlinked once. -/
def Caller.credit : Caller → ℕ
  | .insert _ _ => 1
  | .remove _ => 2
  | .cleanup _ _ | .find _ => 0

def Pc.credit : Pc → ℕ
  | .searchHead c | .searchNext c _ _ _ | .searchUnlink c _ _ _ | .searchCheck c _ _ => c.credit
  | .insertStore _ _ _ _ | .insertCas _ _ _ _ => 1
  | .removeLoad _ _ _ | .removeMark _ _ _ _ => 2
  | .idle | .removeUnlink _ _ _ _ | .ret _ _ => 0

/-- Where a call goes when `search` has returned. -/
inductive Found (c : Caller) (left right : ℕ) : Pc → Prop where
  | ret (op : Op) (result : Bool) : Found c left right (.ret op result)
  | store {key : ℤ} {insertion : ℕ} : c = .insert key insertion →
      Found c left right (.insertStore key insertion left right)
  | load {key : ℤ} : c = .remove key → Found c left right (.removeLoad key left right)

theorem searched_found (h : Heap) (c : Caller) (left right : ℕ) :
    Found c left right (searched h c left right) := by
  cases c with
  | insert =>
    simp only [searched]
    split
    · exact .ret _ _
    · exact .store rfl
  | remove =>
    simp only [searched]
    split
    · exact .ret _ _
    · exact .load rfl
  | cleanup | find => exact .ret _ _

theorem Found.credit (hfound : Found c left right pc) : pc.credit ≤ c.credit := by
  cases hfound with
  | ret => exact Nat.zero_le _
  | store hc | load hc => exact hc ▸ le_rfl

theorem SearchGoes.credit (hgoes : SearchGoes h c pc) : pc.credit ≤ c.credit := by
  cases hgoes with
  | done left right => exact (searched_found h c left right).credit
  | _ => exact le_rfl

/-! ### Changes of the chain -/

/-- The new node is not marked. -/
theorem Insertion.markedNodes_eq (ins : Insertion h x left right) (ok : HeapOk h) :
    markedNodes ((h.store left ⟨x, false⟩).publish x) = markedNodes h := by
  have hnew : (h.next x).marked = false := by rw [ins.next]
  ext y
  simp only [markedNodes, Set.mem_ofPred_eq, publish_published, store_published, List.mem_cons,
    ins.onChain_iff ok, ins.marked_eq]
  constructor
  · intro hy
    rcases hy with ⟨hpub, hon, hm⟩
    -- the new node is published, but not marked
    have hne : y ≠ x := by
      rintro rfl
      rw [hnew] at hm
      cases hm
    exact ⟨hpub.resolve_left hne, hon.resolve_right hne, hm⟩
  · intro hy
    exact ⟨.inr hy.1, .inl hy.2.1, hy.2.2⟩

/-- The node that `remove` marks is one more. -/
theorem mark_markedNodes (hx : x ∈ h.published) (hlink : h.next x = ⟨y, false⟩) (ok : HeapOk h) :
    markedNodes (h.store x ⟨y, true⟩) = insert x (markedNodes h) := by
  have hon : OnChain h x := ok.chain x hx (by rw [hlink])
  ext z
  simp only [markedNodes, Set.mem_ofPred_eq, Set.mem_insert_iff, store_published,
    mark_onChain hlink, store_next]
  by_cases hz : z = x
  · subst hz
    simp [hx, hon]
  · simp [hz]

namespace Unlinking

variable (unl : Unlinking h left leftNext right) (ok : HeapOk h) (hne : leftNext ≠ right)
include unl ok hne

/-- A marked node is unlinked, and none comes in. -/
theorem markedNodes_lt :
    (markedNodes (h.store left ⟨right, false⟩)).ncard < (markedNodes h).ncard := by
  refine Set.ncard_lt_ncard ?_ (markedNodes_finite h)
  have hfirst := unl.dead.first hne
  refine (Set.ssubset_iff_of_subset ?_).mpr ⟨leftNext, ⟨hfirst.1, ?_, hfirst.2⟩, ?_⟩
  · -- unlinking marks nothing
    intro y hy
    rcases hy with ⟨hpub, hon, hmark⟩
    rw [unl.marked_eq] at hmark
    exact ⟨hpub, unl.onChain_of hon, hmark⟩
  · -- the first dead node was on the chain
    rw [← unl.succ_left]
    exact (unl.onChain_left ok).trans (.step h.succ left)
  · intro hin
    exact unl.off_chain ok hne hin.2.1

end Unlinking

/-! ## The effort of an attempt -/

/-- What the thread has read in this attempt is still so, as far as the attempt depends on it.
A removal that has marked its node may have to search again at any time. -/
def Current (h : Heap) : Pc → Prop
  | .idle | .ret _ _ | .searchHead _ => True
  | .searchNext _ left leftNext _ => h.next left = ⟨leftNext, false⟩
  | .searchUnlink _ left leftNext _ => h.next left = ⟨leftNext, false⟩
  | .searchCheck _ left right => h.next left = ⟨right, false⟩ ∧ (h.next right).marked = false
  | .insertStore _ _ left right | .insertCas _ _ left right => h.next left = ⟨right, false⟩
  | .removeLoad _ _ right => (h.next right).marked = false
  | .removeMark _ _ right rightNext => h.next right = ⟨rightNext, false⟩
  | .removeUnlink _ _ _ _ => False

/-- The steps up to the end of the attempt. -/
noncomputable def remaining (h : Heap) : Pc → ℕ
  | .idle | .removeUnlink _ _ _ _ => 0
  | .ret _ _ => 1
  | .insertCas _ _ _ _ | .removeMark _ _ _ _ => 2
  | .insertStore _ _ _ _ | .removeLoad _ _ _ => 3
  | .searchCheck _ _ _ => 4
  | .searchUnlink _ _ _ _ => 5
  | .searchNext _ _ _ node => 5 + distance h.succ node tail
  | .searchHead _ => 5 + distance h.succ head tail

open Classical in
/-- An attempt that is bound to fail is followed by another one. -/
noncomputable def effort (h : Heap) (pc : Pc) : ℕ :=
  if Current h pc then remaining h pc else remaining h pc + (6 + distance h.succ head tail)

/-- An attempt that goes on as it was. -/
theorem effort_lt (hcurrent : Current h pc → Current h pc')
    (hless : remaining h pc' < remaining h pc) : effort h pc' < effort h pc := by
  unfold effort
  split
  · split
    · exact hless
    · exact hless.trans_le (Nat.le_add_right _ _)
  · -- the attempt was bound to fail before, too
    rename_i hstale
    rw [if_neg fun hc => hstale (hcurrent hc)]
    exact Nat.add_lt_add_right hless _

/-- A failed attempt is followed by the next one. -/
theorem effort_restart (pc : Pc) (hstale : ¬ Current h pc) (c : Caller) :
    effort h (.searchHead c) < effort h pc := by
  have hnext : effort h (.searchHead c) = 5 + distance h.succ head tail := if_pos trivial
  have hpc : effort h pc = remaining h pc + (6 + distance h.succ head tail) := if_neg hstale
  omega

/-! ### The search -/

theorem Found.remaining_le (hfound : Found c left right pc) : remaining h pc ≤ 3 := by
  cases hfound with
  | ret => exact Nat.le_of_ble_eq_true rfl
  | store | load => exact le_rfl

theorem Found.current (hfound : Found c left right pc) (hlink : h.next left = ⟨right, false⟩)
    (hmark : (h.next right).marked = false) : Current h pc := by
  cases hfound with
  | ret => trivial
  | store => exact hlink
  | load => exact hmark

theorem check_remaining (h : Heap) (c : Caller) (left right : ℕ) :
    remaining h (check h c left right) ≤ 4 := by
  unfold check
  split
  · exact le_rfl
  · exact (searched_found h c left right).remaining_le.trans (by decide)

theorem check_current (ok : HeapOk h) (c : Caller) (hlink : h.next left = ⟨right, false⟩)
    (hmark : right = tail ∨ (h.next right).marked = false) :
    Current h (check h c left right) := by
  unfold check
  split
  · rename_i hne
    exact ⟨hlink, hmark.resolve_left hne⟩
  · -- the tail is never marked
    rename_i heq
    have htail : (h.next right).marked = false := by
      rw [not_not.mp heq, ok.tail]
    exact (searched_found h c left right).current hlink htail

theorem adjacent_remaining (h : Heap) (c : Caller) (left leftNext right : ℕ) :
    remaining h (adjacent h c left leftNext right) ≤ 5 := by
  unfold adjacent
  split
  · exact (check_remaining h c left right).trans (by decide)
  · exact le_rfl

theorem adjacent_current (ok : HeapOk h) (c : Caller) (hlink : h.next left = ⟨leftNext, false⟩)
    (hmark : right = tail ∨ (h.next right).marked = false) :
    Current h (adjacent h c left leftNext right) := by
  unfold adjacent
  split
  · rename_i heq
    subst heq
    exact check_current ok c hlink hmark
  · exact hlink

/-- The loop is one node nearer to the tail. -/
theorem visit_remaining (hr : Reaches h.succ node tail) (hne : node ≠ tail) (c : Caller)
    (left leftNext : ℕ) :
    remaining h (visit h c left leftNext node (h.next node)) < 5 + distance h.succ node tail := by
  have hstep := distance_step hne hr
  unfold visit
  simp only
  split
  · exact (adjacent_remaining h c _ _ _).trans_lt (by omega)
  · show 5 + distance h.succ (h.succ node) tail < 5 + distance h.succ node tail
    omega

/-- The loop remembers the link of the last unmarked node. -/
theorem visit_current (ok : HeapOk h) (c : Caller)
    (hlink : (h.next node).marked = true → h.next left = ⟨leftNext, false⟩) :
    Current h (visit h c left leftNext node (h.next node)) := by
  unfold visit
  cases hmark : (h.next node).marked with
  | true =>
    simp only [if_true]
    split
    · rename_i htail
      exact adjacent_current ok c (hlink hmark) (.inl htail)
    · exact hlink hmark
  | false =>
    have hnode : h.next node = ⟨(h.next node).ptr, false⟩ := by rw [← hmark]
    simp only [Bool.false_eq_true, if_false]
    split
    · rename_i htail
      exact adjacent_current ok c hnode (.inl htail)
    · exact hnode

/-! ## Steps that others do not see -/

/-- The list is the same; a node that is not published may differ. -/
structure Alike (h h' : Heap) : Prop where
  published : h'.published = h.published
  node : ∀ x, x = head ∨ h.Target x → h'.node x = h.node x

theorem Alike.refl (h : Heap) : Alike h h :=
  ⟨rfl, fun _ _ => rfl⟩

/-- The store to a new node. -/
theorem Alike.store {link : Link} (hx : x ∉ h.published) (hgt : tail < x) :
    Alike h (h.store x link) := by
  refine ⟨rfl, fun y hy => ?_⟩
  have hne : y ≠ x := by
    rintro rfl
    rcases hy with rfl | rfl | hpub
    · exact absurd hgt (by decide)
    · exact lt_irrefl _ hgt
    · exact hx hpub
  simp [Heap.store, hne]

namespace Alike

variable (ha : Alike h h') (ok : HeapOk h)
include ha

theorem next_eq (hx : x = head ∨ h.Target x) : h'.next x = h.next x := by
  simp [Heap.next, ha.node x hx]

theorem next_listed (hx : h.Listed x) : h'.next x = h.next x := by
  rcases hx with hhead | hpub
  · exact ha.next_eq (.inl hhead)
  · exact ha.next_eq (.inr (.inr hpub))

theorem succ_eq (hx : x = head ∨ h.Target x) : h'.succ x = h.succ x := by
  simp [Heap.succ, ha.next_eq hx]

include ok

theorem succ_reached (hx : x = head ∨ h.Target x) (hr : Reaches h.succ x y) :
    h'.succ y = h.succ y := by
  refine ha.succ_eq ?_
  rcases hx with rfl | hx
  · exact ok.onChain_cases hr
  · exact .inr (ok.target_of_reaches hx hr)

theorem distance_eq (hx : x = head ∨ h.Target x) :
    distance h'.succ x tail = distance h.succ x tail :=
  distance_congr fun _ hr => ha.succ_reached ok hx hr

theorem onChain_iff : OnChain h' x ↔ OnChain h x :=
  Reaches.congr_iff fun _ hr => ha.succ_reached ok (.inl rfl) hr

theorem markedNodes_eq : markedNodes h' = markedNodes h := by
  ext y
  simp only [markedNodes, Set.mem_ofPred_eq, ha.published, ha.onChain_iff ok]
  constructor
  · intro hy
    rw [ha.next_eq (.inr (.inr hy.1))] at hy
    exact hy
  · intro hy
    rw [ha.next_eq (.inr (.inr hy.1))]
    exact hy

theorem remaining_eq (hpc : PcOk h pc) : remaining h' pc = remaining h pc := by
  cases pc with
  | searchHead => simp only [remaining, ha.distance_eq ok (.inl rfl)]
  | searchNext =>
    simp only [remaining, ha.distance_eq ok (.inr (.inr hpc.2.2.2))]
  | _ => rfl

omit ok in
theorem current_iff (hpc : PcOk h pc) : Current h' pc ↔ Current h pc := by
  cases pc with
  | searchNext | searchUnlink | insertStore | insertCas =>
    simp only [Current, ha.next_listed hpc.2.1.listed]
  | searchCheck c left right =>
    have hright : h.Target right := hpc.2.2.1.imp id fun hr => hr.1
    simp only [Current, ha.next_listed hpc.2.1.listed, ha.next_eq (.inr hright)]
  | removeLoad | removeMark => simp only [Current, ha.next_eq (.inr (.inr hpc.2.1))]
  | _ => exact Iff.rfl

/-- What others still have to do is not changed. -/
theorem effort_eq (hpc : PcOk h pc) : effort h' pc = effort h pc := by
  unfold effort
  rw [ha.remaining_eq ok hpc, ha.distance_eq ok (.inl rfl)]
  by_cases hcurrent : Current h pc
  · rw [if_pos hcurrent, if_pos ((ha.current_iff hpc).mpr hcurrent)]
  · rw [if_neg hcurrent, if_neg fun hc => hcurrent ((ha.current_iff hpc).mp hc)]

end Alike

/-! ## One step -/

/-- `search` bypasses at least one node. -/
def Apart : Pc → Prop
  | .searchUnlink _ _ leftNext right => leftNext ≠ right
  | _ => True

/-- The work is the marked nodes of the chain and what the thread may still do. -/
noncomputable def work (h : Heap) (pc : Pc) : ℕ :=
  (markedNodes h).ncard + pc.credit

/-- A step that changes the chain lowers the work. Any other step brings the thread nearer to
the end of its attempt. -/
inductive Progress (h : Heap) (pc : Pc) (h' : Heap) (pc' : Pc) : Prop where
  | change : work h' pc' < work h pc → Progress h pc h' pc'
  | quiet : Alike h h' → pc'.credit ≤ pc.credit → effort h' pc' < effort h pc →
      Progress h pc h' pc'

theorem Progress.load (hcredit : pc'.credit ≤ pc.credit) (heffort : effort h pc' < effort h pc) :
    Progress h pc h pc' :=
  .quiet (.refl h) hcredit heffort

theorem Stepped.progress (hstep : Stepped h pc h' pc') (ok : HeapOk h) (hpc : PcOk h pc)
    (hapart : Apart pc) : Progress h pc h' pc' := by
  cases hstep with
  | first c =>
    refine .load (visit_goes _ _ _ _ _ _).credit (effort_lt (fun _ => ?_) ?_)
    · -- `head` is never marked
      refine visit_current ok c fun hmark => ?_
      rw [ok.head] at hmark
      cases hmark
    · have hreach := (Reaches.step h.succ head).trans (ok.reaches_tail (ok.target head (.inl rfl)))
      exact visit_remaining hreach (by decide) c null null
  | next c left leftNext node hcond =>
    have hpub : node ∈ h.published := hpc.2.2.2
    refine .load (visit_goes _ _ _ _ _ _).credit (effort_lt (fun hcurrent => ?_) ?_)
    · exact visit_current ok c fun _ => hcurrent
    · exact visit_remaining (ok.reaches_tail (.inr hpub)) (ok.ne_tail hpub) c left leftNext
  | leave c left leftNext node hmark hkey =>
    have hpub : node ∈ h.published := hpc.2.2.2
    refine .load (adjacent_goes _ _ _ _ _).credit (effort_lt (fun hcurrent => ?_) ?_)
    · exact adjacent_current ok c hcurrent (.inr hmark)
    · have hdist := distance_step (ok.ne_tail hpub) (ok.reaches_tail (.inr hpub))
      have hle := adjacent_remaining h c left leftNext node
      have hnow : remaining h (.searchNext c left leftNext node) =
        5 + distance h.succ node tail := rfl
      omega
  | bypass c left leftNext right hlink =>
    -- at least one marked node less
    have hless := (unlinking_of_search hpc.2.1 hpc.2.2.1 hpc.2.2.2 hlink).markedNodes_lt ok hapart
    exact .change (Nat.add_lt_add_of_lt_of_le hless (check_goes _ _ _ _).credit)
  | bypassFails c left leftNext right hlink =>
    exact .load le_rfl (effort_restart (.searchUnlink c left leftNext right) hlink c)
  | again c left right hmark =>
    -- `right` has been marked since it was found
    refine .load le_rfl (effort_restart _ ?_ c)
    rintro ⟨-, hunmarked⟩
    rw [hmark] at hunmarked
    cases hunmarked
  | found c left right hmark =>
    have hfound := searched_found h c left right
    refine .load hfound.credit (effort_lt ?_ ?_)
    · rintro ⟨hlink, hunmarked⟩
      exact hfound.current hlink hunmarked
    · exact Nat.lt_succ_of_le hfound.remaining_le
  | store key insertion left right =>
    -- nobody else sees the new node
    have hprivate := hpc.1
    have halike : Alike h (h.store insertion ⟨right, false⟩) :=
      .store hprivate.unpublished hprivate.gt
    refine .quiet halike le_rfl ?_
    rw [← halike.effort_eq ok hpc]
    exact effort_lt (fun hcurrent => hcurrent) (Nat.lt_succ_self 2)
  | insert key insertion left right hlink =>
    -- the credit of 1 is spent, and no node is marked
    refine .change ?_
    unfold work
    rw [(insertion_of_insertCas hpc hlink).markedNodes_eq ok]
    exact Nat.lt_succ_self _
  | insertFails key insertion left right hlink =>
    exact .load le_rfl (effort_restart (.insertCas key insertion left right) hlink _)
  | marked key left right hmark =>
    -- somebody else is removing the node
    refine .load le_rfl (effort_restart _ ?_ _)
    intro hunmarked
    have hunmarked : (h.next right).marked = false := hunmarked
    rw [hmark] at hunmarked
    cases hunmarked
  | unmarked key left right hmark =>
    refine .load le_rfl (effort_lt (fun _ => ?_) (Nat.lt_succ_self 2))
    show h.next right = ⟨(h.next right).ptr, false⟩
    rw [← hmark]
  | mark key left right rightNext hlink =>
    -- one node more is marked, and the credit of 2 is spent
    refine .change ?_
    unfold work
    rw [mark_markedNodes hpc.2.1 hlink ok]
    have hle := Set.ncard_insert_le right (markedNodes h)
    simp only [Pc.credit]
    omega
  | markFails key left right rightNext hlink =>
    exact .load le_rfl (effort_restart (.removeMark key left right rightNext) hlink _)
  | unlink key left right rightNext hlink =>
    rcases hpc with ⟨hl, hpub, hkey, hnext⟩
    have hunlinking := unlinking_of_remove ok hl hpub hkey hnext hlink
    have hne : right ≠ rightNext := by
      have hsucc : h.succ right = rightNext := by simp [Heap.succ, hnext]
      exact hsucc ▸ (ok.succ_ne hpub).symm
    exact .change (Nat.add_lt_add_right (hunlinking.markedNodes_lt ok hne) 0)
  | unlinkFails => exact .load le_rfl (effort_restart _ id _)

/-! ### `search` only bypasses nodes if there are some -/

theorem Found.apart (hfound : Found c left right pc) : Apart pc := by
  cases hfound with
  | _ => trivial

theorem check_apart (h : Heap) (c : Caller) (left right : ℕ) : Apart (check h c left right) := by
  unfold check
  split
  · trivial
  · exact (searched_found h c left right).apart

theorem adjacent_apart (h : Heap) (c : Caller) (left leftNext right : ℕ) :
    Apart (adjacent h c left leftNext right) := by
  unfold adjacent
  split
  · exact check_apart h c left right
  · rename_i hne
    exact hne

theorem visit_apart (h : Heap) (c : Caller) (left leftNext node : ℕ) (link : Link) :
    Apart (visit h c left leftNext node link) := by
  unfold visit
  simp only
  split
  · exact adjacent_apart h c _ _ _
  · trivial

theorem Stepped.apart (hstep : Stepped h pc h' pc') : Apart pc' := by
  cases hstep with
  | first c => exact visit_apart h c null null head _
  | next c left leftNext node hcond => exact visit_apart h c left leftNext node _
  | leave c left leftNext node hmark hkey => exact adjacent_apart h c left leftNext node
  | bypass c left leftNext right hlink => exact check_apart _ c left right
  | found c left right hmark => exact (searched_found h c left right).apart
  | _ => trivial

/-! ### A call in progress stays in progress -/

/-- 1 for a thread without a call. -/
def idle (pc : Pc) : ℕ :=
  if pc = .idle then 1 else 0

theorem Found.idle (hfound : Found c left right pc) : idle pc = 0 := by
  cases hfound with
  | _ => rfl

theorem SearchGoes.idle (hgoes : SearchGoes h c pc) : idle pc = 0 := by
  cases hgoes with
  | done left right => exact (searched_found h c left right).idle
  | _ => rfl

theorem Stepped.idle (hstep : Stepped h pc h' pc') : idle pc' = idle pc := by
  cases hstep with
  | first | next => exact (visit_goes _ _ _ _ _ _).idle
  | leave => exact (adjacent_goes _ _ _ _ _).idle
  | bypass => exact (check_goes _ _ _ _).idle
  | found c left right hmark => exact (searched_found _ c left right).idle
  | _ => rfl

theorem start_idle (h : Heap) (op : Op) : LockFree.idle (start h op).2 = 0 := by
  cases op <;> rfl

/-! ## All threads -/

variable {Tid : Type} [DecidableEq Tid] {s s' : State Tid} {t : Tid} {ev : Event}

theorem reachable_apart (hr : Reachable (system Tid) s) (u : Tid) : Apart (s.pc u) := by
  induction hr generalizing u with
  | init hinit =>
    rw [hinit.2 u]
    trivial
  | @step s s' l _ hnext ih =>
    have hupdate : ∀ pc', Apart pc' → Apart (Function.update s.pc l.1 pc' u) := fun pc' hpc' =>
      (Function.forall_update_iff s.pc fun _ pc => Apart pc).mpr ⟨hpc', fun u _ => ih u⟩ u
    rcases l with ⟨t, ev⟩
    cases acted_of_act hnext with
    | invoke op hidle =>
      refine hupdate _ ?_
      cases op <;> trivial
    | step h' pc' hadv => exact hupdate _ (stepped_of_advance hadv).apart
    | ret => exact hupdate _ trivial

section Threads

variable [Fintype Tid]

/-- Calls to be made, then changes of the chain, then steps of the present attempts. -/
noncomputable def rank (h : Heap) (pc : Tid → Pc) : ℕ ×ₗ ℕ ×ₗ ℕ :=
  toLex (∑ t, idle (pc t), toLex ((markedNodes h).ncard + ∑ t, (pc t).credit,
    ∑ t, effort h (pc t)))

theorem rank_invoke (hidle : s.pc t = .idle) (op : Op) (h' : Heap) :
    rank h' (Function.update s.pc t (start s.heap op).2) < rank s.heap s.pc := by
  refine Prod.Lex.toLex_lt_toLex.mpr (.inl (sum_update_lt (fun _ _ => rfl) ?_))
  rw [start_idle, hidle]
  exact Nat.zero_lt_one

theorem rank_step (hinv : Inv s) (hapart : Apart (s.pc t)) (hstep : Stepped s.heap (s.pc t) h' pc') :
    rank h' (Function.update s.pc t pc') < rank s.heap s.pc := by
  have hidle := sum_update_add idle s.pc t pc'
  have hcredit := sum_update_add Pc.credit s.pc t pc'
  rw [hstep.idle] at hidle
  refine Prod.Lex.toLex_lt_toLex.mpr (.inr ⟨by omega, Prod.Lex.toLex_lt_toLex.mpr ?_⟩)
  cases hstep.progress hinv.heap (hinv.thread t) hapart with
  | change hwork =>
    -- the sums differ from the old ones at `t` only
    unfold work at hwork
    exact .inl (by omega)
  | quiet halike hle heffort =>
    -- the efforts of the others do not depend on what `t` has done
    have hless : ∑ u, effort h' (Function.update s.pc t pc' u) < ∑ u, effort s.heap (s.pc u) :=
      sum_update_lt (fun u _ => halike.effort_eq hinv.heap (hinv.thread u)) heffort
    rw [halike.markedNodes_eq hinv.heap]
    by_cases heq : (s.pc t).credit = pc'.credit
    · exact .inr ⟨by omega, hless⟩
    · exact .inl (by omega)

/-- The list is lock-free: as long as some threads take steps, whatever the others do and
however often a thread has to start again, some call returns. -/
theorem returns_again (e : Behavior (system Tid)) (hactive : e.Active) (n : ℕ) :
    ∃ k t result, n ≤ k ∧ e.label k = some (t, .ret result) := by
  have hreturn := e.again_and_again (P := fun l => ∃ result, l.2 = .ret result) wellFounded_lt
    (fun s => rank s.heap s.pc) hactive ?_ n
  · rcases hreturn with ⟨k, ⟨t, ev⟩, hk, hl, result, rfl⟩
    exact ⟨k, t, result, hk, hl⟩
  · intro k l hl hret
    have hr := e.reachable k
    have hacted := acted_of_act (e.next k l hl)
    generalize e.state (k + 1) = s' at hacted
    rcases l with ⟨t, ev⟩
    -- a call starts, goes on or returns
    cases hacted with
    | invoke op hidle => exact rank_invoke hidle op _
    | step h' pc' hadv =>
      exact rank_step (reachable_inv hr) (reachable_apart hr t) (stepped_of_advance hadv)
    | ret op result hpc => exact absurd ⟨result, rfl⟩ hret

end Threads

end SysProg.LockFree
