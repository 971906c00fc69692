import Mathlib.Tactic
import SysProg.Concurrency.HashMapLocks

/-!
# Safety of the lock-based hash map

* `mutex_map_safe` — no thread accesses a node that is not allocated, no two threads access the
  same node at a time, and every node that is allocated is in a list or in the hands of a call;
* `mutex_map_deadlock_free` — a thread waits for one mutex at a time and holds none meanwhile;
* `freeHashmap_frees_all` — when all calls have returned, `free_hashmap` gets every mutex and
  deletes every node, and none twice.
-/

namespace SysProg.HashMap

open LinkedCells Lts

variable {Tid : Type} {n b y : ℕ} {s : State Tid} {t : Tid} {paths : ℕ → List ℕ}
  {bag : Multiset ℤ} {nodes : Cells ℤ} {q : List ℕ} {p : Point}
  {rest : List Section} {results : List Res}

/-! ## Accesses -/

/-- The node that the next step of a section loads, stores or deletes. -/
def Point.access : Point → Option ℕ
  | .insertNew _ _ | .leave _ => none
  | .insertLoad _ node _ | .insertLink _ node _ | .insertValue _ _ node | .insertNext _ _ node _
  | .removeTest _ node | .removePeek _ node | .removeCompare _ _ node | .removeTake _ node
  | .removeFollow _ node _ | .removeSkip _ _ _ node | .removeLink _ node _ _
  | .removeAdvance _ node | .removeDelete node | .lookupFirst _ node | .lookupCompare _ node
  | .lookupAdvance _ node | .printFirst _ node | .printValue _ node _ | .printAdvance _ node _ =>
      some node

def Pc.access : Pc → Option ℕ
  | .inside _ _ _ point => point.access
  | _ => none

theorem advance_none {fresh : ℕ} (hy : p.access = some y) (hnone : nodes y = none) :
    advance nodes fresh p = none := by
  cases p <;> simp_all [Point.access, advance]

/-- A section accesses its footprint only: without the other nodes it would go on in the same
way. -/
theorem Holds.access {s : ℕ} (h : Holds nodes s q p) (hy : p.access = some y) :
    Footprint s q p y := by
  by_contra hnot
  have hnone : Function.update nodes y none y = none := Function.update_self _ _ _
  have hleft : Holds (Function.update nodes y none) s q p := by
    refine h.congr fun z hz => Function.update_of_ne ?_ _ _
    rintro rfl
    exact hnot hz
  have hleave : ∀ result, p ≠ .leave result := by
    rintro result rfl
    cases hy
  have hallowed : p.allowed (Function.update nodes y none) y = true := by
    cases p <;> simp [Point.allowed]
  rcases advance_step hleft hleave hallowed with ⟨nodes', p', q', hadvance, -⟩
  rw [advance_none hy hnone] at hadvance
  cases hadvance

section Safe

variable [DecidableEq Tid]

theorem reachable_inv (hn : 1 ≤ n) (hmax : n < 2 ^ 31) (hr : Reachable (threads n Tid) s) :
    ∃ paths bag, Inv n s paths bag := by
  have hsim : ∃ o, Reachable ((atomicBag n).system Tid) o ∧ Simulates n s o := by
    refine Reachable.simulation (fun s hs => Simulates.init hs) ?_ hr
    intro l s s' o _ h hact
    rcases Simulates.step hn hmax h hact with ⟨h', -⟩ | ⟨k, o', hnext, h', -⟩
    · exact ⟨o, .inl rfl, h'⟩
    · exact ⟨o', .inr ⟨k, hnext⟩, h'⟩
  rcases hsim with ⟨o, -, ⟨paths, hinv⟩, -⟩
  exact ⟨paths, o.value, hinv⟩

/-- No thread ever accesses a node that is not allocated, no two threads are about to access the
same node, and every node that is allocated is in the list of one bucket or in the hands of the
call that is at work there. -/
theorem mutex_map_safe (n : ℕ) (hn : 1 ≤ n) (hmax : n < 2 ^ 31) (s : State Tid)
    (hr : Reachable (threads n Tid) s) :
    (∀ t, s.pc t ≠ .crashed) ∧
      (∀ t u x, (s.pc t).access = some x → (s.pc u).access = some x → t = u) ∧
      ∃ paths bag, Represents n s.map paths bag ∧
        ∀ y, s.map.nodes y ≠ none → ∃! b, Belongs s paths b y := by
  rcases reachable_inv hn hmax hr with ⟨paths, bag, hinv⟩
  have hbelongs : ∀ t x, (s.pc t).access = some x → ∃ b rest results p,
      s.pc t = .inside b rest results p ∧ Belongs s paths b x := by
    intro t x hx
    cases hpc : s.pc t with
    | inside b rest results p =>
      rw [hpc] at hx
      rcases (hinv.inside t b rest results p hpc).bucket with ⟨sentinel, hs, hholds⟩
      exact ⟨b, rest, results, p, rfl, (hinv.belongs_iff hpc hs).mpr (hholds.access hx)⟩
    | _ =>
      rw [hpc] at hx
      cases hx
  refine ⟨hinv.crashed, ?_, paths, bag, hinv.represents, ?_⟩
  · -- a node has one bucket, and a bucket one thread
    intro t u x ht hu
    rcases hbelongs t x ht with ⟨b, rest, results, p, hpc, hb⟩
    rcases hbelongs u x hu with ⟨c, rest', results', p', hpc', hc⟩
    rcases hinv.apart b c x hb hc with rfl
    exact hinv.alone hpc hpc'
  · intro y hy
    rcases hinv.allocated y hy with ⟨b, hb⟩
    exact ⟨b, hb, fun c hc => hinv.apart c b y hc hb⟩

theorem mutex_map_safe_insertPrint :
    ((insertPrint.state 6).pc true).access = some 7 ∧ (insertPrint.state 6).pc false ≠ .crashed :=
  ⟨by decide +kernel,
    (mutex_map_safe 2 (by decide) (by decide) _ (insertPrint.reachable 6)).1 false⟩

/-! ## Mutexes -/

/-- A thread that holds a mutex can go on. -/
theorem Inv.inside_enabled (h : Inv n s paths bag) (hpc : s.pc t = .inside b rest results p) :
    ∃ s', act (t, .step 0) s = some s' := by
  by_cases hleave : ∃ result, p = .leave result
  · rcases hleave with ⟨result, rfl⟩
    exact ⟨_, by simp only [act, hpc, work]; rfl⟩
  · have hallowed : p.allowed s.map.nodes 0 = true := by
      cases p <;> simp [Point.allowed, h.represents.null]
    simp only [not_exists] at hleave
    rcases h.advance hpc hleave hallowed with ⟨nodes', p', paths', bag', hadvance, -⟩
    refine ⟨s.worked t nodes' (.inside b rest results p'), ?_⟩
    simp only [act, hpc]
    unfold work
    split
    · rename_i result
      exact absurd rfl (hleave result)
    · rw [if_pos hallowed, hadvance]
      rfl

/-- Thread `t` is at a mutex that `u` holds. -/
def WaitsFor (s : State Tid) (t u : Tid) : Prop :=
  ∃ a rest results, s.pc t = .between (a :: rest) results ∧
    s.locks (a.index s.map.length).toNat = some u

/-- The map does not deadlock: a thread in a call can go on, or it waits for a mutex whose holder
can, since no thread waits for a mutex while it holds one. -/
theorem mutex_map_deadlock_free (n : ℕ) (hn : 1 ≤ n) (hmax : n < 2 ^ 31) (s : State Tid)
    (hr : Reachable (threads n Tid) s) (t : Tid) (hbusy : s.pc t ≠ .idle) :
    ∃ u ev s', (u = t ∨ WaitsFor s t u) ∧ (∀ op, ev ≠ .invoke op) ∧
      (threads n Tid).Next (u, ev) s s' := by
  rcases reachable_inv hn hmax hr with ⟨paths, bag, hinv⟩
  cases hpc : s.pc t with
  | idle => exact absurd hpc hbusy
  | crashed => exact absurd hpc (hinv.crashed t)
  | inside =>
    rcases hinv.inside_enabled hpc with ⟨s', hs'⟩
    exact ⟨t, .step 0, s', .inl rfl, by simp, hs'⟩
  | between todo results =>
    cases todo with
    | nil => exact ⟨t, .ret results, s.put t .idle, .inl rfl, by simp, by simp [threads, act, hpc]⟩
    | cons a rest =>
      rcases hinv.bucket hpc with ⟨b, sentinel, hindex, -, hbucket⟩
      cases hlock : s.locks b with
      | none =>
        refine ⟨t, .step 0, { s with locks := Function.update s.locks b (some t) }.put t
          (.inside b rest results (a.start sentinel)), .inl rfl, by simp, ?_⟩
        simp only [threads, act, hpc, HashMap.lock, hbucket]
        rw [hindex, Int.toNat_natCast, hlock]
        rfl
      -- the holder is inside of its section, and can go on
      | some u =>
        rcases hinv.locks b u hlock with ⟨rest', results', p, hpcu⟩
        rcases hinv.inside_enabled hpcu with ⟨s', hs'⟩
        refine ⟨u, .step 0, s', .inr ⟨a, rest, results, hpc, ?_⟩, by simp, hs'⟩
        rw [hindex, Int.toNat_natCast, hlock]

end Safe

theorem mutex_map_deadlock_free_insertPrint :
    (insertPrint.state 8).locks 1 = some true ∧ ∃ u ev s',
      (u = false ∨ WaitsFor (insertPrint.state 8) false u) ∧ (∀ op, ev ≠ .invoke op) ∧
        (threads 2 Bool).Next (u, ev) (insertPrint.state 8) s' :=
  ⟨by decide +kernel, mutex_map_deadlock_free 2 (by decide) (by decide) _ (insertPrint.reachable 8)
    false (by decide +kernel)⟩

/-! ## The end of the map -/

/-- One round of the loop of `free_hashmap` over the nodes of a bucket. -/
def freeStep (s : ℕ × Cells ℤ) : (ℕ × Cells ℤ) ⊕ Option (Cells ℤ) :=
  let (node, nodes) := s
  if node = 0 then .inr (some nodes)
  else
    match nodes node with
    | none => .inr none
    | some n => .inl (n.next, Function.update nodes node none)

/-- One bucket of `free_hashmap`: `lock`, which has no result at a mutex that is held, and the
loop over the nodes. -/
def freeBucket (rounds : ℕ) (s : State Tid) (nodes : Cells ℤ) (i : ℕ) : Option (Cells ℤ) := do
  let sentinel ← s.map.buckets[i]?
  if (s.locks i).isSome then none
  else (Loop.run freeStep rounds (sentinel, nodes)).join

/-- The loop of `free_hashmap` over the buckets: the nodes that are left. The `List` objects, the
array and the map are not part of the model. -/
def freeHashmap (rounds : ℕ) (s : State Tid) : Option (Cells ℤ) :=
  (List.range s.map.length).foldlM (freeBucket rounds s) s.map.nodes

/-- The nodes without some of them. -/
def without (nodes : Cells ℤ) (l : List ℕ) : Cells ℤ :=
  fun y => if y ∈ l then none else nodes y

/-- The loop deletes the nodes of a list. -/
theorem free_run {a : ℕ} (hc : Chain nodes a q) (hnodup : q.Nodup) :
    Loop.run freeStep (q.length + 1) (a, nodes) = some (some (without nodes q)) := by
  induction q generalizing a nodes with
  | nil =>
    have hstep : freeStep (a, nodes) = .inr (some nodes) := by
      simp [freeStep, show a = 0 from hc]
    exact Loop.run_succ_inr hstep
  | cons x q ih =>
    rcases hc with ⟨rfl, hne, c, hx, hrest⟩
    rw [List.nodup_cons] at hnodup
    have hstep : freeStep (a, nodes) = .inl (c.next, Function.update nodes a none) := by
      simp [freeStep, hne, hx]
    -- the next pointer was read before the deletion
    have hrest' : Chain (Function.update nodes a none) c.next q := by
      refine hrest.congr fun y hy => Function.update_of_ne ?_ _ _
      rintro rfl
      exact hnodup.1 hy
    have hwithout : without (Function.update nodes a none) q = without nodes (a :: q) := by
      funext y
      by_cases hy : y = a
      · simp [without, hy]
      · simp [without, hy]
    rw [List.length_cons, Loop.run_succ_inl hstep, ih hrest' hnodup.2, hwithout]

/-- The first buckets have been freed: their nodes are deleted, and the others are as they
were. -/
structure Freed (s : State Tid) (paths : ℕ → List ℕ) (k : ℕ) (nodes : Cells ℤ) : Prop where
  gone : ∀ b < k, ∀ sentinel, s.map.buckets[b]? = some sentinel → ∀ y ∈ sentinel :: paths b,
    nodes y = none
  left : ∀ y, (∀ b < k, ∀ sentinel, s.map.buckets[b]? = some sentinel → y ∉ sentinel :: paths b) →
    nodes y = s.map.nodes y

theorem Inv.freed (h : Inv n s paths bag) (hfree : ∀ b, s.locks b = none) {rounds k : ℕ}
    (hrounds : ∀ b < n, (paths b).length + 2 ≤ rounds) (hk : k ≤ n) :
    ∃ nodes, (List.range k).foldlM (freeBucket rounds s) s.map.nodes = some nodes ∧
      Freed s paths k nodes := by
  induction k with
  | zero => exact ⟨_, rfl, fun _ hb => absurd hb (Nat.not_lt_zero _), fun _ _ => rfl⟩
  | succ k ih =>
    rcases ih (by omega) with ⟨nodes, hfold, hfreed⟩
    have hlt : k < s.map.buckets.length := by
      rw [h.represents.buckets]
      exact hk
    have hs := List.getElem?_eq_getElem hlt
    -- no node of this bucket was in one before it
    have hapart : ∀ y ∈ s.map.buckets[k] :: paths k, ∀ b < k, ∀ sentinel,
        s.map.buckets[b]? = some sentinel → y ∉ sentinel :: paths b := by
      intro y hy b hb sentinel hsentinel hmem
      exact hb.ne (h.represents.apart b k sentinel _ y hsentinel hs hmem hy)
    have hchain : Chain nodes s.map.buckets[k] (s.map.buckets[k] :: paths k) :=
      (h.represents.chain k _ hs).congr fun y hy => hfreed.left y (hapart y hy)
    have hrun := Loop.run_mono (hrounds k hk) (free_run hchain (h.represents.nodup k _ hs))
    refine ⟨without nodes (s.map.buckets[k] :: paths k), ?_, ?_, ?_⟩
    · simp [List.range_succ, hfold, freeBucket, hs, hfree, hrun]
    · intro b hb sentinel hsentinel y hy
      refine ite_eq_left_iff.mpr fun hnot => ?_
      rcases Nat.lt_succ_iff_lt_or_eq.mp hb with hb | rfl
      · exact hfreed.gone b hb sentinel hsentinel y hy
      · rw [hs] at hsentinel
        cases hsentinel
        exact absurd hy hnot
    · intro y hy
      have hnot := hy k (Nat.lt_succ_self k) _ hs
      rw [without, if_neg hnot]
      exact hfreed.left y fun b hb => hy b (Nat.lt_succ_of_lt hb)

/-- When no thread is in a call, `free_hashmap` gets every mutex, deletes every node that is
allocated, and no node that is not. -/
theorem freeHashmap_frees_all [DecidableEq Tid] (n : ℕ) (hn : 1 ≤ n) (hmax : n < 2 ^ 31)
    (s : State Tid) (hr : Reachable (threads n Tid) s) (hidle : ∀ t, s.pc t = .idle) :
    ∃ rounds, freeHashmap rounds s = some fun _ => none := by
  rcases reachable_inv hn hmax hr with ⟨paths, bag, hinv⟩
  have hfree : ∀ b, s.locks b = none := by
    intro b
    refine Option.eq_none_iff_forall_ne_some.mpr fun t => hinv.not_locked ?_
    simp [hidle t]
  obtain ⟨rounds, hrounds⟩ : ∃ rounds, ∀ b < n, (paths b).length + 2 ≤ rounds :=
    ⟨(Finset.range n).sup fun b => (paths b).length + 2, fun b hb =>
      Finset.le_sup (f := fun b => (paths b).length + 2) (Finset.mem_range.mpr hb)⟩
  rcases hinv.freed hfree hrounds le_rfl with ⟨nodes, hfold, hfreed⟩
  refine ⟨rounds, ?_⟩
  rw [freeHashmap, hinv.represents.length, hfold]
  congr 1
  funext y
  by_cases hlists : ∃ b sentinel, s.map.buckets[b]? = some sentinel ∧ y ∈ sentinel :: paths b
  · rcases hlists with ⟨b, sentinel, hs, hmem⟩
    have hb : b < n := hinv.represents.buckets ▸ (List.getElem?_eq_some_iff.mp hs).1
    exact hfreed.gone b hb sentinel hs y hmem
  · rw [hfreed.left y fun b _ sentinel hs hmem => hlists ⟨b, sentinel, hs, hmem⟩]
    by_contra hy
    -- the lists have all nodes, since no call has one
    rcases hinv.allocated y hy with ⟨b, hlist | ⟨t, hown⟩⟩
    · exact hlists ⟨b, hlist⟩
    · rw [hidle t] at hown
      exact hown

theorem insertPrint_idle (t : Bool) : (insertPrint.state 20).pc t = .idle := by
  revert t
  decide +kernel

theorem freeHashmap_frees_all_insertPrint :
    (insertPrint.state 20).map.nodes 7 = some ⟨5, 0⟩ ∧
      ∃ rounds, freeHashmap rounds (insertPrint.state 20) = some fun _ => none :=
  ⟨by decide +kernel, freeHashmap_frees_all 2 (by decide) (by decide) _ (insertPrint.reachable 20)
    insertPrint_idle⟩

end SysProg.HashMap
