import Mathlib.Tactic
import SysProg.Concurrency.HashMap
import SysProg.Concurrency.LockFreeSet
import SysProg.Lib.Loop

/-!
# The lock-free hash map, one call at a time

The map of `task4-concurrency/src/lockfreehashmap.cpp` without concurrency: a call runs from
its first to its last step before the next one begins.

* `call` — an operation of a list that runs alone;
* `Settled` — what holds between two calls: no node of the chain is marked;
* `search_alone` — a search that runs alone comes to its end at the first try;
* `call_alone` — every operation returns, with the result and the effect on a set;
* `map_call` — the same for the hash map.
-/

namespace SysProg.LockFree

open Orbit

/-! ## The model -/

/-- One step of a call while no other thread steps. -/
def aloneStep (s : Heap × Pc) : (Heap × Pc) ⊕ Option (Bool × Heap) :=
  match s.2 with
  | .ret _ result => .inr (some (result, s.1))
  | pc =>
      match advance s.1 pc with
      | some s' => .inl s'
      | none => .inr none

/-- An operation of a list that runs alone, with at most `rounds` steps. -/
def call (rounds : ℕ) (h : Heap) (op : Op) : Option (Bool × Heap) :=
  (Loop.run aloneStep rounds (start h op)).join

/-- `struct Map`. The nodes of each list are a memory of their own. -/
structure Map where
  buckets : List Heap
  length : ℕ

/-- `alloc_hashmap` with memory for everything. -/
def allocHashmap (nBuckets : ℕ) : Map where
  buckets := List.replicate nBuckets emptyList
  length := nBuckets

/-- `getIndex` has the same text in both maps. -/
def getIndex (length : ℕ) (key : ℤ) : ℤ :=
  HashMap.getIndex length key

def Op.key : Op → ℤ
  | .insert key | .remove key | .find key => key

/-- An operation on the bucket of its key. The result codes are `0` for true and `1` for false. -/
def Map.on (map : Map) (rounds : ℕ) (op : Op) : Option (ℕ × Map) := do
  let index := getIndex map.length op.key
  if index < 0 then none
  else
    let list ← map.buckets[index.toNat]?
    let (result, list) ← call rounds list op
    return (if result then 0 else 1, { map with buckets := map.buckets.set index.toNat list })

def insertItem (rounds : ℕ) (map : Map) (key : ℤ) : Option (ℕ × Map) :=
  map.on rounds (.insert key)

def removeItem (rounds : ℕ) (map : Map) (key : ℤ) : Option (ℕ × Map) :=
  map.on rounds (.remove key)

def lookupItem (rounds : ℕ) (map : Map) (key : ℤ) : Option (ℕ × Map) :=
  map.on rounds (.find key)

/-- One call: its result code and the map after it. -/
def mapStep (rounds : ℕ) (op : Op) (map : Map) : Option (ℕ × Map) :=
  match op with
  | .insert key => insertItem rounds map key
  | .remove key => removeItem rounds map key
  | .find key => lookupItem rounds map key

/-! ## Searching -/

/-- Between two calls no node of the chain is marked. -/
structure Settled (h : Heap) : Prop where
  ok : HeapOk h
  unmarked : ∀ x, OnChain h x → (h.next x).marked = false

/-- Running alone from here ends with this outcome. -/
def Ends (s : Heap × Pc) (r : Option (Bool × Heap)) : Prop :=
  ∃ rounds, Loop.run aloneStep rounds s = some r

variable {h h' : Heap} {c : Caller} {pc pc' : Pc} {op : Op} {left node right x : ℕ} {key k : ℤ}
  {r : Option (Bool × Heap)} {result : Bool}

theorem Ends.ret (h : Heap) (op : Op) (result : Bool) : Ends (h, .ret op result) (some (result, h)) :=
  ⟨1, rfl⟩

theorem Ends.step (hadv : advance h pc = some (h', pc')) (hend : Ends (h', pc') r) :
    Ends (h, pc) r := by
  rcases hend with ⟨rounds, hrun⟩
  refine ⟨rounds + 1, ?_⟩
  have hstep : aloneStep (h, pc) = .inl (h', pc') := by
    cases pc with
    | ret => cases hadv
    | _ => simp only [aloneStep, hadv]
  rw [Loop.run_succ_inl hstep, hrun]

/-- What a search that runs alone returns: two adjacent nodes around the place of the key. -/
structure Adjacent (h : Heap) (k : ℤ) (left right : ℕ) : Prop where
  before : Before h k left
  behind : Behind h k right
  link : h.next left = ⟨right, false⟩

/-- The successor of a node that is not marked. -/
theorem next_eq (hmark : (h.next x).marked = false) : h.next x = ⟨h.succ x, false⟩ := by
  rw [← hmark]
  rfl

/-- The search goes on from an unmarked node before the place of the key. -/
theorem visit_unmarked (c : Caller) (left leftNext : ℕ) (hmark : (h.next node).marked = false) :
    visit h c left leftNext node (h.next node) =
      if h.succ node = tail then searched h c node tail
      else .searchNext c node (h.succ node) (h.succ node) := by
  unfold visit
  rw [hmark]
  simp only [Bool.false_eq_true, if_false]
  have hptr : (h.next node).ptr = h.succ node := rfl
  rw [hptr]
  split
  · rename_i htail
    simp [adjacent, check, htail]
  · rfl

/-- The loop of a search from a node of the chain on. -/
theorem searchNext_alone (hs : Settled h) (i : ℕ) (hi : h.succ^[i] node = tail)
    (hnode : node ∈ h.published) (hchain : OnChain h node) (hl : Before h c.key left)
    (hlink : h.next left = ⟨node, false⟩) :
    ∃ left' right', Adjacent h c.key left' right' ∧
      ∀ r, Ends (h, searched h c left' right') r → Ends (h, .searchNext c left node node) r := by
  have hne : node ≠ tail := hs.ok.ne_tail hnode
  have hmark := hs.unmarked node hchain
  -- induction on the distance to the tail
  induction i generalizing node left with
  | zero => exact absurd hi hne
  | succ i ih =>
    by_cases hkey : h.key node < c.key
    · -- one node further
      have hbefore : Before h c.key node := ⟨.inr hnode, .inr hkey⟩
      have hadv : advance h (.searchNext c left node node) =
          some (h, visit h c left node node (h.next node)) := by
        simp [advance, hkey]
      rw [visit_unmarked c left node hmark] at hadv
      by_cases htail : h.succ node = tail
      · rw [if_pos htail] at hadv
        refine ⟨node, tail, ⟨hbefore, .inl rfl, ?_⟩, fun r hend => hend.step hadv⟩
        rw [next_eq hmark, htail]
      · rw [if_neg htail] at hadv
        have hnext : h.succ node ∈ h.published :=
          (hs.ok.target node (.inr hnode)).resolve_left htail
        have hchain' : OnChain h (h.succ node) := hchain.trans (.step _ _)
        rcases ih hi hnext hchain' hbefore (next_eq hmark) htail (hs.unmarked _ hchain') with
          ⟨left', right', hadj, hends⟩
        exact ⟨left', right', hadj, fun r hend => (hends r hend).step hadv⟩
    · -- the key is here or would be before this node
      have hadv : advance h (.searchNext c left node node) = some (h, .searchCheck c left node) := by
        simp [advance, hkey, hmark, adjacent, check, hne]
      have hcheck : advance h (.searchCheck c left node) = some (h, searched h c left node) := by
        simp [advance, hmark]
      exact ⟨left, node, ⟨hl, .inr ⟨hnode, not_lt.mp hkey⟩, hlink⟩,
        fun r hend => (hend.step hcheck).step hadv⟩

/-- A search that runs alone returns two adjacent nodes. -/
theorem search_alone (hs : Settled h) (c : Caller) :
    ∃ left right, Adjacent h c.key left right ∧
      ∀ r, Ends (h, searched h c left right) r → Ends (h, .searchHead c) r := by
  have hhead : Before h c.key head := ⟨.inl rfl, .inl rfl⟩
  have hmark := hs.ok.head
  have hadv : advance h (.searchHead c) = some (h, visit h c null null head (h.next head)) := rfl
  rw [visit_unmarked c null null hmark] at hadv
  -- the list is empty or has a first node
  by_cases htail : h.succ head = tail
  · rw [if_pos htail] at hadv
    refine ⟨head, tail, ⟨hhead, .inl rfl, ?_⟩, fun r hend => hend.step hadv⟩
    rw [next_eq hmark, htail]
  · rw [if_neg htail] at hadv
    have htarget := hs.ok.target head (.inl rfl)
    rcases hs.ok.reaches_tail htarget with ⟨i, hi⟩
    rcases searchNext_alone hs i hi (htarget.resolve_left htail) (.step _ _) hhead
      (next_eq hmark) with ⟨left, right, hadj, hends⟩
    exact ⟨left, right, hadj, fun r hend => (hends r hend).step hadv⟩

namespace Adjacent

variable (hadj : Adjacent h k left right) (hs : Settled h)
include hadj hs

theorem onChain : OnChain h right := by
  have hleft := hs.ok.onChain_of_listed hadj.before.listed (by rw [hadj.link])
  have hstep := hleft.trans (.step h.succ left)
  rwa [show h.succ left = right by simp [Heap.succ, hadj.link]] at hstep

/-- The node on the right has the key, or the key is not there. -/
theorem mem_iff : k ∈ keys h ↔ right ≠ tail ∧ h.key right = k := by
  constructor
  · intro hk
    -- keys between two adjacent nodes are absent
    by_contra hne
    refine hs.ok.absent_between hadj.before.listed hadj.link hadj.before.key ?_ hk
    rcases hadj.behind with htail | ⟨hpub, hle⟩
    · exact .inl htail
    · refine .inr ⟨hpub, lt_of_le_of_ne hle fun heq => hne ⟨hs.ok.ne_tail hpub, heq.symm⟩⟩
  · intro hkey
    have hpub := (hadj.behind.resolve_left hkey.1).1
    exact hs.ok.mem_keys.mpr ⟨right, hpub, hs.unmarked right (hadj.onChain hs), hkey.2⟩

end Adjacent

/-! ## The operations -/

theorem find_alone (hs : Settled h) (key : ℤ) : ∃ result, Ends (start h (.find key)) (some (result, h)) ∧
    (result = true ↔ key ∈ keys h) := by
  rcases search_alone hs (.find key) with ⟨left, right, hadj, hends⟩
  refine ⟨decide (right ≠ tail ∧ h.key right = key), hends _ (.ret h _ _), ?_⟩
  rw [decide_eq_true_iff]
  exact (hadj.mem_iff hs).symm

/-- A change of the nodes that are not published. -/
theorem Settled.of_unpublished (hs : Settled h) (ok : HeapOk h') (hx : x ∉ h.published)
    (hgt : tail < x) (hnext : ∀ y, y ≠ x → h'.next y = h.next y) : Settled h' := by
  refine ⟨ok, fun y hy => ?_⟩
  have hold : OnChain h y := by
    refine (hs.ok.onChain_iff_of_unpublished hx hgt fun z hz => ?_).mp hy
    simp [Heap.succ, hnext z hz]
  -- the node is not on the chain
  have hyx : y ≠ x := by
    rintro rfl
    rcases hs.ok.onChain_cases hold with rfl | rfl | hpub
    · exact absurd hgt (by decide)
    · exact lt_irrefl _ hgt
    · exact hx hpub
  rw [hnext y hyx]
  exact hs.unmarked y hold

theorem Settled.create (hs : Settled h) (key : ℤ) : Settled (h.create key) :=
  hs.of_unpublished ((Change.create key).ok hs.ok) hs.ok.fresh_unpublished hs.ok.fresh fun y hy => by
    simp [Heap.next, create_node hy]

theorem Settled.insert (hs : Settled h) (ins : Insertion h x left right) :
    Settled ((h.store left ⟨x, false⟩).publish x) := by
  refine ⟨ins.ok hs.ok, fun y hy => ?_⟩
  rw [publish_next, store_next]
  split
  · rfl
  · rcases (ins.onChain_iff hs.ok).mp hy with hold | rfl
    · exact hs.unmarked y hold
    · rw [ins.next]

theorem create_keys (hs : Settled h) (key : ℤ) : keys (h.create key) = keys h :=
  hs.ok.keys_of_unpublished hs.ok.fresh_unpublished hs.ok.fresh (fun _ hy => create_node hy) rfl
    (Nat.le_succ _)

/-- A node that is new and not yet in the list. -/
theorem Settled.create_private (hs : Settled h) (key : ℤ) : Private (h.create key) key h.fresh :=
  ⟨hs.ok.fresh_unpublished, hs.ok.fresh, Nat.lt_succ_self _, by simp [Heap.key, Heap.create]⟩

/-- The new node has its successor; everything else is as before. -/
structure Stored (h : Heap) (key : ℤ) (left right : ℕ) (h' : Heap) : Prop where
  settled : Settled h'
  insertion : Insertion h' h.fresh left right
  key : h'.key h.fresh = key
  keys : keys h' = LockFree.keys h

theorem Adjacent.stored (hs : Settled h) (hadj : Adjacent (h.create key) key left right)
    (hkey : ¬ (right ≠ tail ∧ (h.create key).key right = key)) :
    Stored h key left right ((h.create key).store h.fresh ⟨right, false⟩) := by
  have hs₁ := hs.create key
  have hprivate := hs.create_private key
  -- what `search` guarantees is enough for the store
  have hsearched : PcOk (h.create key)
      (searched (h.create key) (.insert key h.fresh) left right) :=
    searched_ok (c := .insert key h.fresh) hprivate hadj.before hadj.behind
  have hpc : searched (h.create key) (.insert key h.fresh) left right =
      .insertStore key h.fresh left right := if_neg hkey
  rw [hpc] at hsearched
  have hok := advance_spec hs₁.ok hsearched rfl
  have hs₂ : Settled ((h.create key).store h.fresh ⟨right, false⟩) := by
    rcases hok.change with ⟨o, -, hchange⟩
    exact hs₁.of_unpublished (hchange.ok hs₁.ok) hprivate.unpublished hprivate.gt fun y hy => by
      simp [hy]
  -- `left` is in the list, so it is not the new node
  have hne : left ≠ h.fresh := by
    rintro rfl
    rcases hadj.before.listed with heq | hpub
    · have hgt := hs.ok.fresh
      rw [heq] at hgt
      exact absurd hgt (by decide)
    · exact hprivate.unpublished hpub
  have hlink : ((h.create key).store h.fresh ⟨right, false⟩).next left = ⟨right, false⟩ := by
    rw [store_next, if_neg hne]
    exact hadj.link
  rcases hok.ok with ⟨hpriv, hl, hr, hnext⟩
  have hkeys : LockFree.keys ((h.create key).store h.fresh ⟨right, false⟩) =
      LockFree.keys (h.create key) :=
    hs₁.ok.keys_of_unpublished hprivate.unpublished hprivate.gt
      (fun y hy => by simp [Heap.store, hy]) rfl le_rfl
  refine ⟨hs₂, ⟨hpriv.unpublished, hpriv.gt, hpriv.lt, hnext, hl.listed, hlink, ?_, ?_⟩, hpriv.key,
    hkeys.trans (create_keys hs key)⟩
  · rw [hpriv.key]
    exact hl.key
  · rw [hpriv.key]
    exact hr

theorem insert_alone (hs : Settled h) (key : ℤ) :
    ∃ result h', Ends (start h (.insert key)) (some (result, h')) ∧ Settled h' ∧
      (result = true ↔ key ∉ keys h) ∧ keys h' = insert key (keys h) := by
  have hs₁ := hs.create key
  have hkeys := create_keys hs key
  rcases search_alone hs₁ (.insert key h.fresh) with ⟨left, right, hadj, hends⟩
  have hmem := hadj.mem_iff hs₁
  rw [hkeys] at hmem
  simp only [Caller.key] at hmem
  by_cases hkey : right ≠ tail ∧ (h.create key).key right = key
  · -- the key is there already
    have hret : searched (h.create key) (.insert key h.fresh) left right =
        .ret (.insert key) false := if_pos hkey
    have hin := hmem.mpr hkey
    refine ⟨false, h.create key, hends _ (hret ▸ .ret _ _ _), hs₁, by simp [hin], ?_⟩
    rw [hkeys, Set.insert_eq_of_mem hin]
  · have hpc : searched (h.create key) (.insert key h.fresh) left right =
        .insertStore key h.fresh left right := if_neg hkey
    have hstored := hadj.stored hs hkey
    have hstore : advance (h.create key) (.insertStore key h.fresh left right) =
        some ((h.create key).store h.fresh ⟨right, false⟩, .insertCas key h.fresh left right) := rfl
    have hcas : advance ((h.create key).store h.fresh ⟨right, false⟩)
        (.insertCas key h.fresh left right) =
        some ((((h.create key).store h.fresh ⟨right, false⟩).store left ⟨h.fresh, false⟩).publish
          h.fresh, .ret (.insert key) true) := by
      simp only [advance, Heap.cas, hstored.insertion.link, if_true]
    -- alone, the exchange succeeds
    have hkeys₂ := hstored.insertion.keys_eq hstored.settled.ok
    rw [hstored.key, hstored.keys] at hkeys₂
    refine ⟨true, _, hends _ (hpc ▸ ((Ends.ret _ _ _).step hcas).step hstore),
      hstored.settled.insert hstored.insertion, by simp [hkeys₂.1], hkeys₂.2⟩

/-- The node behind the gap is marked, and then bypassed. -/
structure Unlinked (h : Heap) (key : ℤ) (left right : ℕ) : Prop where
  link : (h.store right ⟨h.succ right, true⟩).next left = ⟨right, false⟩
  settled : Settled ((h.store right ⟨h.succ right, true⟩).store left ⟨h.succ right, false⟩)
  keys : keys ((h.store right ⟨h.succ right, true⟩).store left ⟨h.succ right, false⟩) =
    LockFree.keys h \ {key}

theorem Adjacent.unlinked (hs : Settled h) (hadj : Adjacent h key left right)
    (hkey : right ≠ tail ∧ h.key right = key) : Unlinked h key left right := by
  have hpub := (hadj.behind.resolve_left hkey.1).1
  have hnext := next_eq (hs.unmarked right (hadj.onChain hs))
  have hne : left ≠ right := by
    rintro rfl
    rcases hadj.before.key with heq | hlt
    · exact hs.ok.ne_head hpub heq
    · exact absurd hkey.2 hlt.ne
  have hlink : (h.store right ⟨h.succ right, true⟩).next left = ⟨right, false⟩ := by
    rw [store_next, if_neg hne]
    exact hadj.link
  have ok₁ := hs.ok.mark hpub hnext
  have hkeys := mark_keys hpub hnext hs.ok
  rw [hkey.2] at hkeys
  have hl : Before (h.store right ⟨h.succ right, true⟩) key left :=
    ⟨hadj.before.listed, by rw [store_key]; exact hadj.before.key⟩
  have hunl : Unlinking (h.store right ⟨h.succ right, true⟩) left right (h.succ right) :=
    unlinking_of_remove ok₁ hl hpub (by rw [store_key]; exact hkey.2) (by simp) hlink
  have hoff := hunl.off_chain ok₁ (hs.ok.succ_ne hpub).symm
  refine ⟨hlink, ⟨hunl.ok ok₁, fun y hy => ?_⟩, ?_⟩
  · -- only the bypassed node was marked
    have hyr : y ≠ right := by
      rintro rfl
      exact hoff hy
    rw [hunl.marked_eq, store_next, if_neg hyr]
    exact hs.unmarked y ((mark_onChain hnext).mp (hunl.onChain_of hy))
  · rw [hunl.keys_eq ok₁, hkeys.2]

theorem remove_alone (hs : Settled h) (key : ℤ) :
    ∃ result h', Ends (start h (.remove key)) (some (result, h')) ∧ Settled h' ∧
      (result = true ↔ key ∈ keys h) ∧ keys h' = keys h \ {key} := by
  rcases search_alone hs (.remove key) with ⟨left, right, hadj, hends⟩
  have hmem := hadj.mem_iff hs
  simp only [Caller.key] at hmem
  by_cases hkey : right ≠ tail ∧ h.key right = key
  · -- alone, neither of the two exchanges fails
    have hin := hmem.mpr hkey
    have hpc : searched h (.remove key) left right = .removeLoad key left right :=
      if_neg (by simp [hkey])
    have hnext := next_eq (hs.unmarked right (hadj.onChain hs))
    have hunlinked := hadj.unlinked hs hkey
    have hload : advance h (.removeLoad key left right) =
        some (h, .removeMark key left right (h.succ right)) := by
      simp [advance, hnext]
    have hmark : advance h (.removeMark key left right (h.succ right)) =
        some (h.store right ⟨h.succ right, true⟩, .removeUnlink key left right (h.succ right)) := by
      simp only [advance, Heap.cas, hnext, if_true]
    have hunlink : advance (h.store right ⟨h.succ right, true⟩)
        (.removeUnlink key left right (h.succ right)) =
        some ((h.store right ⟨h.succ right, true⟩).store left ⟨h.succ right, false⟩,
          .ret (.remove key) true) := by
      simp only [advance, Heap.cas, hunlinked.link, if_true]
    exact ⟨true, _, hends _ (hpc ▸ (((Ends.ret _ _ _).step hunlink).step hmark).step hload),
      hunlinked.settled, by simp [hin], hunlinked.keys⟩
  · -- nothing to remove
    have hret : searched h (.remove key) left right = .ret (.remove key) false :=
      if_pos (by tauto)
    have hout := mt hmem.mp hkey
    refine ⟨false, h, hends _ (hret ▸ .ret _ _ _), hs, by simp [hout], ?_⟩
    rw [Set.sdiff_singleton_eq_self hout]

/-- Every operation that runs alone returns, with the result and the effect on the set of the
keys. -/
theorem call_alone (hs : Settled h) (op : Op) :
    ∃ rounds result h', call rounds h op = some (result, h') ∧ Settled h' ∧
      Sequential op result (keys h) (keys h') := by
  have hall : ∃ result h', Ends (start h op) (some (result, h')) ∧ Settled h' ∧
      Sequential op result (keys h) (keys h') := by
    cases op with
    | insert key => exact insert_alone hs key
    | remove key => exact remove_alone hs key
    | find key =>
      rcases find_alone hs key with ⟨result, hend, hresult⟩
      exact ⟨result, h, hend, hs, hresult, rfl⟩
  rcases hall with ⟨result, h', ⟨rounds, hrun⟩, hs', hseq⟩
  exact ⟨rounds, result, h', by simp [call, hrun], hs', hseq⟩

/-! ## The map -/

/-- The lists hold the keys of the set, each in its bucket. -/
structure Represents (n : ℕ) (map : Map) (A : Set ℤ) : Prop where
  length : map.length = n
  buckets : map.buckets.length = n
  settled : ∀ (b : ℕ) (h : Heap), map.buckets[b]? = some h → Settled h
  keys : ∀ (b : ℕ) (h : Heap), map.buckets[b]? = some h → keys h = {k ∈ A | getIndex n k = b}

variable {n b rounds rounds' : ℕ} {map : Map} {A : Set ℤ} {s s' : ℕ × Map}

theorem mapStep_eq (rounds : ℕ) (op : Op) (map : Map) : mapStep rounds op map = map.on rounds op := by
  cases op <;> rfl

/-- A call that returned would have returned the same with more steps. -/
theorem mapStep_unique (hrun : mapStep rounds op map = some s)
    (hrun' : mapStep rounds' op map = some s') : s = s' := by
  simp only [mapStep_eq, Map.on] at hrun hrun'
  split at hrun
  · cases hrun
  · rename_i hindex
    rw [if_neg hindex] at hrun'
    simp only [Option.bind_eq_bind, Option.bind_eq_some_iff, call, Option.join_eq_some_iff]
      at hrun hrun'
    rcases hrun with ⟨list, hlist, r, hr, hs⟩
    rcases hrun' with ⟨list', hlist', r', hr', hs'⟩
    rcases Option.some.inj (hlist.symm.trans hlist') with rfl
    rcases Option.some.inj (Loop.run_unique hr hr') with rfl
    exact Option.some.inj (hs.symm.trans hs')

/-- The set after an operation. -/
def applied (op : Op) (A : Set ℤ) : Set ℤ :=
  match op with
  | .insert k => insert k A
  | .remove k => A \ {k}
  | .find _ => A

/-- A list with the keys of its bucket has them after the operation as well. -/
theorem Sequential.bucket {B : Set ℤ} {p : ℤ → Prop} (hseq : Sequential op result {k ∈ A | p k} B)
    (hp : p op.key) : Sequential op result A (applied op A) ∧ B = {k ∈ applied op A | p k} := by
  cases op with
  | insert key =>
    have hp : p key := hp
    rcases hseq with ⟨hresult, rfl⟩
    -- the new key is one of this bucket
    refine ⟨⟨by simpa [hp] using hresult, rfl⟩, Set.ext fun k => ?_⟩
    simp only [applied, Set.mem_insert_iff, Set.mem_ofPred_eq]
    constructor
    · rintro (rfl | ⟨hk, hpk⟩)
      · exact ⟨.inl rfl, hp⟩
      · exact ⟨.inr hk, hpk⟩
    · rintro ⟨hk, hpk⟩
      exact hk.imp_right fun hk => ⟨hk, hpk⟩
  | remove key =>
    have hp : p key := hp
    rcases hseq with ⟨hresult, rfl⟩
    refine ⟨⟨by simpa [hp] using hresult, rfl⟩, Set.ext fun k => ?_⟩
    simp only [applied, Set.mem_sdiff, Set.mem_ofPred_eq, Set.mem_singleton_iff]
    exact and_right_comm
  | find key =>
    have hp : p key := hp
    rcases hseq with ⟨hresult, rfl⟩
    exact ⟨⟨by simpa [hp] using hresult, rfl⟩, rfl⟩

/-- Keys of other buckets stay. -/
theorem applied_other {p : ℤ → Prop} (op : Op) (hp : ¬ p op.key) :
    {k ∈ applied op A | p k} = {k ∈ A | p k} := by
  ext k
  have hk : p k → k ≠ op.key := by
    rintro hpk rfl
    exact hp hpk
  cases op with
  | insert =>
    simp only [applied, Op.key, Set.mem_insert_iff, Set.mem_ofPred_eq] at hk ⊢
    exact ⟨fun h => ⟨h.1.resolve_left (hk h.2), h.2⟩, fun h => ⟨.inr h.1, h.2⟩⟩
  | remove =>
    simp only [applied, Op.key, Set.mem_sdiff, Set.mem_ofPred_eq, Set.mem_singleton_iff] at hk ⊢
    exact ⟨fun h => ⟨h.1.1, h.2⟩, fun h => ⟨⟨h.1, hk h.2⟩, h.2⟩⟩
  | find => rfl

/-- Every call of the map that runs alone returns, with the result and the effect on the set. -/
theorem map_call (hrep : Represents n map A) (hn : 1 ≤ n) (hmax : n < 2 ^ 31) (op : Op) :
    ∃ rounds result map', mapStep rounds op map = some (if result then 0 else 1, map') ∧
      Represents n map' (applied op A) ∧ Sequential op result A (applied op A) := by
  rcases HashMap.getIndex_eq hn hmax op.key with ⟨b, hb, hindex⟩
  rw [← getIndex] at hindex
  rw [← hrep.buckets] at hb
  obtain ⟨list, hlist⟩ : ∃ list, map.buckets[b]? = some list :=
    ⟨_, List.getElem?_eq_getElem hb⟩
  have hsettled := hrep.settled b list hlist
  rcases call_alone hsettled op with ⟨rounds, result, list', hcall, hs, hseq⟩
  rw [hrep.keys b list hlist] at hseq
  rcases hseq.bucket hindex with ⟨hresult, hkeys⟩
  refine ⟨rounds, result, { map with buckets := map.buckets.set b list' }, ?_,
    ⟨hrep.length, by simp [hrep.buckets], ?_, ?_⟩, hresult⟩
  · simp [mapStep_eq, Map.on, hrep.length, hindex, hlist, hcall]
  · intro d t ht
    rw [List.getElem?_set, if_pos hb] at ht
    split at ht
    · rcases Option.some.inj ht with rfl
      exact hs
    · exact hrep.settled d t ht
  · intro d t ht
    rw [List.getElem?_set, if_pos hb] at ht
    split at ht
    · rename_i heq
      rcases Option.some.inj ht with rfl
      -- the list of the operation
      rw [hkeys, heq]
    · -- the keys of the other lists have another index
      rename_i hne
      rw [hrep.keys d t ht, applied_other op]
      rw [hindex]
      omega

theorem emptyList_settled : Settled emptyList := by
  refine ⟨emptyList_ok, fun x _ => ?_⟩
  simp only [emptyList, Heap.next]
  split <;> rfl

theorem emptyList_keys : keys emptyList = ∅ := by
  ext k
  rw [emptyList_ok.mem_keys]
  simp [emptyList]

theorem alloc_represents (n : ℕ) : Represents n (allocHashmap n) ∅ := by
  refine ⟨rfl, by simp [allocHashmap], fun b t ht => ?_, fun b t ht => ?_⟩
  · rw [allocHashmap, List.getElem?_replicate] at ht
    rcases (Option.ite_none_right_eq_some.mp ht).2 with ⟨⟩
    exact emptyList_settled
  · rw [allocHashmap, List.getElem?_replicate] at ht
    rcases (Option.ite_none_right_eq_some.mp ht).2 with ⟨⟩
    simp [emptyList_keys]

end SysProg.LockFree
