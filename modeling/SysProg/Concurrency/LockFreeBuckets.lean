import Mathlib.Tactic
import SysProg.Concurrency.LockFreeMap
import SysProg.Concurrency.LockFreeProgress
import SysProg.Concurrency.LockFreeRemoval

/-!
# The lock-free hash map under concurrency

Any number of threads call `insert_item`, `remove_item` and `lookup_item`, and each works on
the list of its key's bucket.

* `mapAct` — the steps of the map;
* `bucketBehavior` — what happens in one bucket is a behavior of one list;
* `MapInv` — a key is only in the list of its own bucket;
* `map_linearizable` — every call takes effect at one of its steps, on the keys of all buckets;
* `map_lock_free` — while threads take steps, calls return.
-/

namespace SysProg.LockFree

open Lts

/-! ## The model -/

/-- A call, a step of it, and its return with a result code. -/
inductive MapEvent where
  | invoke (op : Op)
  | step
  | ret (code : ℕ)
deriving DecidableEq, Repr

structure MapState (Tid : Type) where
  map : Map
  /-- The bucket of the thread's present or last call. -/
  index : Tid → ℕ
  pc : Tid → Pc

variable {Tid : Type} [DecidableEq Tid]

/-- A thread has done a step on the list at `index`. -/
def MapState.put (s : MapState Tid) (t : Tid) (index : ℕ) (r : Heap × Pc) : MapState Tid where
  map := { s.map with buckets := s.map.buckets.set index r.1 }
  index := Function.update s.index t index
  pc := Function.update s.pc t r.2

/-- `map->buckets[index]->insert(key) ? 0 : 1`, and the same for the other operations. -/
def code (result : Bool) : ℕ := if result then 0 else 1

def mapAct (l : Tid × MapEvent) (s : MapState Tid) : Option (MapState Tid) :=
  match l.2, s.pc l.1 with
  | .invoke op, .idle =>
      let index := getIndex s.map.length op.key
      if index < 0 then none
      else s.map.buckets[index.toNat]?.map fun list => s.put l.1 index.toNat (start list op)
  | .ret c, .ret _ result =>
      if c = code result then some { s with pc := Function.update s.pc l.1 .idle } else none
  | .step, pc =>
      s.map.buckets[s.index l.1]?.bind fun list => (advance list pc).map (s.put l.1 (s.index l.1))
  | _, _ => none

/-- Threads that share a map with `nBuckets` lists. -/
def concurrentMap (nBuckets : ℕ) (Tid : Type) [DecidableEq Tid] :
    System (MapState Tid) (Tid × MapEvent) where
  Init s := s.map = allocHashmap nBuckets ∧ ∀ t, s.pc t = .idle
  Next l s s' := mapAct l s = some s'

/-- The keys in all the lists. -/
def mapKeys (map : Map) : Set ℤ :=
  {k | ∃ list ∈ map.buckets, k ∈ keys list}

variable {n b d i j m : ℕ} {s s' : MapState Tid} {t u : Tid} {ev : MapEvent} {op : Op} {k : ℤ}
  {r : Heap × Pc} {h : Heap} {result : Bool} {l : Tid × Event}

/-- What an event of thread `t` does. -/
inductive MapActed (s : MapState Tid) (t : Tid) : MapEvent → MapState Tid → Prop where
  | invoke (op : Op) (b : ℕ) (list : Heap) : s.pc t = .idle →
      getIndex s.map.length op.key = b → s.map.buckets[b]? = some list →
      MapActed s t (.invoke op) (s.put t b (start list op))
  | step (list h' : Heap) (pc' : Pc) : s.map.buckets[s.index t]? = some list →
      advance list (s.pc t) = some (h', pc') →
      MapActed s t .step (s.put t (s.index t) (h', pc'))
  | ret (op : Op) (result : Bool) : s.pc t = .ret op result →
      MapActed s t (.ret (code result)) { s with pc := Function.update s.pc t .idle }

theorem mapActed_of_mapAct (hact : mapAct (t, ev) s = some s') : MapActed s t ev s' := by
  cases ev with
  | invoke op =>
    cases hpc : s.pc t with
    | idle =>
      simp only [mapAct, hpc] at hact
      split at hact
      · -- an index below zero is outside of the array
        cases hact
      · rename_i hindex
        rcases Option.map_eq_some_iff.mp hact with ⟨list, hlist, rfl⟩
        exact .invoke op _ list hpc (Int.toNat_of_nonneg (not_lt.mp hindex)).symm hlist
    | _ => simp [mapAct, hpc] at hact
  | step =>
    simp only [mapAct, Option.bind_eq_some_iff, Option.map_eq_some_iff] at hact
    rcases hact with ⟨list, hlist, ⟨h', pc'⟩, hadv, rfl⟩
    exact .step list h' pc' hlist hadv
  | ret =>
    cases hpc : s.pc t with
    | ret op result =>
      simp only [mapAct, hpc] at hact
      split at hact
      · rename_i heq
        subst heq
        exact Option.some.inj hact ▸ .ret op result hpc
      · cases hact
    | _ => simp [mapAct, hpc] at hact

/-! ## One bucket -/

/-- The list at an index. -/
def MapState.list (s : MapState Tid) (b : ℕ) : Heap :=
  s.map.buckets[b]?.getD emptyList

/-- One list and the threads that work on it. -/
def MapState.bucket (s : MapState Tid) (b : ℕ) : State Tid where
  heap := s.list b
  pc t := if s.index t = b then s.pc t else .idle

/-- The event as the list sees it. -/
def MapEvent.event : MapEvent → Event
  | .invoke op => .invoke op
  | .step => .step
  | .ret c => .ret (c = 0)

/-- The index of the bucket that an event is about. -/
def MapState.indexOf (s : MapState Tid) (l : Tid × MapEvent) : ℤ :=
  match l.2 with
  | .invoke op => getIndex s.map.length op.key
  | .step | .ret _ => s.index l.1

/-- An event, if it is one of the bucket. -/
def bucketEvent (b : ℕ) (s : MapState Tid) (l : Tid × MapEvent) : Option (Tid × Event) :=
  if s.indexOf l = b then some (l.1, l.2.event) else none

omit [DecidableEq Tid] in
theorem list_eq (hlist : s.map.buckets[b]? = some h) : s.list b = h := by
  simp [MapState.list, hlist]

theorem list_put (hlist : s.map.buckets[b]? = some h) :
    (s.put t b r).list d = if d = b then r.1 else s.list d := by
  have hb : b < s.map.buckets.length := (List.getElem?_eq_some_iff.mp hlist).1
  unfold MapState.list MapState.put
  by_cases hd : d = b
  · subst hd
    simp [hb]
  · simp [hd, Ne.symm hd]

omit [DecidableEq Tid] in
theorem bucket_pc (hindex : s.index t = b) : (s.bucket b).pc t = s.pc t :=
  if_pos hindex

omit [DecidableEq Tid] in
theorem bucket_pc_idle (hidle : s.pc t = .idle) (b : ℕ) : (s.bucket b).pc t = .idle := by
  simp [MapState.bucket, hidle]

/-- The bucket that a step is about. -/
theorem bucket_put_self (hlist : s.map.buckets[b]? = some h) :
    (s.put t b r).bucket b = ⟨r.1, Function.update (s.bucket b).pc t r.2⟩ := by
  unfold MapState.bucket
  rw [list_put hlist, if_pos rfl]
  congr 1
  funext u
  by_cases hu : u = t
  · subst hu
    simp [MapState.put]
  · simp [MapState.put, hu]

/-- The other buckets, when `t` has not been at work in them. -/
theorem bucket_put_other (hlist : s.map.buckets[b]? = some h) (hd : d ≠ b)
    (hout : (s.bucket d).pc t = .idle) : (s.put t b r).bucket d = s.bucket d := by
  unfold MapState.bucket at hout ⊢
  rw [list_put hlist, if_neg hd]
  congr 1
  funext u
  by_cases hu : u = t
  · subst hu
    simp only at hout
    -- the thread leaves this bucket, where it was idle
    simp [MapState.put, hd.symm, hout]
  · simp [MapState.put, hu]

theorem bucket_ret (b : ℕ) :
    ({ s with pc := Function.update s.pc t .idle } : MapState Tid).bucket b =
      ⟨s.list b, Function.update (s.bucket b).pc t .idle⟩ := by
  unfold MapState.bucket
  congr 1
  funext u
  by_cases hu : u = t
  · subst hu
    simp
  · simp [hu]

/-- An event of the bucket is a step of its list. -/
theorem MapActed.bucket_step (hacted : MapActed s t ev s') (hb : s.indexOf (t, ev) = b) :
    act (t, ev.event) (s.bucket b) = some (s'.bucket b) := by
  cases hacted with
  | invoke op b' list hpc hindex hlist =>
    rcases Nat.cast_inj.mp (hindex.symm.trans hb) with rfl
    rw [bucket_put_self hlist]
    have hheap : (s.bucket b').heap = list := list_eq hlist
    simp only [act, MapEvent.event, bucket_pc_idle hpc, hheap]
  | step list h' pc' hlist hadv =>
    rcases Nat.cast_inj.mp hb with rfl
    rw [bucket_put_self hlist]
    have hheap : (s.bucket (s.index t)).heap = list := list_eq hlist
    simp only [act, MapEvent.event, bucket_pc rfl, hheap, hadv, Option.map_some]
  | ret op result hpc =>
    rcases Nat.cast_inj.mp hb with rfl
    have hpc' : (s.bucket (s.index t)).pc t = .ret op result := by
      rw [bucket_pc rfl, hpc]
    -- the code 0 stands for success
    have hresult : decide (code result = 0) = result := by
      cases result <;> rfl
    rw [bucket_ret]
    simp only [act, MapEvent.event, hpc', hresult, if_true]
    rfl

/-- The other events leave the bucket alone. -/
theorem MapActed.bucket_rest (hacted : MapActed s t ev s') (hb : s.indexOf (t, ev) ≠ b) :
    s'.bucket b = s.bucket b := by
  cases hacted with
  | invoke op b' list hpc hindex hlist =>
    refine bucket_put_other hlist ?_ (bucket_pc_idle hpc b)
    -- the bucket of the key is another one
    rintro rfl
    exact hb hindex
  | step list h' pc' hlist hadv =>
    have hout : s.index t ≠ b := fun heq => hb (congrArg Nat.cast heq)
    exact bucket_put_other hlist hout.symm (if_neg hout)
  | ret =>
    have hout : (s.bucket b).pc t = .idle := if_neg fun heq => hb (congrArg Nat.cast heq)
    rw [bucket_ret, ← hout, Function.update_eq_self]
    rfl

omit [DecidableEq Tid] in
theorem bucket_init (hmap : s.map = allocHashmap n) (hpc : ∀ t, s.pc t = .idle) (b : ℕ) :
    s.bucket b = ⟨emptyList, fun _ => .idle⟩ := by
  have hlist : s.list b = emptyList := by
    unfold MapState.list
    rw [hmap]
    simp only [allocHashmap, List.getElem?_replicate]
    split
    · rfl
    · rfl
  unfold MapState.bucket
  rw [hlist]
  simp [hpc]

/-- What happens in one bucket. -/
def bucketBehavior (e : Behavior (concurrentMap n Tid)) (b : ℕ) : Behavior (system Tid) :=
  e.project (fun s => s.bucket b) (bucketEvent b)
    (fun _ hs => ⟨by rw [bucket_init hs.1 hs.2], by rw [bucket_init hs.1 hs.2]; exact fun _ => rfl⟩)
    (fun k _ _ hl hpart => by
      rcases Option.ite_none_right_eq_some.mp hpart with ⟨hb, heq⟩
      rcases Option.some.inj heq with rfl
      exact (mapActed_of_mapAct (e.next k _ hl)).bucket_step hb)
    (fun k _ hl hpart => by
      refine (mapActed_of_mapAct (e.next k _ hl)).bucket_rest fun hb => ?_
      rw [bucketEvent, if_pos hb] at hpart
      cases hpart)

/-! ## The invariant -/

/-- A call works in the bucket of its key. -/
structure Placed (n index : ℕ) (pc : Pc) : Prop where
  lt : pc ≠ .idle → index < n
  op : ∀ op, pc.op = some op → getIndex n op.key = index

/-- Calls work in the bucket of their key, and keys are only there. -/
structure MapInv (n : ℕ) (s : MapState Tid) : Prop where
  length : s.map.length = n
  buckets : s.map.buckets.length = n
  reachable : ∀ b, Reachable (system Tid) (s.bucket b)
  placed : ∀ t, Placed n (s.index t) (s.pc t)
  keys : ∀ (b : ℕ) (k : ℤ), k ∈ keys (s.list b) → getIndex n k = b

theorem placed_idle (n index : ℕ) : Placed n index .idle :=
  ⟨fun hbusy => absurd rfl hbusy, fun _ hop => by cases hop⟩

theorem start_op (h : Heap) (op : Op) : (start h op).2.op = some op := by
  cases op <;> rfl

omit [DecidableEq Tid] in
/-- A new key comes from an insertion. -/
theorem SetStep.inserts_of_new {s s' : State Tid} (hstep : SetStep s t s')
    (hk : k ∈ LockFree.keys s'.heap) : k ∈ LockFree.keys s.heap ∨ Inserts s t k := by
  by_cases hins : ∃ key, Inserts s t key
  · rcases hins with ⟨key, hkey⟩
    rw [(hstep.inserts key hkey).2] at hk
    rcases hk with rfl | hk
    · exact .inr hkey
    · exact .inl hk
  · by_cases hmark : ∃ key, Marks s t key
    · rcases hmark with ⟨key, hkey⟩
      rw [(hstep.marks key hkey).2] at hk
      exact .inl hk.1
    · rw [hstep.others fun key => ⟨fun h => hins ⟨key, h⟩, fun h => hmark ⟨key, h⟩⟩] at hk
      exact .inl hk

theorem MapInv.init (hmap : s.map = allocHashmap n) (hpc : ∀ t, s.pc t = .idle) : MapInv n s := by
  refine ⟨by rw [hmap]; rfl, by rw [hmap]; simp [allocHashmap], ?_, ?_, ?_⟩
  · intro b
    rw [bucket_init hmap hpc]
    exact .init init_idle
  · intro t
    rw [hpc]
    exact placed_idle _ _
  · intro b k hk
    have hlist : s.list b = emptyList := congrArg State.heap (bucket_init hmap hpc b)
    rw [hlist, emptyList_keys] at hk
    exact hk.elim

theorem MapInv.lt (hinv : MapInv n s) (hlist : s.map.buckets[b]? = some h) : b < n :=
  hinv.buckets ▸ (List.getElem?_eq_some_iff.mp hlist).1

theorem MapInv.put_placed (hinv : MapInv n s) (hr : Placed n b r.2) (u : Tid) :
    Placed n ((s.put t b r).index u) ((s.put t b r).pc u) := by
  by_cases hu : u = t
  · subst hu
    simp only [MapState.put, Function.update_self]
    exact hr
  · simp only [MapState.put, Function.update_of_ne hu]
    exact hinv.placed u

theorem MapInv.step (hinv : MapInv n s) (hacted : MapActed s t ev s') : MapInv n s' := by
  have hreachable : ∀ b, Reachable (system Tid) (s'.bucket b) := by
    intro b
    by_cases hb : s.indexOf (t, ev) = b
    · exact .step _ (hinv.reachable b) (hacted.bucket_step hb)
    · rw [hacted.bucket_rest hb]
      exact hinv.reachable b
  have hkeys : ∀ (b : ℕ) (k : ℤ), k ∈ LockFree.keys (s'.list b) → getIndex n k = b := by
    intro b k hk
    by_cases hb : s.indexOf (t, ev) = b
    · have hstep := set_step (reachable_inv (hinv.reachable b)) (acted_of_act (hacted.bucket_step hb))
      -- only an insertion brings a key into the list
      rcases hstep.inserts_of_new hk with hold | ⟨insertion, left, right, hpc, -⟩
      · exact hinv.keys b k hold
      · -- the thread is in this bucket, for this key
        by_cases hindex : s.index t = b
        · rw [bucket_pc hindex] at hpc
          rw [← hindex]
          exact (hinv.placed t).op (.insert k) (by rw [hpc]; rfl)
        · rw [show (s.bucket b).pc t = .idle from if_neg hindex] at hpc
          cases hpc
    · have hlist : s'.list b = s.list b := congrArg State.heap (hacted.bucket_rest hb)
      rw [hlist] at hk
      exact hinv.keys b k hk
  cases hacted with
  | invoke op b list hpc hindex hlist =>
    refine ⟨hinv.length, by simp [MapState.put, hinv.buckets], hreachable,
      hinv.put_placed ⟨fun _ => hinv.lt hlist, fun op' hop => ?_⟩, hkeys⟩
    rw [start_op] at hop
    rcases Option.some.inj hop with rfl
    rw [← hinv.length, hindex]
  | step list h' pc' hlist hadv =>
    refine ⟨hinv.length, by simp [MapState.put, hinv.buckets], hreachable,
      hinv.put_placed ⟨fun _ => hinv.lt hlist, fun op' hop => ?_⟩, hkeys⟩
    have hpc := (reachable_inv (hinv.reachable (s.index t))).thread t
    rw [bucket_pc rfl, show (s.bucket (s.index t)).heap = list from list_eq hlist] at hpc
    -- a step does not change the operation
    rw [advance_op hpc hadv] at hop
    exact (hinv.placed t).op op' hop
  | ret =>
    exact ⟨hinv.length, hinv.buckets, hreachable, (Function.forall_update_iff s.pc
      fun u pc => Placed n (s.index u) pc).mpr ⟨placed_idle _ _, fun u _ => hinv.placed u⟩, hkeys⟩

theorem reachable_mapInv (hr : Reachable (concurrentMap n Tid) s) : MapInv n s := by
  refine hr.invariant (fun s hs => .init hs.1 hs.2) ?_
  intro l s s' hinv hnext
  exact hinv.step (mapActed_of_mapAct hnext)

omit [DecidableEq Tid] in
/-- The keys of the map are the keys of the lists. -/
theorem mem_mapKeys : k ∈ mapKeys s.map ↔ ∃ b, k ∈ keys (s.list b) := by
  constructor
  · intro hk
    rcases hk with ⟨list, hlist, hk⟩
    rcases List.getElem?_of_mem hlist with ⟨b, hb⟩
    exact ⟨b, by rwa [list_eq hb]⟩
  · intro hk
    rcases hk with ⟨b, hk⟩
    cases hb : s.map.buckets[b]? with
    | none =>
      -- there is no bucket `b`
      simp only [MapState.list, hb, Option.getD_none, emptyList_keys] at hk
      exact hk.elim
    | some list =>
      rw [list_eq hb] at hk
      exact ⟨list, List.mem_of_getElem? hb, hk⟩

/-- A list has the keys of its bucket. -/
theorem MapInv.list_keys (hinv : MapInv n s) (b : ℕ) :
    LockFree.keys (s.list b) = {k ∈ mapKeys s.map | getIndex n k = b} := by
  ext k
  constructor
  · intro hk
    exact ⟨mem_mapKeys.mpr ⟨b, hk⟩, hinv.keys b k hk⟩
  · intro hk
    rcases hk with ⟨hk, hindex⟩
    rcases mem_mapKeys.mp hk with ⟨b', hk⟩
    have hb := hinv.keys b' k hk
    rw [hindex, Nat.cast_inj] at hb
    rwa [hb]

/-! ## Calls -/

/-- Thread `t` calls `op` at position `i`, and the call returns `c` at position `j`. -/
structure MapCall (e : Behavior (concurrentMap n Tid)) (t : Tid) (op : Op) (c i j : ℕ) : Prop where
  invoke : e.label i = some (t, .invoke op)
  lt : i < j
  ret : e.label j = some (t, .ret c)
  inside : ∀ m, i < m → m < j → ∀ c, e.label m ≠ some (t, .ret c)

/-- The step at position `m` does what the operation does to the keys of the map, and no other
step of the call changes them. -/
structure MapLinearizedAt (e : Behavior (concurrentMap n Tid)) (t : Tid) (op : Op) (result : Bool)
    (i j m : ℕ) : Prop where
  after : i < m
  before : m < j
  step : e.label m = some (t, .step)
  sequential : Sequential op result (mapKeys (e.state m).map) (mapKeys (e.state (m + 1)).map)
  only : ∀ m', i ≤ m' → m' < j → m' ≠ m → ∀ ev, e.label m' = some (t, ev) →
    mapKeys (e.state (m' + 1)).map = mapKeys (e.state m').map

variable {e : Behavior (concurrentMap n Tid)} {c : ℕ}

/-- During the call the thread is at work in the bucket of the key. -/
theorem MapCall.at_work (hcall : MapCall e t op c i j) (him : i < m) (hmj : m ≤ j) :
    (e.state m).pc t ≠ .idle ∧ getIndex n op.key = (e.state m).index t := by
  have hfirst : (e.state (i + 1)).pc t ≠ .idle ∧ getIndex n op.key = (e.state (i + 1)).index t := by
    have hinv := reachable_mapInv (e.reachable i)
    have hacted := mapActed_of_mapAct (e.next i _ hcall.invoke)
    generalize e.state (i + 1) = s' at hacted
    cases hacted with
    | invoke op b list hpc hindex hlist =>
      simp only [MapState.put, Function.update_self]
      refine ⟨?_, hinv.length ▸ hindex⟩
      cases op <;> simp [start]
  refine e.stable_between (P := fun s => s.pc t ≠ .idle ∧ getIndex n op.key = s.index t) him ?_
    hfirst
  intro m' l hm' hlt hl hP
  rcases l with ⟨u, ev⟩
  have hacted := mapActed_of_mapAct (e.next m' _ hl)
  by_cases hu : t = u
  · subst hu
    generalize e.state (m' + 1) = s' at hacted
    cases hacted with
    | invoke op b list hpc hindex hlist => exact absurd hpc hP.1
    | step list h' pc' hlist hadv =>
      simp only [MapState.put, Function.update_self]
      refine ⟨?_, hP.2⟩
      intro hidle
      -- only a return makes the thread idle
      have hsame := (stepped_of_advance hadv).idle
      rw [hidle] at hsame
      simp [idle, hP.1] at hsame
    | ret op result hpc => exact absurd hl (hcall.inside m' (by omega) (by omega) _)
  · generalize e.state (m' + 1) = s' at hacted
    cases hacted with
    | _ =>
      -- a step of another thread
      simp only [MapState.put, Function.update_of_ne hu]
      exact hP

/-- The events of a call are events of the bucket of the key. -/
theorem MapCall.indexOf (hcall : MapCall e t op c i j) (him : i ≤ m) (hmj : m ≤ j) {ev : MapEvent}
    (hl : e.label m = some (t, ev)) : (e.state m).indexOf (t, ev) = getIndex n op.key := by
  rcases Nat.eq_or_lt_of_le him with rfl | him
  · rw [hcall.invoke] at hl
    rcases Prod.mk.inj (Option.some.inj hl) with ⟨-, rfl⟩
    simp only [MapState.indexOf, (reachable_mapInv (e.reachable i)).length]
  · rcases hcall.at_work him hmj with ⟨hpc, hat⟩
    cases ev with
    | invoke =>
      have hacted := mapActed_of_mapAct (e.next m _ hl)
      generalize e.state (m + 1) = s' at hacted
      cases hacted with
      -- a thread in a call starts no other
      | invoke op b list hidle hindex hlist => exact absurd hidle hpc
    | step | ret => exact hat.symm

theorem bucketBehavior_label {ev : MapEvent} (hl : e.label m = some (t, ev))
    (hb : (e.state m).indexOf (t, ev) = b) :
    (bucketBehavior e b).label m = some (t, ev.event) := by
  show (e.label m).bind (bucketEvent b (e.state m)) = some (t, ev.event)
  rw [hl, Option.bind_some, bucketEvent, if_pos hb]

theorem label_of_bucketBehavior {ev : Event} (hl : (bucketBehavior e b).label m = some (t, ev)) :
    ∃ ev', e.label m = some (t, ev') ∧ (e.state m).indexOf (t, ev') = b ∧ ev'.event = ev := by
  rcases Option.bind_eq_some_iff.mp hl with ⟨⟨u, ev'⟩, hmap, hpart⟩
  rcases Option.ite_none_right_eq_some.mp hpart with ⟨hb, heq⟩
  rcases Prod.mk.inj (Option.some.inj heq) with ⟨rfl, hev⟩
  exact ⟨ev', hmap, hb, hev⟩

/-- The call is a call of the list. -/
theorem MapCall.call (hcall : MapCall e t op c i j) (hindex : getIndex n op.key = b) :
    Call (bucketBehavior e b) t op (c = 0) i j := by
  refine ⟨?_, hcall.lt, ?_, ?_⟩
  · exact bucketBehavior_label hcall.invoke
      ((hcall.indexOf le_rfl hcall.lt.le hcall.invoke).trans hindex)
  · exact bucketBehavior_label hcall.ret
      ((hcall.indexOf hcall.lt.le le_rfl hcall.ret).trans hindex)
  · intro m him hmj result hl
    rcases label_of_bucketBehavior hl with ⟨ev, hl, -, hev⟩
    cases ev with
    | invoke => cases hev
    | step => cases hev
    | ret c => exact hcall.inside m him hmj c hl

/-! ## Linearizability -/

section

variable (hacted : MapActed s t ev s') (hinv : MapInv n s) (hb : s.indexOf (t, ev) = b)
include hacted hinv hb

/-- The keys of the map after a step in bucket `b`. -/
theorem MapActed.mapKeys_eq {B : Set ℤ} (hB : {k ∈ B | getIndex n k = b} = keys (s'.list b))
    (hother : ∀ k, getIndex n k ≠ b → (k ∈ B ↔ k ∈ mapKeys s.map)) : mapKeys s'.map = B := by
  have hinv' := hinv.step hacted
  ext k
  by_cases hk : getIndex n k = b
  · -- the keys of bucket `b` are those of its list
    have hlist := hinv'.list_keys b
    rw [← hB] at hlist
    have hmem := Set.ext_iff.mp hlist k
    simpa [hk] using hmem.symm
  · rw [hother k hk, mem_mapKeys, mem_mapKeys]
    -- all other lists stay as they are
    have hkeep : ∀ d, k ∈ keys (s.list d) ∨ k ∈ keys (s'.list d) → s'.list d = s.list d := by
      intro d hd
      refine congrArg State.heap (hacted.bucket_rest ?_)
      rw [hb]
      rcases hd with hd | hd
      · rw [← hinv.keys d k hd]
        exact fun heq => hk heq.symm
      · rw [← hinv'.keys d k hd]
        exact fun heq => hk heq.symm
    constructor
    · rintro ⟨d, hd⟩
      exact ⟨d, hkeep d (.inr hd) ▸ hd⟩
    · rintro ⟨d, hd⟩
      exact ⟨d, (hkeep d (.inl hd)).symm ▸ hd⟩

/-- A step that does an operation to the list does it to the map. -/
theorem MapActed.sequential (hindex : getIndex n op.key = b)
    (hseq : Sequential op result (keys (s.list b)) (keys (s'.list b))) :
    Sequential op result (mapKeys s.map) (mapKeys s'.map) := by
  rw [hinv.list_keys b] at hseq
  rcases hseq.bucket hindex with ⟨hmap, hkeys⟩
  rw [hacted.mapKeys_eq hinv hb hkeys.symm ?_]
  · exact hmap
  · intro k hk
    -- the key of the operation belongs to bucket `b`
    have hne : k ≠ op.key := by
      rintro rfl
      exact hk hindex
    have hsame := Set.ext_iff.mp (applied_other (A := mapKeys s.map) (p := (· ≠ op.key)) op
      (not_not.mpr rfl)) k
    simpa [hne] using hsame

/-- A step that leaves the keys of the list leaves the keys of the map. -/
theorem MapActed.quiet (hkeys : keys (s'.list b) = keys (s.list b)) :
    mapKeys s'.map = mapKeys s.map := by
  refine hacted.mapKeys_eq hinv hb ?_ fun _ _ => Iff.rfl
  rw [hkeys, hinv.list_keys b]

end

theorem MapCall.code (hcall : MapCall e t op c i j) : c = code (c = 0) := by
  have hacted := mapActed_of_mapAct (e.next j _ hcall.ret)
  generalize e.state (j + 1) = s' at hacted
  cases hacted with
  | ret op result hpc => cases result <;> rfl

/-- Every completed call of the map takes effect at one of its steps: that step does to the keys
of all the lists what the operation does to a set, with the result that the call returns, and
no other step of the call changes the keys. -/
theorem map_linearizable (e : Behavior (concurrentMap n Tid)) (t : Tid) (op : Op) (c i j : ℕ)
    (hcall : MapCall e t op c i j) :
    ∃ result m, c = code result ∧ MapLinearizedAt e t op result i j m := by
  have hat := hcall.at_work hcall.lt le_rfl
  generalize (e.state j).index t = b at hat
  have hindex : ∀ m, i ≤ m → m ≤ j → ∀ ev, e.label m = some (t, ev) →
      (e.state m).indexOf (t, ev) = b :=
    fun m him hmj ev hl => (hcall.indexOf him hmj hl).trans hat.2
  -- the step at which the call of the list takes effect
  rcases call_linearized (hcall.call hat.2) with ⟨m, hlin⟩
  rcases label_of_bucketBehavior hlin.step with ⟨ev, hl, hb, hev⟩
  have hstep : e.label m = some (t, .step) := by
    cases ev with
    | step => exact hl
    | _ => cases hev
  refine ⟨c = 0, m, hcall.code, hlin.after, hlin.before, hstep, ?_, ?_⟩
  · exact (mapActed_of_mapAct (e.next m _ hl)).sequential (reachable_mapInv (e.reachable m)) hb hat.2
      hlin.sequential
  · -- the other steps of the call do not change the list
    intro m' him hmj hne ev' hl'
    have hb' := hindex m' him hmj.le ev' hl'
    exact (mapActed_of_mapAct (e.next m' _ hl')).quiet (reachable_mapInv (e.reachable m')) hb'
      (hlin.only m' him hmj hne _ (bucketBehavior_label hl' hb'))

/-- Two threads insert 5 and look it up at the same time, and the second one is too early. -/
def insertLookup : Behavior (concurrentMap 2 Bool) :=
  .ofSchedule mapAct (fun _ _ _ hact => hact) ⟨allocHashmap 2, fun _ => 0, fun _ => .idle⟩
    ⟨rfl, fun _ => rfl⟩
    [(true, .invoke (.insert 5)), (false, .invoke (.find 5)), (true, .step), (false, .step),
      (true, .step), (true, .step), (false, .ret 1), (true, .ret 0)]

theorem map_linearizable_insertLookup :
    (MapCall insertLookup true (.insert 5) 0 0 7 ∧
      ∃ result m, 0 = code result ∧ MapLinearizedAt insertLookup true (.insert 5) result 0 7 m) ∧
    (MapCall insertLookup false (.find 5) 1 1 6 ∧
      ∃ result m, 1 = code result ∧ MapLinearizedAt insertLookup false (.find 5) result 1 6 m) := by
  have hnone : ∀ m < 6, ∀ t c, insertLookup.label m ≠ some (t, .ret c) := by
    have hinside : ∀ m < 6, (insertLookup.label m).any (fun l => l.2 matches .step | .invoke _) := by
      decide +kernel
    intro m hm t c hl
    have hm := hinside m hm
    rw [hl] at hm
    simp at hm
  have hret : insertLookup.label 6 = some (false, .ret 1) := by decide +kernel
  have hinsert : MapCall insertLookup true (.insert 5) 0 0 7 := by
    refine ⟨by decide +kernel, by decide, by decide +kernel, fun m _ hm c hl => ?_⟩
    rcases Nat.lt_succ_iff_lt_or_eq.mp hm with hm | rfl
    · exact hnone m hm true c hl
    · rw [hret] at hl
      cases hl
  have hfind : MapCall insertLookup false (.find 5) 1 1 6 :=
    ⟨by decide +kernel, by decide, hret, fun m _ hm => hnone m hm false⟩
  exact ⟨⟨hinsert, map_linearizable _ _ _ _ _ _ hinsert⟩, hfind, map_linearizable _ _ _ _ _ _ hfind⟩

/-! ## Lock-freedom -/

/-- Every event is one of some bucket. -/
theorem MapActed.indexOf_lt (hacted : MapActed s t ev s') (hinv : MapInv n s) :
    ∃ b < n, s.indexOf (t, ev) = b := by
  cases hacted with
  | invoke op b list hpc hindex hlist => exact ⟨b, hinv.lt hlist, hindex⟩
  | step list h' pc' hlist hadv => exact ⟨s.index t, hinv.lt hlist, rfl⟩
  | ret op result hpc => exact ⟨s.index t, (hinv.placed t).lt (by simp [hpc]), rfl⟩

/-- A thread in a call always has a next step of it, whatever the other threads do. -/
theorem map_call_enabled (hr : Reachable (concurrentMap n Tid) s) (hbusy : s.pc t ≠ .idle) :
    ∃ ev s', (∀ op, ev ≠ .invoke op) ∧ (concurrentMap n Tid).Next (t, ev) s s' := by
  have hinv := reachable_mapInv hr
  by_cases hret : ∃ op result, s.pc t = .ret op result
  · rcases hret with ⟨op, result, hpc⟩
    exact ⟨.ret (code result), { s with pc := Function.update s.pc t .idle }, by simp,
      by simp [concurrentMap, mapAct, hpc]⟩
  · -- the bucket of a thread in a call exists
    have hlt : s.index t < s.map.buckets.length := hinv.buckets ▸ (hinv.placed t).lt hbusy
    have hadv : (advance s.map.buckets[s.index t] (s.pc t)).isSome := by
      cases hpc : s.pc t <;> simp_all [advance] <;> split <;> rfl
    rcases Option.isSome_iff_exists.mp hadv with ⟨r, hr⟩
    refine ⟨.step, s.put t (s.index t) r, by simp, ?_⟩
    simp [concurrentMap, mapAct, List.getElem?_eq_getElem hlt, hr]

/-- The map is lock-free: as long as some threads take steps, whatever the others do and
however often a call has to start again, some call returns. -/
theorem map_lock_free [Fintype Tid] (e : Behavior (concurrentMap n Tid)) (hactive : e.Active)
    (N : ℕ) : ∃ k t c, N ≤ k ∧ e.label k = some (t, .ret c) := by
  have hpart : ∀ k l, e.label k = some l → ∃ b : Fin n, (bucketBehavior e b).label k ≠ none := by
    intro k l hl
    rcases (mapActed_of_mapAct (e.next k l hl)).indexOf_lt (reachable_mapInv (e.reachable k)) with
      ⟨b, hb, hindex⟩
    refine ⟨⟨b, hb⟩, ?_⟩
    rw [bucketBehavior_label hl hindex]
    exact Option.some_ne_none _
  rcases e.exists_active (fun b : Fin n => bucketBehavior e b) hactive hpart with ⟨b, hb⟩
  -- some bucket is active, and its list is lock-free
  rcases returns_again (bucketBehavior e b) hb N with ⟨k, t, result, hk, hl⟩
  rcases label_of_bucketBehavior hl with ⟨ev, hl, -, hev⟩
  cases ev with
  | ret c => exact ⟨k, t, c, hk, hl⟩
  | _ => cases hev

/-- The states of a thread that looks up the key 7 again and again. -/
def lookupPc : ℕ → Pc
  | 0 => .idle
  | 1 => .searchHead (.find 7)
  | _ => .ret (.find 7) false

def lookupEvent : ℕ → MapEvent
  | 0 => .invoke (.find 7)
  | 1 => .step
  | _ => .ret 1

/-- One thread looks up a key again and again and the other one sleeps. -/
def lookupForever : Behavior (concurrentMap 2 Bool) where
  state k := ⟨allocHashmap 2, fun _ => 1, Function.update (fun _ => .idle) true (lookupPc (k % 3))⟩
  label k := some (true, lookupEvent (k % 3))
  init := ⟨rfl, by decide⟩
  stutter _ hk := by cases hk
  next k l hl := by
    rcases Option.some.inj hl with rfl
    have hmod : k % 3 = 0 ∧ (k + 1) % 3 = 1 ∨ k % 3 = 1 ∧ (k + 1) % 3 = 2 ∨
        k % 3 = 2 ∧ (k + 1) % 3 = 0 := by omega
    have hindex : getIndex 2 7 = 1 := by decide
    rcases hmod with ⟨h0, h1⟩ | ⟨h0, h1⟩ | ⟨h0, h1⟩ <;> rw [h0, h1] <;>
      simp [concurrentMap, mapAct, lookupPc, lookupEvent, start, Op.key, allocHashmap, hindex,
        MapState.put, advance, visit, adjacent, check, searched, emptyList, Heap.next, code]

theorem map_lock_free_lookupForever :
    lookupForever.Active ∧ ∃ k t c, 100 ≤ k ∧ lookupForever.label k = some (t, .ret c) := by
  have hactive : lookupForever.Active := fun n => ⟨n, le_rfl, by simp [lookupForever]⟩
  exact ⟨hactive, map_lock_free lookupForever hactive 100⟩

end SysProg.LockFree
