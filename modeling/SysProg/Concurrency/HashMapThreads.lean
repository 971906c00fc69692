import Mathlib.Tactic
import SysProg.Concurrency.HashMap
import SysProg.Lib.AtomicObject

/-!
# Threads in the lock-based hash map

The calls of `task4-concurrency/src/hashmap.cpp`, memory access by memory access. Threads call
`insert_item`, `remove_item`, `lookup_item` and `print_hashmap` on one map. Every load and store
of a field of a node, `new`, `delete` and every operation on a mutex is one step of its thread,
and the steps of the threads are interleaved in any way.

* `Section` — what a call does while it holds one mutex; `print_hashmap` is one section for each
  bucket, every other call is one section;
* `Point` — the next memory access in a section, with the local variables that are still needed;
* `advance` — the access; an access of a node that is not allocated is an error;
* `threads` — any number of threads.
-/

namespace SysProg.HashMap

open LinkedCells Lts

inductive Op where
  | insert (value : ℤ)
  | remove (value : ℤ)
  | lookup (value : ℤ)
  | print
deriving DecidableEq, Repr

/-- What is done under one lock. -/
inductive Section where
  | insert (value : ℤ)
  | remove (value : ℤ)
  | lookup (value : ℤ)
  | print (bucket : ℕ)
deriving DecidableEq, Repr

/-- The result of a section: a result code, or the values of a line of `print_hashmap`. -/
inductive Res where
  | code (c : ℕ)
  | line (values : List ℤ)
deriving DecidableEq, Repr

/-- The sections of a call. The loop of `print_hashmap` unlocks at the end of each round. -/
def sections (length : ℕ) : Op → List Section
  | .insert value => [.insert value]
  | .remove value => [.remove value]
  | .lookup value => [.lookup value]
  | .print => (List.range length).map .print

/-- The index of the bucket whose mutex is locked. -/
def Section.index (length : ℕ) : Section → ℤ
  | .insert value | .remove value | .lookup value => getIndex length value
  | .print bucket => bucket

/-- The next step inside of a section. `remove_item` loads `node->next` each time it writes
`node->next`: in the test of the loop, for the comparison, for `deletion`, for its successor and
to go on. -/
inductive Point where
  | insertNew (value : ℤ) (sentinel : ℕ)
  | insertValue (value : ℤ) (sentinel insertion : ℕ)
  | insertLoad (value : ℤ) (sentinel insertion : ℕ)
  | insertNext (value : ℤ) (sentinel insertion next : ℕ)
  | insertLink (value : ℤ) (sentinel insertion : ℕ)
  | removeTest (value : ℤ) (node : ℕ)
  | removePeek (value : ℤ) (node : ℕ)
  | removeCompare (value : ℤ) (node next : ℕ)
  | removeTake (value : ℤ) (node : ℕ)
  | removeFollow (value : ℤ) (node deletion : ℕ)
  | removeSkip (value : ℤ) (node deletion next : ℕ)
  | removeLink (value : ℤ) (node deletion after : ℕ)
  | removeDelete (deletion : ℕ)
  | removeAdvance (value : ℤ) (node : ℕ)
  | lookupFirst (value : ℤ) (sentinel : ℕ)
  | lookupCompare (value : ℤ) (node : ℕ)
  | lookupAdvance (value : ℤ) (node : ℕ)
  | printFirst (bucket sentinel : ℕ)
  | printValue (bucket node : ℕ) (line : List ℤ)
  | printAdvance (bucket node : ℕ) (line : List ℤ)
  | leave (result : Res)
deriving DecidableEq, Repr

/-- The first step after locking. -/
def Section.start (sentinel : ℕ) : Section → Point
  | .insert value => .insertNew value sentinel
  | .remove value => .removeTest value sentinel
  | .lookup value => .lookupFirst value sentinel
  | .print bucket => .printFirst bucket sentinel

/-- The test of the loop of `lookup_item`. -/
def lookupTest (value : ℤ) (node : ℕ) : Point :=
  if node = 0 then .leave (.code 1) else .lookupCompare value node

/-- The test of the inner loop of `print_hashmap`. -/
def printTest (bucket node : ℕ) (line : List ℤ) : Point :=
  if node = 0 then .leave (.line line) else .printValue bucket node line

/-- One step inside of a section, where `new` returns `fresh`. -/
def advance (nodes : Cells ℤ) (fresh : ℕ) : Point → Option (Cells ℤ × Point)
  | .insertNew value sentinel =>
      if fresh = 0 then some (nodes, .leave (.code 1))
      else some (Function.update nodes fresh (some ⟨0, 0⟩), .insertValue value sentinel fresh)
  | .insertValue value sentinel insertion => do
      let _ ← nodes insertion
      return (setValue nodes insertion value, .insertLoad value sentinel insertion)
  | .insertLoad value sentinel insertion => do
      let node ← nodes sentinel
      return (nodes, .insertNext value sentinel insertion node.next)
  | .insertNext value sentinel insertion next => do
      let _ ← nodes insertion
      return (setNext nodes insertion next, .insertLink value sentinel insertion)
  | .insertLink _ sentinel insertion => do
      let _ ← nodes sentinel
      return (setNext nodes sentinel insertion, .leave (.code 0))
  | .removeTest value node => do
      let n ← nodes node
      return (nodes, if n.next = 0 then .leave (.code 1) else .removePeek value node)
  | .removePeek value node => do
      let n ← nodes node
      return (nodes, .removeCompare value node n.next)
  | .removeCompare value node next => do
      let n ← nodes next
      return (nodes, if n.value = value then .removeTake value node else .removeAdvance value node)
  | .removeTake value node => do
      let n ← nodes node
      return (nodes, .removeFollow value node n.next)
  | .removeFollow value node deletion => do
      let n ← nodes node
      return (nodes, .removeSkip value node deletion n.next)
  | .removeSkip value node deletion next => do
      let n ← nodes next
      return (nodes, .removeLink value node deletion n.next)
  | .removeLink _ node deletion after => do
      let _ ← nodes node
      return (setNext nodes node after, .removeDelete deletion)
  | .removeDelete deletion => do
      let _ ← nodes deletion
      return (Function.update nodes deletion none, .leave (.code 0))
  | .removeAdvance value node => do
      let n ← nodes node
      return (nodes, .removeTest value n.next)
  | .lookupFirst value sentinel => do
      let node ← nodes sentinel
      return (nodes, lookupTest value node.next)
  | .lookupCompare value node => do
      let n ← nodes node
      return (nodes, if n.value = value then .leave (.code 0) else .lookupAdvance value node)
  | .lookupAdvance value node => do
      let n ← nodes node
      return (nodes, lookupTest value n.next)
  | .printFirst bucket sentinel => do
      let node ← nodes sentinel
      return (nodes, printTest bucket node.next [])
  | .printValue bucket node line => do
      let n ← nodes node
      return (nodes, .printAdvance bucket node (line ++ [n.value]))
  | .printAdvance bucket node line => do
      let n ← nodes node
      return (nodes, printTest bucket n.next line)
  | .leave _ => none

/-- `new` returns null or an address that is not allocated. -/
def Point.allowed (nodes : Cells ℤ) (fresh : ℕ) : Point → Bool
  | .insertNew _ _ => (nodes fresh).isNone
  | _ => true

/-- A thread: between two sections, with the sections that are left of the call and the results
of the others, or inside of one. -/
inductive Pc where
  | idle
  | between (todo : List Section) (done : List Res)
  | inside (bucket : ℕ) (todo : List Section) (done : List Res) (point : Point)
  | crashed
deriving DecidableEq, Repr

/-- The map, the thread that holds each mutex, and the threads. -/
structure State (Tid : Type) where
  map : Map
  locks : ℕ → Option Tid
  pc : Tid → Pc

inductive Event where
  | invoke (op : Op)
  | step (fresh : ℕ)
  | ret (results : List Res)
deriving DecidableEq, Repr

variable {Tid : Type} [DecidableEq Tid]

@[simps -fullyApplied]
def State.put (s : State Tid) (t : Tid) (pc : Pc) : State Tid :=
  { s with pc := Function.update s.pc t pc }

/-- `lock_guard lock(map->buckets[index]->lock)`, which waits as long as the mutex is held. -/
def lock (s : State Tid) (t : Tid) (a : Section) (todo : List Section) (done : List Res) :
    Option (State Tid) :=
  let index := a.index s.map.length
  match s.map.bucket index with
  | none => some (s.put t .crashed)
  | some sentinel =>
      if (s.locks index.toNat).isSome then none
      else some ({ s with locks := Function.update s.locks index.toNat (some t) }.put t
        (.inside index.toNat todo done (a.start sentinel)))

/-- A step of thread `t` under the mutex of `bucket`, or the end of the section. -/
def work (s : State Tid) (t : Tid) (fresh bucket : ℕ) (todo : List Section) (done : List Res) :
    Point → Option (State Tid)
  | .leave result =>
      some ({ s with locks := Function.update s.locks bucket none }.put t
        (.between todo (done ++ [result])))
  | point =>
      if point.allowed s.map.nodes fresh then
        match advance s.map.nodes fresh point with
        | none => some (s.put t .crashed)
        | some (nodes, point') =>
            some ({ s with map := { s.map with nodes } }.put t (.inside bucket todo done point'))
      else none

def act (l : Tid × Event) (s : State Tid) : Option (State Tid) :=
  match l.2, s.pc l.1 with
  | .invoke op, .idle => some (s.put l.1 (.between (sections s.map.length op) []))
  | .step _, .between (a :: todo) done => lock s l.1 a todo done
  | .step fresh, .inside bucket todo done point => work s l.1 fresh bucket todo done point
  | .ret results, .between [] done => if results = done then some (s.put l.1 .idle) else none
  | _, _ => none

/-- All threads, on a new map. -/
def threads (nBuckets : ℕ) (Tid : Type) [DecidableEq Tid] : System (State Tid) (Tid × Event) where
  Init s := s = ⟨allocHashmap nBuckets, fun _ => none, fun _ => .idle⟩
  Next l s s' := act l s = some s'

/-! ## What a step can be -/

/-- Every step of thread `t`. -/
inductive Acted (s : State Tid) (t : Tid) : Event → State Tid → Prop where
  | invoke (op : Op) : s.pc t = .idle →
      Acted s t (.invoke op) (s.put t (.between (sections s.map.length op) []))
  | outside (fresh : ℕ) (a : Section) (todo : List Section) (done : List Res) :
      s.pc t = .between (a :: todo) done → s.map.bucket (a.index s.map.length) = none →
      Acted s t (.step fresh) (s.put t .crashed)
  | lock (fresh sentinel : ℕ) (a : Section) (todo : List Section) (done : List Res) :
      s.pc t = .between (a :: todo) done →
      s.map.bucket (a.index s.map.length) = some sentinel →
      s.locks (a.index s.map.length).toNat = none →
      Acted s t (.step fresh)
        ({ s with locks := Function.update s.locks (a.index s.map.length).toNat (some t) }.put t
          (.inside (a.index s.map.length).toNat todo done (a.start sentinel)))
  | unlock (fresh bucket : ℕ) (todo : List Section) (done : List Res) (result : Res) :
      s.pc t = .inside bucket todo done (.leave result) →
      Acted s t (.step fresh) ({ s with locks := Function.update s.locks bucket none }.put t
        (.between todo (done ++ [result])))
  | work (fresh bucket : ℕ) (todo : List Section) (done : List Res) (point point' : Point)
      (nodes : Cells ℤ) : s.pc t = .inside bucket todo done point →
      point.allowed s.map.nodes fresh = true →
      advance s.map.nodes fresh point = some (nodes, point') →
      Acted s t (.step fresh)
        ({ s with map := { s.map with nodes } }.put t (.inside bucket todo done point'))
  | crash (fresh bucket : ℕ) (todo : List Section) (done : List Res) (point : Point) :
      s.pc t = .inside bucket todo done point → (∀ result, point ≠ .leave result) →
      point.allowed s.map.nodes fresh = true → advance s.map.nodes fresh point = none →
      Acted s t (.step fresh) (s.put t .crashed)
  | ret (results : List Res) : s.pc t = .between [] results →
      Acted s t (.ret results) (s.put t .idle)

variable {s s' : State Tid} {t : Tid} {ev : Event}

theorem acted_of_work {fresh bucket : ℕ} {todo : List Section} {done : List Res} {point : Point}
    (hpc : s.pc t = .inside bucket todo done point)
    (hwork : work s t fresh bucket todo done point = some s') : Acted s t (.step fresh) s' := by
  unfold work at hwork
  split at hwork
  · rename_i result
    exact Option.some.inj hwork ▸ .unlock fresh bucket todo done result hpc
  · rename_i hleave
    split at hwork
    · rename_i hallowed
      split at hwork
      · rename_i hcrash
        refine Option.some.inj hwork ▸ .crash fresh bucket todo done point hpc ?_ hallowed hcrash
        exact fun result h => hleave result h
      · rename_i nodes point' hadvance
        exact Option.some.inj hwork ▸ .work fresh bucket todo done point point' nodes hpc hallowed
          hadvance
    · cases hwork

theorem acted_of_act (hact : act (t, ev) s = some s') : Acted s t ev s' := by
  unfold act at hact
  split at hact
  · rename_i op hev hpc
    rcases hev with rfl
    exact Option.some.inj hact ▸ .invoke op hpc
  · rename_i fresh a todo done hev hpc
    rcases hev with rfl
    -- an index outside of the array is a crash
    simp only [lock] at hact
    split at hact
    · rename_i hbucket
      exact Option.some.inj hact ▸ .outside fresh a todo done hpc hbucket
    · rename_i sentinel hbucket
      split at hact
      · cases hact
      · rename_i hlock
        exact Option.some.inj hact ▸ .lock fresh sentinel a todo done hpc hbucket
          (Option.not_isSome_iff_eq_none.mp hlock)
  · rename_i fresh bucket todo done point hev hpc
    rcases hev with rfl
    exact acted_of_work hpc hact
  · rename_i results done hev hpc
    rcases hev with rfl
    split at hact
    · rename_i heq
      subst heq
      exact Option.some.inj hact ▸ .ret results hpc
    · cases hact
  · cases hact

end SysProg.HashMap
