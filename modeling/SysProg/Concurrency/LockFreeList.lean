import Mathlib.Tactic
import SysProg.Lib.Lts
import SysProg.Lib.Orbit

/-!
# The lock-free list of `task4-concurrency/src/lockfreehashmap.cpp`

Threads call `insert`, `remove` and `find` on one `List`. Every load and every
compare-and-swap of a `next` pointer is one step; what a thread computes from its own
variables between two of them belongs to the step before. Nodes are never freed, and
`new Node()` returns an address that no node has.

* `Heap` — the nodes; `Pc` — the point of its call a thread is at;
* `advance` — the next atomic step of a call;
* `system` — any number of threads, any interleaving.

The heap also remembers which nodes a compare-and-swap of `insert` has published. No
step looks at that.
-/

namespace SysProg.LockFree

open Lts Orbit

/-- A `Node*` with the mark in its lowest bit. -/
structure Link where
  ptr : ℕ
  marked : Bool
deriving DecidableEq, Repr

structure Node where
  key : ℤ
  next : Link
deriving DecidableEq, Repr

/-- Addresses: the null pointer and the two sentinels of the list. -/
def null : ℕ := 0
def head : ℕ := 1
def tail : ℕ := 2

structure Heap where
  node : ℕ → Node
  fresh : ℕ
  published : List ℕ

namespace Heap

def next (h : Heap) (x : ℕ) : Link := (h.node x).next
def key (h : Heap) (x : ℕ) : ℤ := (h.node x).key

/-- The successor, with the mark bit cleared. -/
def succ (h : Heap) (x : ℕ) : ℕ := (h.next x).ptr

/-- Store into the `next` pointer of `x`. -/
def store (h : Heap) (x : ℕ) (link : Link) : Heap :=
  { h with node := Function.update h.node x { h.node x with next := link } }

/-- `new Node()` with its key. -/
def create (h : Heap) (key : ℤ) : Heap :=
  { h with
    node := Function.update h.node h.fresh ⟨key, ⟨null, false⟩⟩
    fresh := h.fresh + 1 }

/-- `cas(x->next, expected, desired)`, or none if it fails. -/
def cas (h : Heap) (x : ℕ) (expected desired : Link) : Option Heap :=
  if h.next x = expected then some (h.store x desired) else none

/-- Remember that `x` has been published. -/
def publish (h : Heap) (x : ℕ) : Heap :=
  { h with published := x :: h.published }

end Heap

/-- `List::List`. -/
def emptyList : Heap where
  node x := if x = head ∨ x = tail then ⟨0, ⟨tail, false⟩⟩ else ⟨0, ⟨null, false⟩⟩
  fresh := 3
  published := []

inductive Op where
  | insert (key : ℤ)
  | remove (key : ℤ)
  | find (key : ℤ)
deriving DecidableEq, Repr

/-- The caller of `search`: one of the three operations, where an insertion has its new
node, or `remove` once more after it has marked the node `right`. -/
inductive Caller where
  | insert (key : ℤ) (insertion : ℕ)
  | remove (key : ℤ)
  | cleanup (key : ℤ) (right : ℕ)
  | find (key : ℤ)
deriving DecidableEq, Repr

def Caller.key : Caller → ℤ
  | .insert key _ | .remove key | .cleanup key _ | .find key => key

def Caller.op : Caller → Op
  | .insert key _ => .insert key
  | .remove key | .cleanup key _ => .remove key
  | .find key => .find key

/-- The next step of a thread: before a load, a store or a compare-and-swap, with the
local variables that are still needed, or before the return of a call. -/
inductive Pc where
  | idle
  | searchHead (c : Caller)
  | searchNext (c : Caller) (left leftNext node : ℕ)
  | searchUnlink (c : Caller) (left leftNext right : ℕ)
  | searchCheck (c : Caller) (left right : ℕ)
  | insertStore (key : ℤ) (insertion left right : ℕ)
  | insertCas (key : ℤ) (insertion left right : ℕ)
  | removeLoad (key : ℤ) (left right : ℕ)
  | removeMark (key : ℤ) (left right rightNext : ℕ)
  | removeUnlink (key : ℤ) (left right rightNext : ℕ)
  | ret (op : Op) (result : Bool)
deriving DecidableEq, Repr

/-- `search` returns `{left, right}` to its caller. -/
def searched (h : Heap) (c : Caller) (left right : ℕ) : Pc :=
  match c with
  | .insert key insertion =>
      if right ≠ tail ∧ h.key right = key then .ret (.insert key) false
      else .insertStore key insertion left right
  | .remove key =>
      if right = tail ∨ h.key right ≠ key then .ret (.remove key) false
      else .removeLoad key left right
  | .cleanup key _ => .ret (.remove key) true
  | .find key => .ret (.find key) (right ≠ tail ∧ h.key right = key)

/-- `(right != tail) && is_marked_reference(right->next.load())` needs a load only if
`right` is not the tail. -/
def check (h : Heap) (c : Caller) (left right : ℕ) : Pc :=
  if right ≠ tail then .searchCheck c left right else searched h c left right

/-- Part 2 of `search`: are `left` and `right` adjacent? -/
def adjacent (h : Heap) (c : Caller) (left leftNext right : ℕ) : Pc :=
  if leftNext = right then check h c left right else .searchUnlink c left leftNext right

/-- The body of the `do` loop in part 1 of `search`, up to the load of `node->next`. -/
def visit (h : Heap) (c : Caller) (left leftNext node : ℕ) (nodeNext : Link) : Pc :=
  let (left, leftNext) := if nodeNext.marked then (left, leftNext) else (node, nodeNext.ptr)
  let node := nodeNext.ptr
  if node = tail then adjacent h c left leftNext node else .searchNext c left leftNext node

/-- One step of a call. -/
def advance (h : Heap) : Pc → Option (Heap × Pc)
  | .idle | .ret _ _ => none
  | .searchHead c => some (h, visit h c null null head (h.next head))
  | .searchNext c left leftNext node =>
      let nodeNext := h.next node
      if nodeNext.marked ∨ h.key node < c.key then some (h, visit h c left leftNext node nodeNext)
      else some (h, adjacent h c left leftNext node)
  | .searchUnlink c left leftNext right =>
      match h.cas left ⟨leftNext, false⟩ ⟨right, false⟩ with
      | some h' => some (h', check h' c left right)
      | none => some (h, .searchHead c)
  | .searchCheck c left right =>
      if (h.next right).marked then some (h, .searchHead c)
      else some (h, searched h c left right)
  | .insertStore key insertion left right =>
      some (h.store insertion ⟨right, false⟩, .insertCas key insertion left right)
  | .insertCas key insertion left right =>
      match h.cas left ⟨right, false⟩ ⟨insertion, false⟩ with
      | some h' => some (h'.publish insertion, .ret (.insert key) true)
      | none => some (h, .searchHead (.insert key insertion))
  | .removeLoad key left right =>
      let rightNext := h.next right
      if rightNext.marked then some (h, .searchHead (.remove key))
      else some (h, .removeMark key left right rightNext.ptr)
  | .removeMark key left right rightNext =>
      match h.cas right ⟨rightNext, false⟩ ⟨rightNext, true⟩ with
      | some h' => some (h', .removeUnlink key left right rightNext)
      | none => some (h, .searchHead (.remove key))
  | .removeUnlink key left right rightNext =>
      match h.cas left ⟨right, false⟩ ⟨rightNext, false⟩ with
      | some h' => some (h', .ret (.remove key) true)
      | none => some (h, .searchHead (.cleanup (h.key right) right))

/-- The call of an operation, up to the first load. -/
def start (h : Heap) : Op → Heap × Pc
  | .insert key => (h.create key, .searchHead (.insert key h.fresh))
  | .remove key => (h, .searchHead (.remove key))
  | .find key => (h, .searchHead (.find key))

inductive Event where
  | invoke (op : Op)
  | step
  | ret (result : Bool)
deriving DecidableEq, Repr

structure State (Tid : Type) where
  heap : Heap
  pc : Tid → Pc

variable {Tid : Type} [DecidableEq Tid]

def act (l : Tid × Event) (s : State Tid) : Option (State Tid) :=
  match l.2, s.pc l.1 with
  | .invoke op, .idle =>
      let (heap, pc) := start s.heap op
      some ⟨heap, Function.update s.pc l.1 pc⟩
  | .ret result, .ret _ b =>
      if result = b then some ⟨s.heap, Function.update s.pc l.1 .idle⟩ else none
  | .step, pc => (advance s.heap pc).map fun r => ⟨r.1, Function.update s.pc l.1 r.2⟩
  | _, _ => none

/-- Any number of threads that call operations on one list. -/
def system (Tid : Type) [DecidableEq Tid] : System (State Tid) (Tid × Event) where
  Init s := s.heap = emptyList ∧ ∀ t, s.pc t = .idle
  Next l s s' := act l s = some s'

/-- An empty list and no call in progress. -/
theorem init_idle : (system Tid).Init ⟨emptyList, fun _ => .idle⟩ :=
  ⟨rfl, fun _ => rfl⟩

/-- The chain of nodes from `head` contains `x`. -/
def OnChain (h : Heap) (x : ℕ) : Prop :=
  Reaches h.succ head x

/-- The abstract set: the keys of the unmarked nodes of the chain between the sentinels. -/
def keys (h : Heap) : Set ℤ :=
  {k | ∃ x, OnChain h x ∧ x ≠ head ∧ x ≠ tail ∧ (h.next x).marked = false ∧ h.key x = k}

end SysProg.LockFree
