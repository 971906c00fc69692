import Mathlib.Tactic
import SysProg.Lib.ByteMemory
import SysProg.Lib.Loop
import SysProg.Memory.Config

/-!
# The buddy allocator of `task5-memory/src/buddy_allocator.c`

One page of 4096 bytes is managed by a binary tree of nine levels. The only state
is a bitmap with one bit per tree node, in heap order. A bit means two things: the
node is handed out, or some node below it is.

Every loop of the source is a step function run by `Loop.run`; `none` as the result
of a function means that the loop did not end within the bound given here.
-/

namespace SysProg.Memory

open ByteMemory

/-- `uint8_t nodes[BUDDY_ALLOCATOR_BITMAP_SIZE]`. -/
abbrev Bitmap := Vector (BitVec 8) buddyAllocatorBitmapSize

/-- `struct BuddyAllocator`. -/
structure BuddyAllocator where
  page : ℕ
  nodes : Bitmap
deriving DecidableEq, Repr

/-- A zero-initialised bitmap. -/
def emptyBitmap : Bitmap :=
  Vector.replicate _ 0

/-- The byte that holds the bit of node `i`. -/
def byteOf (nodes : Bitmap) (i : ℕ) : BitVec 8 :=
  nodes[i / 8]?.getD 0

/-- `1 << (i % 8)` as a byte. -/
def place (i : ℕ) : BitVec 8 :=
  1#8 <<< (i % 8)

def isMarked (nodes : Bitmap) (i : ℕ) : Bool :=
  byteOf nodes i &&& place i != 0#8

def mark (nodes : Bitmap) (i : ℕ) : Bitmap :=
  nodes.setIfInBounds (i / 8) (byteOf nodes i ||| place i)

def unmark (nodes : Bitmap) (i : ℕ) : Bitmap :=
  nodes.setIfInBounds (i / 8) (byteOf nodes i &&& ~~~place i)

def bucketSize (bucket : ℕ) : ℕ :=
  if bucket ≥ buddyAllocatorDepth then 0
  else allocationGranularity * (1 <<< (buddyAllocatorDepth - 1 - bucket))

/-- Left child node. -/
def left (index : ℕ) : ℕ := 2 * index + 1

/-- Right child node. -/
def right (index : ℕ) : ℕ := 2 * index + 2

/-- Sibling node. The subtraction wraps, so the sibling of the root is `~0u`. -/
def sibling (index : ℕ) : ℕ :=
  (((index + (2 ^ 64 - 1)) % 2 ^ 64 ^^^ 1) + 1) % 2 ^ 64

/-- Parent node. -/
def parent (index : ℕ) : ℕ :=
  (index + (2 ^ 64 - 1)) % 2 ^ 64 / 2

/-- True if the sibling is right of this node. Also true for the root node. -/
def isLeft (index : ℕ) : Bool :=
  index < sibling index

def isSplit (nodes : Bitmap) (i bucket : ℕ) : Bool :=
  bucket < buddyAllocatorDepth - 1 && (isMarked nodes (left i) || isMarked nodes (right i))

def nodeToPointer (page i bucket : ℕ) : ℕ :=
  page + allocationGranularity * ((i + 1 - 1 <<< bucket) <<< (buddyAllocatorDepth - bucket - 1))

/-! ## Allocation -/

/-- Where `buddy_allocator_allocate` stands: looking at a node, climbing out of right
children, or marking the path to the root. -/
inductive AllocatePc where
  | visit
  | climb
  | markUp
deriving DecidableEq, Repr

/-- The variables of `buddy_allocator_allocate`. -/
structure AllocateLoop where
  pc : AllocatePc
  nodes : Bitmap
  i : ℕ
  bucket : ℕ
  pageOffset : ℕ

/-- One step of `buddy_allocator_allocate`; the result is the page offset of the
block, if there is one, and the bitmap. -/
def allocateStep (size : ℕ) (s : AllocateLoop) : AllocateLoop ⊕ (Option ℕ × Bitmap) :=
  match s.pc with
  | .visit =>
      if isMarked s.nodes s.i &&
          (size > bucketSize (s.bucket + 1) || !isSplit s.nodes s.i s.bucket) then
        .inl { s with pc := .climb }
      else if size ≤ bucketSize (s.bucket + 1) then
        .inl { s with i := left s.i, bucket := s.bucket + 1 }
      else .inl { s with pc := .markUp, nodes := mark s.nodes s.i }
  | .climb =>
      if !isLeft s.i then
        .inl { s with
          i := parent s.i
          pageOffset := s.pageOffset - bucketSize s.bucket
          bucket := s.bucket - 1 }
      else if s.i = 0 then .inr (none, s.nodes)
      else
        .inl { s with
          pc := .visit
          i := sibling s.i
          pageOffset := s.pageOffset + bucketSize s.bucket }
  | .markUp =>
      if s.i = 0 then .inr (some s.pageOffset, s.nodes)
      else .inl { s with i := parent s.i, nodes := mark s.nodes (parent s.i) }

/-- A bound on the steps of one allocation, see `allocateMeasure`. -/
def allocateFuel : ℕ := 8192

/-- The search from the root. -/
def allocateStart (nodes : Bitmap) : AllocateLoop :=
  { pc := .visit, nodes := nodes, i := 0, bucket := 0, pageOffset := 0 }

/-- `buddy_allocator_allocate`: the pointer, or null, and the allocator after it. -/
def buddyAllocatorAllocate (allocator : BuddyAllocator) (size : ℕ) :
    Option (Option ℕ × BuddyAllocator) :=
  if size > buddyAllocatorMaximalAllocation then some (none, allocator)
  else
    (Loop.run (allocateStep size) allocateFuel (allocateStart allocator.nodes)).map
      fun r => (r.1.map (allocator.page + ·), { allocator with nodes := r.2 })

/-! ## Deallocation -/

/-- The variables of `find_buddy`. -/
structure FindLoop where
  i : ℕ
  bucket : ℕ
  pointer : ℕ

def findStep (nodes : Bitmap) (requestedPointer : ℕ) (s : FindLoop) : FindLoop ⊕ (ℕ × ℕ) :=
  if s.pointer = requestedPointer && !isSplit nodes s.i s.bucket then .inr (s.i, s.bucket)
  else if requestedPointer < s.pointer + bucketSize (s.bucket + 1) then
    .inl { s with i := left s.i, bucket := s.bucket + 1 }
  else
    .inl
      { i := right s.i
        bucket := s.bucket + 1
        pointer := s.pointer + bucketSize (s.bucket + 1) }

/-- `find_buddy`: the node that starts at a pointer, and its bucket. -/
def findBuddy (allocator : BuddyAllocator) (requestedPointer : ℕ) : Option (ℕ × ℕ) :=
  Loop.run (findStep allocator.nodes requestedPointer) (buddyAllocatorDepth + 1)
    { i := 0, bucket := 0, pointer := allocator.page }

/-- The bitmap and the node that a merging, shrinking or growing loop works on. -/
structure NodeLoop where
  nodes : Bitmap
  i : ℕ
  bucket : ℕ

/-- The merge loop of `buddy_allocator_deallocate`: unmark upwards until the root or
a marked sibling. -/
def mergeStep (s : NodeLoop) : NodeLoop ⊕ Bitmap :=
  let nodes := unmark s.nodes s.i
  if s.i = 0 || isMarked nodes (sibling s.i) then .inr nodes
  else .inl { nodes := nodes, i := parent s.i, bucket := s.bucket - 1 }

def buddyAllocatorDeallocate (allocator : BuddyAllocator) (requestedPointer : ℕ) :
    Option BuddyAllocator := do
  let (i, bucket) ← findBuddy allocator requestedPointer
  let nodes ← Loop.run mergeStep (buddyAllocatorDepth + 1)
    { nodes := allocator.nodes, i := i, bucket := bucket }
  return { allocator with nodes := nodes }

/-! ## Reallocation -/

/-- What `buddy_allocator_reallocate` leaves behind: the pointer it returns (or null),
the out parameter, the allocator and the copy it made. -/
structure Reallocated where
  pointer : Option ℕ
  currentAllocationSize : ℕ
  allocator : BuddyAllocator
  copy : Option Copy

/-- The shrinking loop: descend into left children, so that the data stays. -/
def shrinkStep (size : ℕ) (s : NodeLoop) : NodeLoop ⊕ NodeLoop :=
  if size ≤ bucketSize (s.bucket + 1) && s.bucket < buddyAllocatorDepth - 1 then
    .inl { nodes := mark s.nodes (left s.i), i := left s.i, bucket := s.bucket + 1 }
  else .inr s

/-- The growing loop: `true` when the node has become large enough, `false` when the
block has been released without success. -/
def growStep (size : ℕ) (s : NodeLoop) : NodeLoop ⊕ (Bool × NodeLoop) :=
  if bucketSize s.bucket ≥ size then .inr (true, s)
  else
    let nodes := unmark s.nodes s.i
    if s.bucket = 0 then .inr (false, { s with nodes := nodes })
    else if isMarked nodes (sibling s.i) then .inr (false, { s with nodes := nodes })
    else .inl { nodes := nodes, i := parent s.i, bucket := s.bucket - 1 }

def buddyAllocatorReallocate (allocator : BuddyAllocator) (requestedPointer size : ℕ) :
    Option Reallocated := do
  let (i, bucket) ← findBuddy allocator requestedPointer
  let current := bucketSize bucket
  let shrunk ← Loop.run (shrinkStep size) (buddyAllocatorDepth + 1)
    { nodes := allocator.nodes, i := i, bucket := bucket }
  if shrunk.bucket ≠ bucket then
    return ⟨some requestedPointer, current, { allocator with nodes := shrunk.nodes }, none⟩
  if size ≤ current then
    return ⟨some requestedPointer, current, allocator, none⟩
  if size > buddyAllocatorMaximalAllocation then
    return ⟨none, current, allocator, none⟩
  let (expanded, grown) ← Loop.run (growStep size) (buddyAllocatorDepth + 1)
    { nodes := allocator.nodes, i := i, bucket := bucket }
  let allocator := { allocator with nodes := grown.nodes }
  if expanded then
    let newPointer := nodeToPointer allocator.page grown.i grown.bucket
    let copy :=
      if newPointer ≠ requestedPointer then some ⟨newPointer, requestedPointer, current⟩ else none
    return ⟨some newPointer, current, allocator, copy⟩
  let (newPointer, allocator) ← buddyAllocatorAllocate allocator size
  return ⟨newPointer, current, allocator, newPointer.map fun p => ⟨p, requestedPointer, current⟩⟩

end SysProg.Memory
