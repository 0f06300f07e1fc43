import BoundaryHeap.Heap.Basic

/-!
# Handing out and taking back blocks

A request takes the first free block in ring order that is large enough, and grows the heap if
there is none. What is left of the block becomes a free block of its own if it can stand alone,
and takes the old one's place in the ring; otherwise the whole block is handed out.

**A request that cannot be met changes nothing but a counter,** and a move is an allocation, a copy
and a release, so a move that cannot be met leaves the old block in force.
-/

set_option autoImplicit false

namespace BoundaryHeap

/-- Hand out `size` bytes of the free block at `p`, and keep the rest free where it can stand
alone. -/
def Arena.place (a : Arena) (p : Nat) (size : Nat) : Except Fault Arena := do
  let current := (← a.header p).size
  let left ← subOffset current size
  if minBlockSize ≤ left then
    -- The links are read while they are still links.
    let links ← a.links p
    let a ← a.setTags p (← Tag.ofSize size true)
    let rest ← a.nextBlock p
    let a ← a.setTags rest (← Tag.ofSize left false)
    a.requireNode rest
    a.takePosition links rest
  else
    let a ← a.removeNode p
    a.setTags p (← Tag.ofSize current true)

namespace Heap

def countFailure (heap : Heap) : Heap :=
  let ⟨arena, settings, counters⟩ := heap
  ⟨arena, settings, { counters with failedAllocations := counters.failedAllocations + 1 }⟩

/-- A free block of at least `size` bytes: the first fit, or what a growth of the heap gives. -/
def findBlock (heap : Heap) (size : Nat) : Traced (Except ArenaError Nat × Heap) := do
  match ← heap.arena.firstFit size with
  | some p => return (.ok p, heap)
  | none => heap.growFor size

/-- Hand out a block with at least `n` usable bytes. A request for nothing gets nothing and does
not count as failed. -/
def allocate (heap : Heap) (n : Nat) : Traced (Option Nat × Heap) := do
  if n = 0 then return (none, heap)
  else match adjustedSize n with
  | none => return (none, heap.countFailure)
  | some size =>
    match ← heap.findBlock size with
    | (.error e, heap) =>
      Traced.emit (.allocationFailed n e)
      return (none, heap.countFailure)
    | (.ok p, heap) =>
      let ⟨arena, settings, counters⟩ := heap
      let arena ← arena.place p size
      Traced.emit (.blockAllocated n (← arena.header p).size p)
      let counters := { counters with allocations := counters.allocations + 1 }
      return (some p, ⟨arena, settings, counters⟩)

def releaseBlock (heap : Heap) (p : Nat) : Traced Heap := do
  let ⟨arena, settings, counters⟩ := heap
  let size := (← arena.header p).size
  let arena ← arena.setTags p (← Tag.ofSize size false)
  let (merged, arena) ← arena.coalesce p
  Traced.emit (.blockReleased p merged)
  return ⟨arena, settings, { counters with releases := counters.releases + 1 }⟩

/-- Take a block back. Without a handle there is nothing to do. -/
def release (heap : Heap) : Option Nat → Traced Heap
  | none => return heap
  | some p => heap.releaseBlock p

/-- Payload bytes of the block at `p`, by its header. -/
def usableSize (heap : Heap) (p : Nat) : Except Fault Nat :=
  (heap.arena.header p).map fun tag => BoundaryHeap.usableSize tag.size

/-- Move a block to one of `n` bytes and keep as much of its contents as fits. Without a handle
this is an allocation, and to no bytes at all it is a release. -/
def resize (heap : Heap) (handle : Option Nat) (n : Nat) :
    Traced (Option Nat × Heap) :=
  match handle with
  | none => heap.allocate n
  | some p =>
    if n = 0 then do
      return (none, ← heap.releaseBlock p)
    else do
      match ← heap.allocate n with
      | (none, heap) => return (none, heap)
      | (some q, heap) =>
        -- The old block is still in force, so its header says what there is to keep.
        let copied := min n (← heap.usableSize p)
        let ⟨arena, settings, counters⟩ := heap
        let arena ← arena.copyWithin p q copied
        let ⟨arena, settings, counters⟩ ← (Heap.mk arena settings counters).releaseBlock p
        Traced.emit (.blockMoved p q copied)
        return (some q, ⟨arena, settings, { counters with resizes := counters.resizes + 1 }⟩)

end Heap

end BoundaryHeap
