import BoundaryHeap.Arena.Lifecycle
import BoundaryHeap.FreeRing.Basic
import BoundaryHeap.Settings

/-!
# Heaps

A heap is an arena with blocks in it, the settings it was made from and a count of what it has
done. This file makes heaps and lets them grow.

Growing puts a new free block where the epilogue's header was, writes a new epilogue at the new
end, and merges the block with the last block before it if that one is free. Making a heap writes
the sentinels and then grows it once, so **a new heap is one free block**.

The edits of the bytes (`coalesce`, `format`) are functions on arenas that nobody observes; events
and counters belong to the heap.
-/

set_option autoImplicit false

namespace BoundaryHeap

/-! ## Edits of the bytes -/

namespace Arena

/-- The free blocks that stand right before and right after a block. -/
structure Neighbours where
  before : Option Nat
  after : Option Nat

/-- Merge the free block at `p` with its free neighbours, given as such, and put what comes of it
at the head of the ring. The neighbours leave the ring, the one before first. -/
def merge (a : Arena) (p : Nat) : Neighbours → Except Fault (Nat × Arena)
  | ⟨none, none⟩ => do
    a.requireNode p
    return (p, ← a.insertAtHead p)
  | ⟨none, some next⟩ => do
    let size ← addOffset (← a.header p).size (← a.header next).size
    a.requireNode next
    let a ← a.removeNode next
    let a ← a.setTags p (← Tag.ofSize size false)
    a.requireNode p
    return (p, ← a.insertAtHead p)
  | ⟨some prev, none⟩ => do
    let size ← addOffset (← a.header p).size (← a.header prev).size
    a.requireNode prev
    let a ← a.removeNode prev
    let a ← a.setTags prev (← Tag.ofSize size false)
    a.requireNode prev
    return (prev, ← a.insertAtHead prev)
  | ⟨some prev, some next⟩ => do
    let others ← addOffset (← a.header prev).size (← a.header next).size
    let size ← addOffset (← a.header p).size others
    a.requireNode prev
    a.requireNode next
    let a ← a.removeNode prev
    let a ← a.removeNode next
    let a ← a.setTags prev (← Tag.ofSize size false)
    a.requireNode prev
    return (prev, ← a.insertAtHead prev)

/-- The free neighbours of the block at `p`. The sentinels are allocated, so in a sound heap the
search does not leave it. -/
def neighbours (a : Arena) (p : Nat) : Except Fault Neighbours := do
  let _ ← a.header p
  let below ← a.prevFooter p
  let next ← a.nextBlock p
  let above ← a.header next
  let before ← if below.isFree then (a.prevBlock p).map some else .ok none
  return ⟨before, if above.isFree then some next else none⟩

/-- Merge the block at `p`, whose tags say free, with its free neighbours and put it at the head of
the ring. The answer is the merged block. -/
def coalesce (a : Arena) (p : Nat) : Except Fault (Nat × Arena) := do
  let around ← a.neighbours p
  a.merge p around

/-- Write the sentinels of a heap without blocks: padding, prologue, ring and epilogue. -/
def format (a : Arena) : Except Fault Arena := do
  let a ← a.writeWord 0 0
  let a ← a.setTags prologue Tag.sentinel
  let a ← a.initRing
  let stop ← a.nextBlock prologue
  a.setHeader stop Tag.epilogue

/-- Write a free block of `count` bytes at `p`, over the old epilogue, and the new epilogue after
it, which has to come out at the mark. -/
def openBlock (a : Arena) (p : Nat) (count : Nat) : Except Fault Arena := do
  let a ← a.setTags p (← Tag.ofSize count false)
  let stop ← a.nextBlock p
  let a ← a.setHeader stop Tag.epilogue
  if stop = a.brk then return a else throw (.epilogueMisplaced stop a.brk)

end Arena

/-! ## The heap -/

/-- What a heap has done since it was made. The counts are exact. -/
structure Counters where
  /-- Blocks handed out, those of moves included. -/
  allocations : Nat := 0
  /-- Blocks taken back, those of moves included. -/
  releases : Nat := 0
  resizes : Nat := 0
  extensions : Nat := 0
  /-- Requests for some bytes that got none. -/
  failedAllocations : Nat := 0
deriving DecidableEq

structure Heap where
  arena : Arena
  settings : Settings
  counters : Counters

namespace Heap

/-- The increment of `count` bytes. Increments have a sign, so not every word is one. -/
def increment? (count : Nat) : Option Int :=
  if count < 0x8000000000000000 then some count else none

/-- Grow the heap by `count` bytes. The answer is the free block at its end. A count that is no
increment is refused in the words for one that there is no room for. -/
def extend (heap : Heap) (count : Nat) : Traced (Except ArenaError Nat × Heap) := do
  let ⟨arena, settings, counters⟩ := heap
  match increment? count with
  | none => return (.error (.exhausted count arena.remaining), ⟨arena, settings, counters⟩)
  | some increment =>
    match ← arena.grow increment with
    | (.error e, arena) => return (.error e, ⟨arena, settings, counters⟩)
    | (.ok p, arena) =>
      -- The event tells of the new bytes, so it comes before they are merged with what was there.
      let arena ← arena.openBlock p count
      Traced.emit (.heapExtended count arena.brk)
      let (block, arena) ← arena.coalesce p
      let counters := { counters with extensions := counters.extensions + 1 }
      return (.ok block, ⟨arena, settings, counters⟩)

/-- Grow the heap far enough for a block of `size` bytes. -/
def growFor (heap : Heap) (size : Nat) : Traced (Except ArenaError Nat × Heap) :=
  match extensionSize size heap.settings.chunk with
  | some count => heap.extend count
  | none => pure (.error (.exhausted size heap.arena.remaining), heap)

def create (settings : Settings) : Traced (Except HeapError Heap) := do
  match settings.refusal? with
  | some e => return .error e
  | none =>
    match ← Arena.reserve settings.reserved with
    | .error e => return .error (.arena e)
    | .ok arena =>
      match ← arena.grow initialHeapSize with
      | (.error e, _) => return .error (.arena e)
      | (.ok _, arena) =>
        let arena ← arena.format
        match ← (Heap.mk arena settings {}).extend settings.chunk with
        | (.error e, _) => return .error (.arena e)
        | (.ok _, heap) =>
          Traced.emit (.heapInitialised heap.arena.reserved settings.chunk heap.arena.brk)
          return .ok heap

/-- Give a heap up. The answer is the final mark of its arena. -/
def tearDown (heap : Heap) : Traced Nat := do
  Traced.emit (.heapTornDown heap.counters.allocations heap.counters.releases)
  heap.arena.release

end Heap

end BoundaryHeap
