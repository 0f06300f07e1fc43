import BoundaryHeap.Audit.Report
import BoundaryHeap.Heap.Allocation

/-!
# Looking at a heap and into its blocks

Audits, tallies and listings look at a heap from outside, and none of them changes it.

The payload of an allocated block is read and written by whoever holds it. Both insist that the block
is allocated, by its header, and that all its usable bytes lie in the arena, even where fewer are
touched.
-/

set_option autoImplicit false

namespace BoundaryHeap.Heap

/-! ## The heap from outside -/

/-- Audit the heap, and do with the report what the heap's settings say. -/
def check (heap : Heap) (verbose : Bool) : Traced HeapReport := do
  let report ← heap.arena.inspect verbose
  report.enforce heap.settings.mode
  return report

/-- Audit the heap and tell nobody: the tallies, or the first violation. -/
def validate (heap : Heap) : Except Fault (Except Violation HeapStats) :=
  (heap.arena.inspect false).result.map fun report =>
    match report.violations with
    | [] => .ok report.stats
    | first :: _ => .error first

def stats (heap : Heap) : Except Fault HeapStats :=
  heap.arena.stats

def blocks (heap : Heap) : Except Fault (List Block) :=
  heap.arena.blocks

def freeBlocks (heap : Heap) (count : Nat) : Except Fault (List Block) :=
  heap.arena.freeBlocks count

/-! ## The contents of blocks -/

/-- All usable bytes of an allocated block. -/
def contents (heap : Heap) (p : Nat) : Except Fault ByteArray := do
  if (← heap.arena.header p).isFree then throw (.readOfFree p)
  heap.arena.window p (← heap.usableSize p)

/-- The number of bytes of an allocated block that may be written. -/
def writableSize (heap : Heap) (p : Nat) : Except Fault Nat := do
  if (← heap.arena.header p).isFree then throw (.writeToFree p)
  let size ← heap.usableSize p
  if p + size ≤ heap.arena.brk then return size else throw .outOfBounds

/-- Overwrite some bytes of an allocated block from the given position on. The answer is whether
they all fit; if they do not, nothing is written. -/
def store (heap : Heap) (p : Nat) (position : Nat) (data : ByteArray) :
    Except Fault (Bool × Heap) := do
  let size ← heap.writableSize p
  if position + data.size ≤ size then
    let ⟨arena, settings, counters⟩ := heap
    return (true, ⟨← arena.write (p + position) data, settings, counters⟩)
  else return (false, heap)

/-- Overwrite the first `count` bytes of an allocated block by one byte. -/
def stamp (heap : Heap) (p : Nat) (count : Nat) (b : UInt8) : Except Fault Heap := do
  let size ← heap.writableSize p
  if count ≤ size then
    let ⟨arena, settings, counters⟩ := heap
    return ⟨← arena.write p (Window.pad ByteArray.empty b count), settings, counters⟩
  else throw .outOfBounds

end BoundaryHeap.Heap
