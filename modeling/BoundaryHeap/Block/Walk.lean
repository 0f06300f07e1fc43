import BoundaryHeap.Block.Tags

/-!
# The blocks of a heap

The blocks between the sentinels, by address: the first is the one after the prologue, and each
leads to the next by its size. The walk ends at a block of no bytes, which in a sound heap is the
epilogue. It also ends, without a word, at a block that would reach past the mark by more than the
header of the epilogue takes.

A walk tallies how many blocks there are and how many bytes they take. All sizes are whole blocks,
tags included, so in a sound heap the free bytes, the allocated bytes and the sentinels add up to the
heap. The tallies are natural numbers, because every block of a walk ends inside the heap. Only
`isBalanced` adds up numbers that anyone may have put into the record, and those have to be words.
-/

set_option autoImplicit false

namespace BoundaryHeap

/-! ## The walk -/

/-- A block, as its header tells. -/
structure Block where
  payload : Nat
  tag : Tag
deriving DecidableEq

def Block.usableSize (b : Block) : Nat :=
  BoundaryHeap.usableSize b.tag.size

namespace Arena

def blocksFrom (a : Arena) (p : Nat) : Except Fault (List Block) :=
  if a.brk < p then .ok []
  else match a.header p with
    | .error f => .error f
    | .ok tag =>
      if tag.size = 0 then .ok []
      -- The next payload may lie one word above the mark, as the footer still ends below it.
      else if p + tag.size ≤ a.brk + wordSize then
        (a.blocksFrom (p + tag.size)).map (⟨p, tag⟩ :: ·)
      else .ok []
termination_by a.brk + 9 - p
decreasing_by simp only [wordSize] at *; omega

/-- The blocks after the prologue, in address order. -/
def blocks (a : Arena) : Except Fault (List Block) := do
  let first ← a.nextBlock prologue
  a.blocksFrom first

end Arena

/-! ## Occupancy -/

/-- What a walk over the blocks tallies. -/
structure HeapStats where
  heapSize : Nat := 0
  blockCount : Nat := 0
  allocatedBlocks : Nat := 0
  allocatedBytes : Nat := 0
  payloadBytes : Nat := 0
  freeBlocks : Nat := 0
  freeBytes : Nat := 0
  /-- Size of the largest free block, zero if there is none. -/
  largestFree : Nat := 0
  overheadBytes : Nat := 0
deriving DecidableEq

namespace HeapStats

def count (s : HeapStats) (b : Block) : HeapStats :=
  if b.tag.allocated then
    { s with
      blockCount := s.blockCount + 1
      allocatedBlocks := s.allocatedBlocks + 1
      allocatedBytes := s.allocatedBytes + b.tag.size
      payloadBytes := s.payloadBytes + b.usableSize }
  else
    { s with
      blockCount := s.blockCount + 1
      freeBlocks := s.freeBlocks + 1
      freeBytes := s.freeBytes + b.tag.size
      largestFree := max s.largestFree b.tag.size }

/-- The tallies of a heap of `size` bytes with the given blocks. -/
def ofBlocks (size : Nat) (blocks : List Block) : HeapStats :=
  blocks.foldl count { heapSize := size, overheadBytes := sentinelOverhead }

/-- Whether every byte of the heap is accounted for. -/
def isBalanced (s : HeapStats) : Except Fault Bool := do
  let blocks ← addOffset s.freeBytes s.allocatedBytes
  let total ← addOffset blocks s.overheadBytes
  return total == s.heapSize

/-- The share of the free bytes that lies outside the largest free block. -/
def fragmentation (s : HeapStats) : Float :=
  if s.freeBytes = 0 then 0.0
  else 1.0 - (UInt64.ofNat s.largestFree).toFloat / (UInt64.ofNat s.freeBytes).toFloat

end HeapStats

/-- The tallies of a heap as it stands. -/
def Arena.stats (a : Arena) : Except Fault HeapStats := do
  let blocks ← a.blocks
  return HeapStats.ofBlocks a.brk blocks

end BoundaryHeap
