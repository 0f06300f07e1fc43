import BoundaryHeap.Heap.Access

/-!
# Block maps

The allocator without its bytes. A block map is the row of blocks by address and, apart from it,
the order in which the free ones are searched. **Nothing here knows of tags, links or payloads:**
a block is three numbers, and every operation says which span of addresses becomes which blocks.

A heap has a block map as its view (`Heap.blockMap`). The operations on maps are what the operations
on heaps are meant to do to that view.
-/

set_option autoImplicit false

namespace BoundaryHeap

/-- A block: where its payload starts, its whole size, and whether it is allocated. -/
structure Cell where
  offset : Nat
  size : Nat
  allocated : Bool
deriving DecidableEq

def Cell.stop (c : Cell) : Nat :=
  c.offset + c.size

/-- A block without its tag's encoding. -/
def Block.cell (b : Block) : Cell :=
  ⟨b.payload, b.tag.size, b.tag.allocated⟩

/-- The blocks by address, and the offsets of the free ones in the order of the search. -/
structure BlockMap where
  cells : List Cell
  ring : List Nat
deriving DecidableEq

namespace BlockMap

/-- The end of the last block, which is the mark of the arena. -/
def brk (m : BlockMap) : Nat :=
  (m.cells.getLast?.map Cell.stop).getD firstPayload

def cellAt? (m : BlockMap) (p : Nat) : Option Cell :=
  m.cells.find? (·.offset == p)

/-- The size of the block at an offset, zero if there is none. -/
def sizeAt (m : BlockMap) (p : Nat) : Nat :=
  ((m.cellAt? p).map Cell.size).getD 0

/-- The row with the blocks between two offsets replaced. -/
def splice (cells : List Cell) (lo hi : Nat) (middle : List Cell) : List Cell :=
  cells.filter (·.offset < lo) ++ middle ++ cells.filter (hi ≤ ·.offset)

/-! ## Giving back -/

/-- Make one free block of the bytes from `lo` up to `hi`, and search it first. The free blocks it
covers are searched no more. -/
def free (m : BlockMap) (lo hi : Nat) : BlockMap where
  cells := splice m.cells lo hi [⟨lo, hi - lo, false⟩]
  ring := lo :: m.ring.filter fun q => q < lo || hi ≤ q

/-- Where the free block that ends at an offset starts; the offset itself if there is none. -/
def startBefore (m : BlockMap) (p : Nat) : Nat :=
  ((m.cells.find? fun c => c.stop == p && !c.allocated).map Cell.offset).getD p

/-- Where the free block that starts at an offset ends; the offset itself if there is none. -/
def stopAfter (m : BlockMap) (p : Nat) : Nat :=
  ((m.cells.find? fun c => c.offset == p && !c.allocated).map Cell.stop).getD p

/-- Free the block at `p` and merge it with its free neighbours. -/
def release (m : BlockMap) (p : Nat) : BlockMap :=
  m.free (m.startBefore p) (m.stopAfter (p + m.sizeAt p))

/-! ## Handing out -/

/-- The first block in the order of the search with at least `size` bytes. -/
def firstFit (m : BlockMap) (size : Nat) : Option Nat :=
  m.ring.find? fun p => size ≤ m.sizeAt p

/-- Add `count` free bytes at the end, merged with a free last block. The answer is that block. -/
def grow (m : BlockMap) (count : Nat) : Nat × BlockMap :=
  let start := m.startBefore m.brk
  (start, m.free start (m.brk + count))

/-- Hand out the free block at `p` for `size` bytes. What is left stands for it in the search if it
can stand alone, and is handed out with it if not. -/
def carve (m : BlockMap) (p size : Nat) : BlockMap :=
  let current := m.sizeAt p
  if size + minBlockSize ≤ current then
    { cells := splice m.cells p (p + current)
        [⟨p, size, true⟩, ⟨p + size, current - size, false⟩]
      ring := m.ring.map fun q => if q = p then p + size else q }
  else
    { cells := splice m.cells p (p + current) [⟨p, current, true⟩]
      ring := m.ring.filter (· ≠ p) }

/-- A free block of at least `size` bytes, after growing the heap if need be and if it can be. -/
def findBlock (m : BlockMap) (settings : Settings) (size : Nat) : Option (Nat × BlockMap) :=
  match m.firstFit size with
  | some p => some (p, m)
  | none =>
    (extensionSize size settings.chunk).bind fun count =>
      if m.brk + count ≤ settings.reserved then some (m.grow count) else none

def allocate (m : BlockMap) (settings : Settings) (n : Nat) : Option Nat × BlockMap :=
  match adjustedSize n with
  | none => (none, m)
  | some size =>
    match m.findBlock settings size with
    | none => (none, m)
    | some (p, m) => (some p, m.carve p size)

/-- Hand out a new block, and give the old one back if that succeeded. -/
def resize (m : BlockMap) (settings : Settings) (p n : Nat) : Option Nat × BlockMap :=
  if n = 0 then (none, m.release p)
  else match m.allocate settings n with
    | (none, m) => (none, m)
    | (some q, m) => (some q, m.release p)

def fresh (settings : Settings) : BlockMap where
  cells := [⟨firstPayload, settings.chunk, false⟩]
  ring := [firstPayload]

end BlockMap

def Heap.blockMap (heap : Heap) : Except Fault BlockMap := do
  let blocks ← heap.blocks
  let ring ← heap.arena.nodes
  return ⟨blocks.map Block.cell, ring⟩

end BoundaryHeap
