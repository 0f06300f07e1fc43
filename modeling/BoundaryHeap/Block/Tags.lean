import BoundaryHeap.Arena.Basic

/-!
# The tags of a block

Where the two tags of a block are, and how to get from a block to its neighbours. A block of
`size` bytes whose payload is at `p` looks like this:

    p - 8           header
    p               payload, in a free block the two links first
    p + size - 16   footer
    p + size - 8    header of the next block

Everything is computed from the size in the header, except that the block before is found by its
footer, which stands right below the header. So a footer is where it should be only as long as the
header is current, and **a header is written before the footer that goes with it**.
-/

set_option autoImplicit false

namespace BoundaryHeap

def headerOf (p : Nat) : Except Fault Nat :=
  subOffset p wordSize

namespace Arena

def header (a : Arena) (p : Nat) : Except Fault Tag := do
  let place ← headerOf p
  let w ← a.readWord place
  return Tag.decode w

/-- Where the footer of a block is, by its header. -/
def footerOf (a : Arena) (p : Nat) : Except Fault Nat := do
  let tag ← a.header p
  let stop ← addOffset p tag.size
  subOffset stop tagOverhead

def footer (a : Arena) (p : Nat) : Except Fault Tag := do
  let place ← a.footerOf p
  let w ← a.readWord place
  return Tag.decode w

def prevFooter (a : Arena) (p : Nat) : Except Fault Tag := do
  let place ← headerOf p
  let below ← subOffset place wordSize
  let w ← a.readWord below
  return Tag.decode w

def nextBlock (a : Arena) (p : Nat) : Except Fault Nat := do
  let tag ← a.header p
  addOffset p tag.size

def prevBlock (a : Arena) (p : Nat) : Except Fault Nat := do
  let tag ← a.prevFooter p
  subOffset p tag.size

def setHeader (a : Arena) (p : Nat) (tag : Tag) : Except Fault Arena := do
  let place ← headerOf p
  a.writeWord place tag.encode

/-- Write the header of a block, and then the footer where that header puts it. -/
def setTags (a : Arena) (p : Nat) (tag : Tag) : Except Fault Arena := do
  let a ← a.setHeader p tag
  let place ← a.footerOf p
  a.writeWord place tag.encode

end Arena

end BoundaryHeap
