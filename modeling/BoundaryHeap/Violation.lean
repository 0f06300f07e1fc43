import BoundaryHeap.Text
import BoundaryHeap.Tag

/-!
# Broken heap invariants

What the audit can find wrong with the bytes of a heap, as data: a report lists these values, and
the strict mode stops at the first.
-/

set_option autoImplicit false

namespace BoundaryHeap

/-- One broken invariant, with the offsets and tags that show it. -/
inductive Violation where
  /-- A tag of the prologue is not that of an allocated block of 32 bytes. -/
  | badPrologue (header footer : Tag)
  /-- The walk by address met a block of no bytes that is not the epilogue at the end. -/
  | badEpilogue (offset : Nat) (tag : Tag)
  | misaligned (offset : Nat)
  | tagMismatch (offset : Nat) (header footer : Tag)
  | overrun (offset size : Nat)
  /-- Two free blocks stand side by side; they should have been merged. -/
  | uncoalesced (first second : Nat)
  /-- A node of the free ring is tagged as allocated. -/
  | listedBlockAllocated (offset : Nat)
  /-- The neighbours of a node do not point back at it. -/
  | linkMismatch (offset : Nat)
  /-- A link leads out of the heap or to no possible payload. -/
  | linkOutOfBounds (source link : Nat)
  /-- The ring did not come back to its sentinel within as many nodes as the heap can hold. -/
  | listNotClosed (visited : Nat)
  /-- The two walks counted different numbers of free blocks. -/
  | freeCountMismatch (inHeap inList : Nat)
deriving DecidableEq

def Violation.text : Violation → String
  | badPrologue header footer => "bad prologue: header " ++ header.text ++ ", footer " ++ footer.text
  | badEpilogue offset tag => "bad epilogue header at " ++ Text.hex offset ++ ": " ++ tag.text
  | misaligned offset => Text.hex offset ++ " is not doubleword aligned"
  | tagMismatch offset header footer =>
    "header does not match footer at " ++ Text.hex offset ++ ": " ++ header.text ++ " vs " ++
      footer.text
  | overrun offset size =>
    "block at " ++ Text.hex offset ++ s!" of size {size} runs past the heap"
  | uncoalesced first second =>
    "adjacent free blocks at " ++ Text.hex first ++ " and " ++ Text.hex second
  | listedBlockAllocated offset => "free block marked as allocated: " ++ Text.hex offset
  | linkMismatch offset => "free list pointers inconsistent: " ++ Text.hex offset
  | linkOutOfBounds source link =>
    "free list link " ++ Text.hex link ++ " from " ++ Text.hex source ++ " leaves the heap"
  | listNotClosed visited => s!"free list not closed after {visited} nodes"
  | freeCountMismatch inHeap inList =>
    s!"{inHeap} free blocks in heap but {inList} in free list"

end BoundaryHeap
