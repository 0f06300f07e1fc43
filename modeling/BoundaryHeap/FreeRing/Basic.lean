import BoundaryHeap.Block.Walk

/-!
# The ring of free blocks

The free blocks of a heap form a ring that is threaded through their payloads: the word at `p`
leads to the node before, the word at `p + 8` to the node after. The prologue carries the same two
words and closes the ring, so no list is ever empty and no end needs a case of its own.

A block that was just freed goes right after the sentinel, and a search starts there: **the most
recently freed block is looked at first.** Only the tail that is split off a block behaves
differently: it takes the place its block had.

Every edit is a fixed sequence of single writes to links. A null link, which no ring contains,
means that a side was never linked, and taking a node out leaves that side alone.
-/

set_option autoImplicit false

namespace BoundaryHeap

structure Links where
  prev : Nat
  next : Nat
deriving DecidableEq

namespace Arena

/-! ## Single links -/

def prevLink (a : Arena) (p : Nat) : Except Fault Nat :=
  a.readOffset p

def nextLink (a : Arena) (p : Nat) : Except Fault Nat :=
  a.readOffset (p + wordSize)

/-- Both links, whatever the block's tag says. -/
def links (a : Arena) (p : Nat) : Except Fault Links := do
  let prev ← a.prevLink p
  let next ← a.nextLink p
  return ⟨prev, next⟩

/-- Lead from `p` back to another node. -/
def setPrevLink (a : Arena) (p target : Nat) : Except Fault Arena :=
  a.writeOffset p target

/-- Lead from `p` on to another node. -/
def setNextLink (a : Arena) (p target : Nat) : Except Fault Arena :=
  a.writeOffset (p + wordSize) target

/-! ## What may be a node -/

/-- Whether the payload of `p` holds links: it is the sentinel, or its header says free. -/
def isNode (a : Arena) (p : Nat) : Except Fault Bool :=
  if p = prologue then .ok true
  else (a.header p).map Tag.isFree

/-- Insist on it. -/
def requireNode (a : Arena) (p : Nat) : Except Fault Unit := do
  if ← a.isNode p then return () else throw (.allocatedNode p)

/-! ## Edits -/

def initRing (a : Arena) : Except Fault Arena := do
  let a ← a.setPrevLink prologue prologue
  a.setNextLink prologue prologue

/-- Put a block right after the sentinel. -/
def insertAtHead (a : Arena) (p : Nat) : Except Fault Arena := do
  -- In an empty ring the head is the sentinel itself.
  let head ← a.nextLink prologue
  let a ← a.setPrevLink p prologue
  let a ← a.setNextLink p head
  let a ← a.setPrevLink head p
  a.setNextLink prologue p

/-- Join the two nodes that a node's links lead to. -/
def stitch (a : Arena) (links : Links) : Except Fault Arena := do
  -- No node is at offset 0, where the padding word is, so a link of 0 leads nowhere.
  let a ← if links.prev ≠ 0 then a.setNextLink links.prev links.next else .ok a
  if links.next ≠ 0 then a.setPrevLink links.next links.prev else .ok a

def removeNode (a : Arena) (p : Nat) : Except Fault Arena := do
  let links ← a.links p
  a.stitch links

/-- Put a block where a node with the given links was. -/
def takePosition (a : Arena) (links : Links) (p : Nat) : Except Fault Arena := do
  let a ← a.setPrevLink p links.prev
  let a ← a.setNextLink p links.next
  let a ← a.setNextLink links.prev p
  a.setPrevLink links.next p

/-! ## Walks

A walk that meets more nodes than the arena has bytes has met one of them twice, so it would go on
forever. That is what `budget` counts.
-/

def nodesFrom (a : Arena) (p : Nat) : (budget : Nat) → Except Fault (List Nat)
  | 0 => if p = prologue then .ok [] else .error .endlessRing
  | budget + 1 =>
    if p = prologue then .ok []
    else match a.nextLink p with
      | .error f => .error f
      | .ok next => (a.nodesFrom next budget).map (p :: ·)

def nodes (a : Arena) : Except Fault (List Nat) := do
  let head ← a.nextLink prologue
  a.nodesFrom head (a.brk + 1)

/-- The first `count` nodes from `p` on, or fewer if the sentinel comes first. -/
def takeNodesFrom (a : Arena) (p : Nat) : (count : Nat) → Except Fault (List Nat)
  | 0 => .ok []
  | count + 1 =>
    if p = prologue then .ok []
    else match a.nextLink p with
      | .error f => .error f
      | .ok next => (a.takeNodesFrom next count).map (p :: ·)

/-- The first `count` free blocks in ring order. It ends even where the ring does not. -/
def takeNodes (a : Arena) (count : Nat) : Except Fault (List Nat) := do
  let head ← a.nextLink prologue
  a.takeNodesFrom head count

/-- The first node from `p` on whose block has at least `size` bytes. The link to the next node is
read before the header is looked at. -/
def firstFitFrom (a : Arena) (size : Nat) (p : Nat) :
    (budget : Nat) → Except Fault (Option Nat)
  | 0 => if p = prologue then .ok none else .error .endlessRing
  | budget + 1 =>
    if p = prologue then .ok none
    else match a.nextLink p with
      | .error f => .error f
      | .ok next => match a.header p with
        | .error f => .error f
        | .ok tag => if size ≤ tag.size then .ok (some p) else a.firstFitFrom size next budget

/-- The first free block, in ring order, of at least `size` bytes. -/
def firstFit (a : Arena) (size : Nat) : Except Fault (Option Nat) := do
  let head ← a.nextLink prologue
  a.firstFitFrom size head (a.brk + 1)

def freeBlocks (a : Arena) (count : Nat) : Except Fault (List Block) := do
  let ps ← a.takeNodes count
  ps.mapM fun p => return ⟨p, ← a.header p⟩

end Arena

end BoundaryHeap
