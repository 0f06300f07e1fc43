import BoundaryHeap.Block.Tags
import BoundaryHeap.Event

/-!
# The audit of the blocks

The audit walks over the blocks like everyone else, but trusts nothing it reads. It starts at the
offset where the first block has to be, whatever the prologue says, checks every end before it
follows it, and keeps what it saw: **the walk is a value, and both the violations and the dump are
read off that value.**
-/

set_option autoImplicit false

namespace BoundaryHeap

structure Visit where
  payload : Nat
  header : Tag
  footer : Tag
deriving DecidableEq

/-- Where and why a walk ended. -/
inductive WalkEnd where
  /-- At a block of no bytes, as every walk over a sound heap does. -/
  | emptyBlock (p : Nat) (tag : Tag)
  /-- At an offset above the mark. -/
  | aboveMark (p : Nat)
  /-- At a block that would reach past the epilogue's header. -/
  | tooLong (p : Nat) (size : Nat)
deriving DecidableEq

structure BlockWalk where
  visits : List Visit
  ending : WalkEnd
deriving DecidableEq

def BlockWalk.cons (v : Visit) (w : BlockWalk) : BlockWalk :=
  { w with visits := v :: w.visits }

namespace Arena

def blockWalkFrom (a : Arena) (p : Nat) : Except Fault BlockWalk :=
  if a.brk < p then .ok ⟨[], .aboveMark p⟩
  else match a.header p with
    | .error f => .error f
    | .ok tag =>
      if tag.size = 0 then .ok ⟨[], .emptyBlock p tag⟩
      else if p + tag.size ≤ a.brk + wordSize then
        match a.footer p with
        | .error f => .error f
        | .ok footer => (a.blockWalkFrom (p + tag.size)).map (BlockWalk.cons ⟨p, tag, footer⟩)
      else .ok ⟨[], .tooLong p tag.size⟩
termination_by a.brk + 9 - p
decreasing_by simp only [wordSize] at *; omega

def blockWalk (a : Arena) : Except Fault BlockWalk :=
  a.blockWalkFrom firstPayload

end Arena

/-! ## What is wrong -/

def misalignment (p : Nat) : List Violation :=
  if p % alignment ≠ 0 then [.misaligned p] else []

/-- What is wrong with a block, given the block right before it if that one is free. -/
def Visit.violations (freeBefore : Option Nat) (v : Visit) : List Violation :=
  let tags := if v.footer ≠ v.header then [.tagMismatch v.payload v.header v.footer] else []
  let neighbours := match freeBefore with
    | some first => if v.header.isFree then [.uncoalesced first v.payload] else []
    | none => []
  misalignment v.payload ++ tags ++ neighbours

def visitViolations (freeBefore : Option Nat) : List Visit → List Violation
  | [] => []
  | v :: rest =>
    v.violations freeBefore ++
      visitViolations (if v.header.isFree then some v.payload else none) rest

/-- What is wrong with the place where a walk over `brk` bytes ended. -/
def WalkEnd.violations (brk : Nat) : WalkEnd → List Violation
  | emptyBlock p tag => if tag.allocated && p == brk then [] else [.badEpilogue p tag]
  | aboveMark p => [.overrun p 0]
  | tooLong p size => misalignment p ++ [.overrun p size]

namespace BlockWalk

/-- What is wrong with a walk, in the order in which it met it. -/
def violations (brk : Nat) (w : BlockWalk) : List Violation :=
  visitViolations none w.visits ++ w.ending.violations brk

def freeCount (w : BlockWalk) : Nat :=
  w.visits.countP fun v => v.header.isFree

end BlockWalk

/-! ## The prologue -/

/-- The two tags of the prologue, the footer read where it has to be. -/
def Arena.prologueTags (a : Arena) : Except Fault (Tag × Tag) := do
  let header ← a.header prologue
  let footer ← a.readWord (prologue + prologueSize - tagOverhead)
  return (header, Tag.decode footer)

def prologueViolations (header footer : Tag) : List Violation :=
  if header = Tag.sentinel ∧ footer = Tag.sentinel then [] else [.badPrologue header footer]

end BoundaryHeap
