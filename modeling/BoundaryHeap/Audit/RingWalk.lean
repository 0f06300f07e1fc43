import BoundaryHeap.Audit.BlockWalk
import BoundaryHeap.FreeRing.Basic

/-!
# The audit of the free ring

The audit follows the ring from the sentinel by the next links. Before it follows a link it asks
whether the two words there lie in the heap at all (`linkInBounds`), and at every node it asks
whether both neighbours lead back. It gives up after more nodes than the heap has room for, so a
ring that never closes does not hold it.
-/

set_option autoImplicit false

namespace BoundaryHeap

/-- The nodes that were met, and what was wrong with them. A node met after the walk's budget was
spent is counted but not looked at. -/
structure RingWalk where
  nodes : List Nat
  violations : List Violation
deriving DecidableEq

def RingWalk.cons (p : Nat) (found : List Violation) (w : RingWalk) : RingWalk :=
  ⟨p :: w.nodes, found ++ w.violations⟩

inductive Destination where
  | outside | sentinel | node
deriving DecidableEq

namespace Arena

/-- The most nodes that the heap has room for, and one to spare. -/
def ringLimit (a : Arena) : Nat :=
  a.brk / minBlockSize + 1

/-- Whether a link leads to a possible payload whose two links lie inside the heap. -/
def linkInBounds (a : Arena) (link : Nat) : Except Fault Bool :=
  if link % alignment = 0 ∧ prologue ≤ link then
    (addOffset link (2 * wordSize)).map fun stop => stop ≤ a.brk
  else .ok false

/-- Whether the node that `link` leads to has the given link back to `p`. A link out of bounds is
never followed. -/
def leadsBack (a : Arena) (link : Nat) (back : Links → Nat) (p : Nat) : Except Fault Bool := do
  if ← a.linkInBounds link then
    let links ← a.links link
    return back links == p
  else return false

/-- What is wrong with the node at `p`, which has the given links. -/
def nodeViolations (a : Arena) (p : Nat) (links : Links) : Except Fault (List Violation) := do
  let node ← a.isNode p
  let nextOk ← a.leadsBack links.next Links.prev p
  let prevOk ← a.leadsBack links.prev Links.next p
  let tag : List Violation := if node then [] else [.listedBlockAllocated p]
  let sides : List Violation := if nextOk && prevOk then [] else [.linkMismatch p]
  return tag ++ sides

/-- Where a link leads, before anything there is read. -/
def destination (a : Arena) (link : Nat) : Except Fault Destination :=
  (a.linkInBounds link).map fun inside =>
    if !inside then .outside else if link = prologue then .sentinel else .node

/-- The walk that follows `link`, which the node `source` holds. -/
def ringWalkFrom (a : Arena) (source link : Nat) : (budget : Nat) → Except Fault RingWalk
  | 0 => do
    match ← a.destination link with
    | .outside => return ⟨[], [.linkOutOfBounds source link]⟩
    | .sentinel => return ⟨[], []⟩
    -- One node more than there is room for.
    | .node => return ⟨[link], [.listNotClosed (a.ringLimit + 1)]⟩
  | budget + 1 => do
    match ← a.destination link with
    | .outside => return ⟨[], [.linkOutOfBounds source link]⟩
    | .sentinel => return ⟨[], []⟩
    | .node =>
      let links ← a.links link
      let found ← a.nodeViolations link links
      let rest ← a.ringWalkFrom link links.next budget
      return rest.cons link found

def ringWalk (a : Arena) : Except Fault RingWalk := do
  let links ← a.links prologue
  a.ringWalkFrom prologue links.next a.ringLimit

end Arena

end BoundaryHeap
