import BoundaryHeap.Ledger
import BoundaryHeap.Workload.Step

/-!
# Replaying a workload

A workload is replayed on a heap with a row of the live blocks. Requests that the heap cannot meet
are passed over, and so are steps that name a slot while nothing is live.

It can also be taken by a client that keeps a ledger of the blocks it holds. What it is handed it
adopts, what it gives back it forgets first, and a block that moved has to bring the old pattern
along, as far as it fits. **Every check of the ledger is a fault here,** so a heap that does its work
never stops such a client.

The other heap that is made here for measurements alternates: many blocks of one size, of which
every other one was released again.
-/

set_option autoImplicit false

namespace BoundaryHeap

namespace Step

/-! ## With a row of live blocks -/

/-- Take one step. The row of live blocks comes back with the heap. -/
def replay (step : Step) (live : List Nat) (heap : Heap) : Traced (List Nat × Heap) :=
  match step with
  | allocate size => do
    match ← heap.allocate size with
    | (some p, heap) => return (live ++ [p], heap)
    | (none, heap) => return (live, heap)
  | release slot =>
    match Slots.wrapped? live slot with
    | none => pure (live, heap)
    | some p => do
      return (Slots.vacate live (slot % live.length), ← heap.releaseBlock p)
  | resize slot size =>
    match Slots.wrapped? live slot with
    | none => pure (live, heap)
    | some p => do
      match ← heap.resize (some p) size with
      | (some q, heap) => return (live.set (slot % live.length) q, heap)
      | (none, heap) => return (live, heap)

/-- Take some steps, from the given row of live blocks on. -/
def replayFrom (live : List Nat) (heap : Heap) :
    List Step → Traced (List Nat × Heap)
  | [] => pure (live, heap)
  | step :: rest => do
    let (live, heap) ← step.replay live heap
    replayFrom live heap rest

/-- Take some steps on a heap nobody holds blocks of. The answer is the blocks still live. -/
def replayAll (steps : List Step) (heap : Heap) : Traced (List Nat × Heap) :=
  replayFrom [] heap steps

/-! ## With a ledger -/

/-- Take one step and keep the ledger. A move that cannot be met leaves the old block recorded. -/
def record (step : Step) (ledger : Ledger) (heap : Heap) : Traced (Ledger × Heap) :=
  match step with
  | allocate size => do
    match ← heap.allocate size with
    | (some p, heap) => ledger.adopt heap p size
    | (none, heap) => return (ledger, heap)
  | release slot =>
    match ledger.pick slot with
    | none => pure (ledger, heap)
    | some e => do
      return ((ledger.forget e.payload).2, ← heap.releaseBlock e.payload)
  | resize slot size =>
    match ledger.pick slot with
    | none => pure (ledger, heap)
    | some e => do
      match ← heap.resize (some e.payload) size with
      | (some q, heap) =>
        Ledger.verifyEntry heap ⟨q, min size e.requested, e.pattern⟩
        (ledger.forget e.payload).2.adopt heap q size
      | (none, heap) => return (if size = 0 then (ledger.forget e.payload).2 else ledger, heap)

def recordFrom (ledger : Ledger) (heap : Heap) : List Step → Traced (Ledger × Heap)
  | [] => pure (ledger, heap)
  | step :: rest => do
    let (ledger, heap) ← step.record ledger heap
    recordFrom ledger heap rest

/-- Take some steps on a heap nobody holds blocks of, and keep a ledger of it. -/
def recordAll (steps : List Step) (heap : Heap) : Traced (Ledger × Heap) :=
  recordFrom {} heap steps

end Step

/-! ## Alternating heaps -/

namespace Heap

/-- Make `count` requests of `size` bytes. The answer is the blocks that were handed out. -/
def allocateMany (heap : Heap) (size : Nat) : (count : Nat) → Traced (List Nat × Heap)
  | 0 => pure ([], heap)
  | count + 1 => do
    let (handle, heap) ← heap.allocate size
    (heap.allocateMany size count).map fun (ps, heap) => (handle.toList ++ ps, heap)

/-- Release the first of some blocks, and then every other one. -/
def releaseAlternate (heap : Heap) : List Nat → Traced Heap
  | [] => pure heap
  | [p] => heap.releaseBlock p
  | p :: _ :: rest => do
    let heap ← heap.releaseBlock p
    heap.releaseAlternate rest

/-- A heap with `count` blocks of `size` bytes, of which every other one is free again. -/
def createFragmented (count size : Nat) : Traced (Except HeapError Heap) := do
  match ← create { reserved := 64 * 1024 * 1024 } with
  | .error e => return .error e
  | .ok heap =>
    let (ps, heap) ← heap.allocateMany size count
    return .ok (← heap.releaseAlternate ps)

end Heap

end BoundaryHeap
