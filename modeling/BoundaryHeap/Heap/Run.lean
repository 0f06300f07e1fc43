import BoundaryHeap.Heap.Access

/-!
# Legal runs

What users of a heap may ask for, and what they hold afterwards. A handle is live from the request
that returned it until it is released or moved, and a request is legal if every handle in it is
live. **A run is any sequence of legal requests to a new heap,** in any order and with any sizes that
a word can hold. `Heap.Reached` keeps each request with what came of it.
-/

set_option autoImplicit false

namespace BoundaryHeap

inductive Request where
  | allocate (n : Nat)
  | release (handle : Option Nat)
  | resize (handle : Option Nat) (n : Nat)
  | store (p position : Nat) (data : ByteArray)

namespace Request

/-- The request names live blocks only, asks for a size that a word can hold, and writes inside
its block. -/
def Legal (heap : Heap) (live : List Nat) : Request → Prop
  | allocate n => n < wordLimit
  | release handle => ∀ p ∈ handle, p ∈ live
  | resize handle n => (∀ p ∈ handle, p ∈ live) ∧ n < wordLimit
  | store p position data =>
    p ∈ live ∧ ∃ size, heap.writableSize p = .ok size ∧ position + data.size ≤ size

/-- Do what is asked. The answer is the handle that it gives, if any. -/
def perform (heap : Heap) : Request → Traced (Option Nat × Heap)
  | allocate n => heap.allocate n
  | release handle => do return (none, ← heap.release handle)
  | resize handle n => heap.resize handle n
  | store p position data => do
    let (_, heap) ← heap.store p position data
    return (none, heap)

/-- What a user holds afterwards. -/
def liveAfter (live : List Nat) (answer : Option Nat) : Request → List Nat
  | allocate _ => answer.toList ++ live
  | release handle => live.filter fun p => some p ≠ handle
  | resize handle n =>
    if answer.isSome ∨ n = 0 then answer.toList ++ live.filter fun p => some p ≠ handle else live
  | store _ _ _ => live

end Request

/-- A request that was made, and what came of it. -/
structure Turn where
  request : Request
  answer : Option Nat
  /-- The bytes by which the heap grew. -/
  growth : Nat

/-- The history of a new heap of these settings, the heap after it, and what its user then holds. -/
inductive Heap.Reached (settings : Settings) : List Turn → Heap → List Nat → Prop
  | create {heap : Heap} :
    (Heap.create settings).result = .ok (.ok heap) → Reached settings [] heap []
  | step {history : List Turn} {heap next : Heap} {live : List Nat} {request : Request}
      {answer : Option Nat} :
    Reached settings history heap live → request.Legal heap live →
    (request.perform heap).result = .ok (answer, next) →
    Reached settings (history ++ [⟨request, answer, next.arena.brk - heap.arena.brk⟩]) next
      (request.liveAfter live answer)

end BoundaryHeap
