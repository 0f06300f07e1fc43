import BoundaryHeap.Arena.Basic
import BoundaryHeap.Traced

/-!
# The life of an arena

Making an arena, extending it and giving it up, each with the event that tells of it. A ceiling is
checked before anything is told, and told before the reservation is attempted.

In between, the arena is extended, by any number, and bytes below its mark are written, one word or
many, or copied. Only an extension answers anything. **A run is any sequence of changes that do not
fault,** and `Arena.Reached` keeps each of them with its answer.
-/

set_option autoImplicit false

namespace BoundaryHeap.Arena

/-! ## Observed operations -/

/-- Make an arena. A ceiling from `2 ^ 63` up is more than an address space can hold. -/
def reserve (reserved : Nat) : Traced (Except ArenaError Arena) :=
  match refusal? reserved with
  | some e => pure (.error e)
  | none => do
    Traced.emit (.arenaReserved reserved)
    if h : reserved < 0x8000000000000000 then return .ok (empty reserved h)
    else Traced.fault (.capacityOverflow reserved)

/-- Extend an arena. A refused extension is not told. -/
def grow (a : Arena) (increment : Int) : Traced (Except ArenaError Nat × Arena) :=
  match a.extend increment with
  | (.ok oldBrk, a) => do
    Traced.emit (.arenaExtended oldBrk a.brk)
    return (.ok oldBrk, a)
  | (.error e, a) => pure (.error e, a)

/-- Give an arena up. The answer is its final mark. -/
def release (a : Arena) : Traced Nat := do
  Traced.emit (.arenaReleased a.brk a.reserved)
  return a.brk

/-! ## Runs -/

inductive Change where
  | extend (increment : Int)
  | writeWord (offset : Nat) (w : UInt64)
  | write (start : Nat) (data : ByteArray)
  | copyWithin (source target count : Nat)

namespace Change

/-- All that is to be read or written lies below the mark. -/
def Fits (a : Arena) : Change → Prop
  | extend _ => True
  | writeWord offset _ => offset + wordSize ≤ a.brk
  | write start data => start + data.size ≤ a.brk
  | copyWithin source target count => source + count ≤ a.brk ∧ target + count ≤ a.brk

/-- Make the change. The answer of an extension is the mark before, or why it was refused. -/
def perform (a : Arena) : Change → Traced (Option (Except ArenaError Nat) × Arena)
  | extend increment => do
    let (answer, a) ← a.grow increment
    return (some answer, a)
  | writeWord offset w => do return (none, ← a.writeWord offset w)
  | write start data => do return (none, ← a.write start data)
  | copyWithin source target count => do return (none, ← a.copyWithin source target count)

end Change

/-- A change that was made, and what it answered. -/
structure Record where
  change : Change
  answer : Option (Except ArenaError Nat)

/-- The increment of an extension that was granted. -/
def Record.granted (r : Record) : Int :=
  match r.change, r.answer with
  | .extend increment, some (.ok _) => increment
  | _, _ => 0

/-- The increments granted so far, in all. -/
def granted : List Record → Int
  | [] => 0
  | r :: history => r.granted + granted history

/-- The history of an arena of the given ceiling since it was reserved, and the arena after it. -/
inductive Reached (reserved : Nat) : List Record → Arena → Prop
  | reserve {a : Arena} : (Arena.reserve reserved).result = .ok (.ok a) → Reached reserved [] a
  | step {history : List Record} {a b : Arena} {change : Change}
      {answer : Option (Except ArenaError Nat)} :
    Reached reserved history a → (change.perform a).result = .ok (answer, b) →
    Reached reserved (history ++ [⟨change, answer⟩]) b

end BoundaryHeap.Arena
