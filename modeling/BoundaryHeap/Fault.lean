import BoundaryHeap.Geometry
import BoundaryHeap.Violation

/-!
# Faults and refusals

A handle that was never issued, or a block written past its end, can leave any bytes in the heap.
The operations then do not guess: a step that would read outside the arena, leave the range of a
word or break a rule it relies on stops with a `Fault`. **A fault is never an answer of the
allocator.**

What an arena or a heap can decline to do is something else: the caller asked for more than there is,
or for a configuration that cannot work. Such a refusal is reported by the types of the operations
themselves, and leaves everything as it was.
-/

set_option autoImplicit false

namespace BoundaryHeap

/-! ## Refusals -/

/-- Why an arena was not made or not extended. -/
inductive ArenaError where
  | negativeIncrement (increment : Int)
  /-- More bytes were asked for than are still reserved. -/
  | exhausted (requested remaining : Nat)
  /-- The reservation itself is not acceptable. -/
  | invalidConfig (reason : String)
deriving DecidableEq

def ArenaError.text : ArenaError → String
  | negativeIncrement increment => s!"arena cannot shrink: increment {increment}"
  | exhausted requested remaining =>
    s!"arena exhausted: requested {requested} bytes, {remaining} bytes remaining"
  | invalidConfig reason => "invalid arena config: " ++ reason

/-- Why a heap was not made. -/
inductive HeapError where
  | arena (cause : ArenaError)
  /-- The heap's own settings are not acceptable. -/
  | invalidConfig (reason : String)
deriving DecidableEq

def HeapError.text : HeapError → String
  | arena cause => "arena error: " ++ cause.text
  | invalidConfig reason => "invalid engine config: " ++ reason

/-- The refusal underneath, if there is one. -/
def HeapError.source? : HeapError → Option ArenaError
  | arena cause => some cause
  | invalidConfig _ => none

/-! ## Faults -/

/-- Why a step stopped. -/
inductive Fault where
  /-- A sum or difference of offsets is not a word. -/
  | arithmetic
  | outOfBounds
  /-- A tag was asked for with a size that is not a multiple of 16. -/
  | misalignedSize (size : Nat)
  /-- An arena larger than an address space can be. -/
  | capacityOverflow (reserved : Nat)
  /-- A grown heap does not end where its epilogue was put. -/
  | epilogueMisplaced (epilogue brk : Nat)
  /-- A handle to be recorded is not a multiple of 16. -/
  | misalignedPayload (p : Nat)
  /-- The free ring never comes back to its sentinel. -/
  | endlessRing
  /-- The audit found a violation in strict mode. -/
  | checkFailed (first : Violation)
  /-- An allocated block was used as a node of the free ring. -/
  | allocatedNode (p : Nat)
  | readOfFree (p : Nat)
  | writeToFree (p : Nat)
  | tooSmall (p : Nat) (usable requested : Nat)
  | handedOutTwice (p : Nat)
  /-- A byte of a recorded block lost the pattern it was stamped with. -/
  | clobbered (p : Nat) (position : Nat) (found expected : UInt8)
  | overlap (start stop start' stop' : Nat)
deriving DecidableEq

/-- The wording of the faults that the allocator describes itself. The others say only that an
access or a number was out of range. -/
def Fault.message? : Fault → Option String
  | arithmetic | outOfBounds | misalignedSize _ | capacityOverflow _ | epilogueMisplaced _ _
  | misalignedPayload _ | endlessRing => none
  | checkFailed first => some ("heap check failed: " ++ first.text)
  | allocatedNode p => some ("block " ++ Text.handle p ++ " used as free-list node while allocated")
  | readOfFree p => some ("read of free block " ++ Text.handle p)
  | writeToFree p => some ("write to free block " ++ Text.handle p)
  | tooSmall p usable requested =>
    some ("payload " ++ Text.handle p ++ s!" has {usable} usable bytes, asked for {requested}")
  | handedOutTwice p => some ("payload " ++ Text.handle p ++ " handed out twice")
  | clobbered p position found expected =>
    some ("payload " ++ Text.handle p ++ s!" byte {position} is " ++ Text.hexPadded 2 found.toNat ++
      ", expected " ++ Text.hexPadded 2 expected.toNat)
  | overlap start stop start' stop' =>
    some ("live blocks overlap: " ++ Text.hex start ++ ".." ++ Text.hex stop ++ " and " ++
      Text.hex start' ++ ".." ++ Text.hex stop')

/-! ## Arithmetic on words -/

/-- The sum of two offsets, which has to be a word. -/
def addOffset (a b : Nat) : Except Fault Nat :=
  if a + b < wordLimit then .ok (a + b) else .error .arithmetic

/-- The difference of two offsets, which has to be one. -/
def subOffset (a b : Nat) : Except Fault Nat :=
  if b ≤ a then .ok (a - b) else .error .arithmetic

theorem addOffset_of_lt {a b : Nat} (h : a + b < 0x10000000000000000) :
    addOffset a b = .ok (a + b) :=
  if_pos h

theorem subOffset_of_le {a b : Nat} (h : b ≤ a) : subOffset a b = .ok (a - b) :=
  if_pos h

/-- The tag of the given size, which has to be a multiple of 16. -/
def Tag.ofSize (size : Nat) (allocated : Bool) : Except Fault Tag :=
  match Tag.ofSize? size allocated with
  | some t => .ok t
  | none => .error (.misalignedSize size)

theorem Tag.ofSize_eq_ok_iff {size : Nat} {allocated : Bool} {t : Tag} :
    Tag.ofSize size allocated = .ok t ↔ t.size = size ∧ t.allocated = allocated := by
  rw [← Tag.ofSize?_eq_some_iff, Tag.ofSize]
  cases Tag.ofSize? size allocated <;> simp

end BoundaryHeap
