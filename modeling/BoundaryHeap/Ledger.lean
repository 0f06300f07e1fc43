import BoundaryHeap.Heap.Access

/-!
# The ledger of live blocks

A user of a heap can keep a ledger of the blocks it holds. Each block is stamped with a pattern
over the bytes that were asked for, so that the ledger can tell later whether a block lost its
contents, and whether two blocks overlap. No pattern is zero, so a stamped block never looks like
fresh bytes (`Ledger.patternAfter_ne_zero`).

## What the entries stand for

The entries of a ledger stand for an `IndexMap` of the library `indexmap`, with payloads as keys and
what is recorded of a block as values. That library is not part of this development. **It is assumed
to do what it documents,** and no more than this of it is used:

* keys are distinct, and the entries have an order, in which they are numbered from zero;
* `insert` puts a new key behind all others, and tells whether a key was there before;
* `swap_remove` takes a key out, and the last entry moves into the gap;
* `get_index` finds the entry with a number;
* iteration and `drain` follow the order.

A list is enough for that. `Ledger.adopt` appends to it and faults where `insert` would have met a key
that is there, so no payload comes twice; `Ledger.forget` is `Slots.vacate` at the place of the key,
and `Ledger.pick` looks into a slot.
-/

set_option autoImplicit false

namespace BoundaryHeap

/-! ## Rows of slots

A row from which things are taken out in any order: the last one moves into the gap, so that the row
stays without gaps. Who takes out the last one leaves no gap at all. -/

namespace Slots

variable {α : Type}

/-- The row without the thing in slot `i`. -/
def vacate (xs : List α) (i : Nat) : List α :=
  match xs.getLast? with
  | some last => (xs.set i last).dropLast
  | none => []

/-- Slot numbers wrap around the row. -/
def wrapped? (xs : List α) (i : Nat) : Option α :=
  xs[i % xs.length]?

private theorem set_perm_cons {xs : List α} {i : Nat} (h : i < xs.length) (a : α) :
    (xs.set i a).Perm (a :: xs.eraseIdx i) := by
  induction xs generalizing i with
  | nil => simp at h
  | cons x rest ih =>
    cases i with
    | zero => simp
    | succ i =>
      have inner := ih (i := i) (by simpa using h)
      exact (inner.cons x).trans (List.Perm.swap a x _)

/-- The row keeps everything else. -/
theorem vacate_perm_eraseIdx {xs : List α} {i : Nat} (h : i < xs.length) :
    (vacate xs i).Perm (xs.eraseIdx i) := by
  rcases List.eq_nil_or_concat xs with rfl | ⟨front, last, rfl⟩
  · simp at h
  rw [List.length_concat] at h
  simp only [List.concat_eq_append, vacate, List.getLast?_concat]
  by_cases inner : i < front.length
  · rw [List.set_append_left _ _ inner, List.dropLast_concat, List.eraseIdx_append_of_lt_length inner]
    exact (set_perm_cons inner last).trans (List.perm_append_singleton ..).symm
  · obtain rfl : i = front.length := by omega
    simp [List.set_append_right, List.eraseIdx_append_of_length_le]

end Slots

/-! ## The ledger -/

/-- A live block, the bytes that were asked for, and the pattern they were stamped with. -/
structure Entry where
  payload : Nat
  requested : Nat
  pattern : UInt8
deriving DecidableEq

/-- The live blocks, and the pattern that was used last. -/
structure Ledger where
  entries : List Entry := []
  lastPattern : UInt8 := 0
deriving DecidableEq

namespace Ledger

/-- The pattern after `b`: the next byte, with zero left out. -/
def patternAfter (b : UInt8) : UInt8 :=
  if b + 1 = 0 then 1 else b + 1

theorem patternAfter_ne_zero (b : UInt8) : patternAfter b ≠ 0 := by
  unfold patternAfter
  split
  · decide
  · assumption

def indexOf? (ledger : Ledger) (p : Nat) : Option Nat :=
  ledger.entries.findIdx? (·.payload == p)

/-! ## Overlaps -/

/-- The usable bytes of the recorded blocks, as pairs of first and end offset. -/
def spans (ledger : Ledger) (heap : Heap) : Except Fault (List (Nat × Nat)) :=
  ledger.entries.mapM fun e => do
    return (e.payload, ← addOffset e.payload (← heap.usableSize e.payload))

/-- By first offset, and then by end. -/
def spanLe (x y : Nat × Nat) : Bool :=
  x.1 < y.1 || (x.1 == y.1 && x.2 ≤ y.2)

/-- The first two neighbours in a row of spans that share a byte. -/
def firstOverlap? : List (Nat × Nat) → Option ((Nat × Nat) × (Nat × Nat))
  | x :: y :: rest => if x.2 ≤ y.1 then firstOverlap? (y :: rest) else some (x, y)
  | _ => none

/-- Insist that no two recorded blocks overlap. Only neighbours in the sorted row are compared,
which is enough because no span ends before it starts. -/
def requireDisjoint (ledger : Ledger) (heap : Heap) : Except Fault Unit := do
  let row := (← ledger.spans heap).mergeSort spanLe
  match firstOverlap? row with
  | some (x, y) => throw (.overlap x.1 x.2 y.1 y.2)
  | none => return ()

/-! ## Entries -/

/-- Record a block that was just handed out for `requested` bytes, and stamp these. -/
def adopt (ledger : Ledger) (heap : Heap) (p : Nat) (requested : Nat) :
    Except Fault (Ledger × Heap) := do
  if p % alignment ≠ 0 then throw (.misalignedPayload p)
  let usable ← heap.usableSize p
  if usable < requested then throw (.tooSmall p usable requested)
  let pattern := patternAfter ledger.lastPattern
  -- Stamping comes before the question whether the block is recorded already.
  let heap ← heap.stamp p requested pattern
  if (ledger.indexOf? p).isSome then throw (.handedOutTwice p)
  let ledger : Ledger := ⟨ledger.entries ++ [⟨p, requested, pattern⟩], pattern⟩
  ledger.requireDisjoint heap
  return (ledger, heap)

/-- Strike a block out. The answer is its entry, if it had one. -/
def forget (ledger : Ledger) (p : Nat) : Option Entry × Ledger :=
  match ledger.indexOf? p with
  | none => (none, ledger)
  | some i => (ledger.entries[i]?, { ledger with entries := Slots.vacate ledger.entries i })

/-- The entry in a slot; slot numbers wrap around. -/
def pick (ledger : Ledger) (i : Nat) : Option Entry :=
  Slots.wrapped? ledger.entries i

/-- Strike everything out. The answer is the blocks in their order. -/
def drain (ledger : Ledger) : List Nat × Ledger :=
  (ledger.entries.map (·.payload), { ledger with entries := [] })

/-! ## Contents -/

/-- Insist that a block still holds its pattern. -/
def verifyEntry (heap : Heap) (e : Entry) : Except Fault Unit := do
  let bytes ← heap.contents e.payload
  if bytes.size < e.requested then throw .outOfBounds
  let stamped := bytes.extract 0 e.requested
  match stamped.findFinIdx? (· != e.pattern) with
  | some i => throw (.clobbered e.payload i.val stamped[i.val] e.pattern)
  | none => return ()

def verify (ledger : Ledger) (heap : Heap) : Except Fault Unit :=
  ledger.entries.forM (verifyEntry heap)

end Ledger

end BoundaryHeap
