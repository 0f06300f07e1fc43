import BoundaryHeap.Fault
import BoundaryHeap.Window

/-!
# Arenas

An arena is a run of bytes that only grows. Its end, the mark `brk`, moves up to a ceiling that is
reserved when the arena is made, and new bytes are zero. All bytes below the mark can be read and
written; every other access is a fault.

The type carries what all operations keep: the mark does not pass the ceiling, and the ceiling is
below `2 ^ 63`, so that no sum of two offsets inside an arena leaves the range of a word.
-/

set_option autoImplicit false

namespace BoundaryHeap

/-- The bytes handed out so far and the ceiling they may grow to. -/
structure Arena where
  bytes : ByteArray
  reserved : Nat
  size_le_reserved : bytes.size ≤ reserved
  reserved_lt : reserved < 0x8000000000000000

namespace Arena

/-- The ceiling of an arena that nothing else is said of. -/
def defaultReserved : Nat := 4 * 1024 * 1024

/-- Ceilings are multiples of this. -/
def granule : Nat := 16

def refusal? (reserved : Nat) : Option ArenaError :=
  if reserved = 0 then some (.invalidConfig "reserved_bytes must be nonzero")
  else if reserved % granule ≠ 0 then
    some (.invalidConfig s!"reserved_bytes must be a multiple of {granule} (got {reserved})")
  else none

def empty (reserved : Nat) (reserved_lt : reserved < 0x8000000000000000) : Arena where
  bytes := ByteArray.empty
  reserved := reserved
  size_le_reserved := Nat.zero_le _
  reserved_lt := reserved_lt

/-- The mark: the number of bytes handed out, and the offset after the last of them. -/
def brk (a : Arena) : Nat :=
  a.bytes.size

def remaining (a : Arena) : Nat :=
  a.reserved - a.brk

/-- The offset of the first byte, whether or not it is handed out yet. -/
def lowest (_ : Arena) : Nat := 0

/-- The offset of the last byte, if there is one. -/
def highest? (a : Arena) : Option Nat :=
  if a.brk = 0 then none else some (a.brk - 1)

/-! ## Reading -/

def window (a : Arena) (start count : Nat) : Except Fault ByteArray :=
  if start + count ≤ a.brk then .ok (a.bytes.extract start (start + count)) else .error .outOfBounds

def readWord (a : Arena) (offset : Nat) : Except Fault UInt64 :=
  if h : offset + wordSize ≤ a.brk then
    .ok (UInt64.ofNat (Window.number a.bytes offset wordSize h))
  else .error .outOfBounds

def readOffset (a : Arena) (offset : Nat) : Except Fault Nat :=
  (a.readWord offset).map UInt64.toNat

/-! ## Writing -/

def write (a : Arena) (start : Nat) (data : ByteArray) : Except Fault Arena :=
  match a with
  | ⟨bytes, reserved, size_le, reserved_lt⟩ =>
    if h : start + data.size ≤ bytes.size then
      .ok ⟨Window.splice bytes start data, reserved, by rwa [Window.size_splice h], reserved_lt⟩
    else .error .outOfBounds

def writeWord (a : Arena) (offset : Nat) (w : UInt64) : Except Fault Arena :=
  a.write offset (Window.digits wordSize w.toNat).toByteArray

def writeOffset (a : Arena) (offset value : Nat) : Except Fault Arena :=
  a.writeWord offset (UInt64.ofNat value)

/-- Copy a window to another place. The two may overlap: what arrives is what was there before. -/
def copyWithin (a : Arena) (source target count : Nat) : Except Fault Arena := do
  let data ← a.window source count
  a.write target data

/-! ## Growing -/

/-- Move the mark up by `increment`. The answer is the mark before, or why it was not moved. -/
def extend (a : Arena) (increment : Int) : Except ArenaError Nat × Arena :=
  match increment with
  | .negSucc _ => (.error (.negativeIncrement increment), a)
  | .ofNat count =>
    match a with
    | ⟨bytes, reserved, size_le, reserved_lt⟩ =>
      if h : count ≤ reserved - bytes.size then
        (.ok bytes.size,
          ⟨Window.pad bytes 0 count, reserved, by rw [Window.size_pad]; omega, reserved_lt⟩)
      else (.error (.exhausted count (reserved - bytes.size)), ⟨bytes, reserved, size_le, reserved_lt⟩)

end Arena

end BoundaryHeap
