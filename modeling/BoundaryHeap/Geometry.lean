/-!
# Geometry of the heap

Sizes and places are byte counts and byte offsets, as natural numbers. What a machine word cannot
hold is a question of its own: `wordLimit` is the first such number, and the size rules below
answer `none` from there on.

**A block is named by the offset of its payload,** one word above its header. Such an offset is the
handle that users of a heap hold.

The heap starts with a padding word and the prologue block, and ends with a lone header, the
epilogue:

    offset 0   padding word
    offset 8   prologue header   32, allocated
    offset 16  prologue payload  the two links of the free ring's sentinel
    offset 32  prologue footer   32, allocated
    offset 40  epilogue header   0, allocated
    offset 48  payload of the first block, once the heap has grown
-/

set_option autoImplicit false

namespace BoundaryHeap

/-- The first number that a word cannot hold: two to the power of 64. -/
@[simp] abbrev wordLimit : Nat := 0x10000000000000000

/-- Bytes in a word: a header, a footer or a link. -/
@[simp] abbrev wordSize : Nat := 8

/-- Payloads and block sizes are multiples of this. -/
@[simp] abbrev alignment : Nat := 16

/-- Bytes of a block that its header and footer take. -/
@[simp] abbrev tagOverhead : Nat := 2 * wordSize

/-- The smallest block that can stand alone: two tags and two links. -/
@[simp] abbrev minBlockSize : Nat := 2 * alignment

/-- The prologue is a block of the smallest size. -/
@[simp] abbrev prologueSize : Nat := minBlockSize

/-- Padding word, prologue and epilogue header: the heap before it first grows. -/
@[simp] abbrev initialHeapSize : Nat := wordSize + prologueSize + wordSize

/-- Bytes of any heap that belong to no block between the sentinels. -/
@[simp] abbrev sentinelOverhead : Nat := initialHeapSize

/-- The payload of the prologue, which is also the sentinel of the free ring. -/
@[simp] abbrev prologue : Nat := 2 * wordSize

/-- The payload of the first block between the sentinels. -/
@[simp] abbrev firstPayload : Nat := prologue + prologueSize

def wordSum? (a b : Nat) : Option Nat :=
  if a + b < wordLimit then some (a + b) else none

/-- The least multiple of 16 from `n` up, by way of the sum `n + 15`. -/
def alignUp (n : Nat) : Option Nat :=
  (wordSum? n (alignment - 1)).map fun m => m / alignment * alignment

/-- Size of the block that serves a request of `n` bytes: tags included, a multiple of 16, and
never below the smallest block. A request of nothing has none. -/
def adjustedSize (n : Nat) : Option Nat :=
  if n = 0 then none
  else if n ≤ alignment then some minBlockSize
  else (alignUp n).bind fun m => wordSum? m tagOverhead

/-- Bytes by which the heap grows for a block of `adjusted` bytes: at least one `chunk`. -/
def extensionSize (adjusted chunk : Nat) : Option Nat :=
  alignUp (max adjusted chunk)

/-- Payload bytes in a block of `size` bytes; none if the tags do not even fit. -/
def usableSize (size : Nat) : Nat :=
  size - tagOverhead

/-! ## What the rules give, in closed form -/

theorem wordSum?_eq_some_iff {a b m : Nat} :
    wordSum? a b = some m ↔ a + b < 0x10000000000000000 ∧ m = a + b := by
  unfold wordSum?
  split
  · next h => exact ⟨fun e => ⟨h, (Option.some.inj e).symm⟩, fun e => e.2 ▸ rfl⟩
  · next h => exact ⟨(by cases ·), fun e => absurd e.1 h⟩

theorem alignUp_eq_some_iff {n m : Nat} :
    alignUp n = some m ↔ n + 15 < 0x10000000000000000 ∧ m = (n + 15) / 16 * 16 := by
  simp only [alignUp, Option.map_eq_some_iff, wordSum?_eq_some_iff, alignment]
  constructor
  · rintro ⟨_, ⟨h, rfl⟩, rfl⟩; exact ⟨h, rfl⟩
  · rintro ⟨h, rfl⟩; exact ⟨_, ⟨h, rfl⟩, rfl⟩

theorem adjustedSize_zero : adjustedSize 0 = none := rfl

theorem adjustedSize_eq_some_iff {n m : Nat} :
    adjustedSize n = some m ↔
      0 < n ∧ (n + 15) / 16 * 16 + 16 < 0x10000000000000000 ∧
        m = max 32 ((n + 15) / 16 * 16 + 16) := by
  rcases Nat.eq_zero_or_pos n with rfl | pos
  · simp [adjustedSize_zero]
  rw [adjustedSize, if_neg (by omega)]
  by_cases small : n ≤ 16
  · rw [alignment, if_pos small, minBlockSize, alignment, Option.some.injEq]; omega
  · rw [alignment, if_neg small]
    simp only [Option.bind_eq_some_iff, alignUp_eq_some_iff, wordSum?_eq_some_iff, tagOverhead,
      wordSize]
    constructor
    · rintro ⟨_, ⟨_, rfl⟩, h, rfl⟩; omega
    · rintro ⟨_, h, rfl⟩; exact ⟨_, ⟨by omega, rfl⟩, by omega, by omega⟩

end BoundaryHeap
