/-!
# Boundary tags

Every block opens and closes with the same word, its tag: the block's size, and whether it is
allocated. Sizes are multiples of 16, so the low four bits of the word are free for flags. One is
used, three are reserved: nothing sets them, and a reader ignores them.

A `Tag` is what such a word can mean and nothing more: the size is a multiple of 16 and fits into
a word by its type. **Writing a tag and reading it gives the tag back** (`decode_encode`), and
reading a word and writing it clears the reserved bits (`encode_decode`).
-/

set_option autoImplicit false

namespace BoundaryHeap

/-- The size of a block, tags included, and whether it is allocated. -/
structure Tag where
  size : Nat
  allocated : Bool
  size_mod : size % 16 = 0
  size_lt : size < 0x10000000000000000
deriving DecidableEq

namespace Tag

def allocatedBit : UInt64 := 0x1

/-- The bits of a tag word that mean nothing. -/
def reservedMask : UInt64 := 0xE

/-- The bits of a tag word that hold the size. -/
def sizeMask : UInt64 := 0xFFFFFFFFFFFFFFF0

/-- The header that ends the heap: a block of no bytes that can never be merged with. -/
def epilogue : Tag := ⟨0, true, by decide, by decide⟩

/-- Both tags of the prologue. -/
def sentinel : Tag := ⟨32, true, by decide, by decide⟩

def isFree (t : Tag) : Bool := !t.allocated

@[ext] theorem ext' {s t : Tag} (size : s.size = t.size) (allocated : s.allocated = t.allocated) :
    s = t := by
  cases s; cases t; simp_all

/-- The tag of the given size, if there is one. -/
def ofSize? (size : Nat) (allocated : Bool) : Option Tag :=
  if h : size % 16 = 0 ∧ size < 0x10000000000000000 then some ⟨size, allocated, h.1, h.2⟩ else none

theorem ofSize?_eq_some_iff {size : Nat} {allocated : Bool} {t : Tag} :
    ofSize? size allocated = some t ↔ t.size = size ∧ t.allocated = allocated := by
  constructor
  · intro h
    unfold ofSize? at h
    split at h
    · cases h; exact ⟨rfl, rfl⟩
    · cases h
  · rintro ⟨rfl, rfl⟩
    exact dif_pos ⟨t.size_mod, t.size_lt⟩

/-! ## The word of a tag -/

/-- The size, with the flag in the lowest bit, which no size uses. -/
def encode (t : Tag) : UInt64 :=
  UInt64.ofNat (t.size + t.allocated.toNat)

theorem toNat_encode (t : Tag) : t.encode.toNat = t.size + t.allocated.toNat := by
  have bound := t.size_lt
  have aligned := t.size_mod
  have flag := t.allocated.toNat_le
  rw [encode, UInt64.toNat_ofNat', Nat.mod_eq_of_lt]
  omega

/-- The size bits of a word, as a number. -/
theorem toNat_and_sizeMask (w : UInt64) : (w &&& sizeMask).toNat = w.toNat / 16 * 16 := by
  have mask : sizeMask.toNat = (2 ^ 60 - 1) <<< 4 := by decide
  have bound := w.toNat_lt
  rw [UInt64.toNat_and, mask]
  have shift : w.toNat / 16 * 16 = (w.toNat >>> 4) <<< 4 := by
    rw [Nat.shiftRight_eq_div_pow, Nat.shiftLeft_eq]
  rw [shift]
  apply Nat.eq_of_testBit_eq
  intro i
  simp only [Nat.testBit_and, Nat.testBit_shiftLeft, Nat.testBit_shiftRight,
    Nat.testBit_two_pow_sub_one]
  by_cases low : 4 ≤ i
  · have back : 4 + (i - 4) = i := by omega
    simp only [low, decide_true, Bool.true_and, back]
    by_cases high : i - 4 < 60
    · simp [high]
    · have clear : w.toNat.testBit i = false :=
        Nat.testBit_lt_two_pow (Nat.lt_of_lt_of_le bound (Nat.pow_le_pow_right (by decide) (by omega)))
      simp [clear]
  · simp [low]

/-- What a word means as a tag. The reserved bits are ignored. -/
def decode (w : UInt64) : Tag where
  size := (w &&& sizeMask).toNat
  allocated := w &&& allocatedBit != 0
  size_mod := by rw [toNat_and_sizeMask]; omega
  size_lt := (w &&& sizeMask).toNat_lt

theorem size_decode (w : UInt64) : (decode w).size = w.toNat / 16 * 16 :=
  toNat_and_sizeMask w

theorem allocated_decode (w : UInt64) : (decode w).allocated = decide (w.toNat % 2 = 1) := by
  have bit : (w &&& allocatedBit).toNat = w.toNat % 2 := by
    rw [UInt64.toNat_and]; exact Nat.and_one_is_mod _
  have zero : w &&& allocatedBit = 0 ↔ w.toNat % 2 = 0 := by
    rw [← UInt64.toNat_inj, bit]; rfl
  by_cases odd : w.toNat % 2 = 1
  · simp [decode, zero, odd]
  · simp [decode, zero, odd]; omega

/-- Writing a tag and reading it gives the tag back. -/
@[simp] theorem decode_encode (t : Tag) : decode t.encode = t := by
  have aligned := t.size_mod
  have flag := t.allocated.toNat_le
  ext
  · rw [size_decode, toNat_encode]; omega
  · rw [allocated_decode, toNat_encode]
    cases t.allocated <;> simp <;> omega

/-- Reading a word and writing it clears the reserved bits and keeps the others. -/
theorem encode_decode (w : UInt64) : (decode w).encode = w &&& ~~~reservedMask := by
  have masks : (~~~reservedMask).toNat = sizeMask.toNat ||| allocatedBit.toNat := by decide
  have size := toNat_and_sizeMask w
  have flag : w.toNat &&& allocatedBit.toNat = w.toNat % 2 := Nat.and_one_is_mod _
  have join : w.toNat / 16 * 16 + w.toNat % 2 = w.toNat / 16 * 16 ||| w.toNat % 2 := by
    have := Nat.shiftLeft_add_eq_or_of_lt (i := 4) (b := w.toNat % 2) (by omega) (w.toNat / 16)
    simpa only [Nat.shiftLeft_eq] using this
  rw [UInt64.toNat_and] at size
  rw [← UInt64.toNat_inj, toNat_encode, size_decode, allocated_decode, UInt64.toNat_and, masks,
    Nat.and_or_distrib_left, size, flag, ← join]
  by_cases odd : w.toNat % 2 = 1
  · simp [odd]
  · simp [odd]; omega

/-! ## The text of a tag -/

/-- The size and the letter `a` or `f`, in brackets. -/
def text (t : Tag) : String :=
  s!"[{t.size}:" ++ (if t.allocated then "a]" else "f]")

end Tag
end BoundaryHeap
