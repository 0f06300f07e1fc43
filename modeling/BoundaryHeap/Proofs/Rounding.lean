import BoundaryHeap.Geometry
import Mathlib.Order.Bounds.Basic

/-!
# Rounding, up to the last word

The size rules go through sums that a word may not hold: 15 on the way to a multiple of 16, and 16
more for the tags. **Neither sum costs an answer.** Where a rule answers none, no number would have
done; where it answers, no smaller one would (`LeastOf`). So what the rules give can be read off the
sets of numbers that would do, and such a set only shrinks when more is asked for
(`LeastOf.le_of_subset`): sizes grow with requests, and what cannot be served stays so.
-/

set_option autoImplicit false

namespace BoundaryHeap

variable {S T : Set Nat} {answer answer' : Option Nat} {n k m size size' chunk count : Nat}

/-! ## Least numbers -/

/-- The answer is the least number of the set, and none only if there is none. -/
def LeastOf (S : Set Nat) : Option Nat → Prop
  | some m => IsLeast S m
  | none => S = ∅

/-- What to show of a rule: its answers are least, and it has one wherever there is a number. -/
theorem leastOf_of (hleast : ∀ m, answer = some m → IsLeast S m)
    (hserved : ∀ m ∈ S, ∃ k, answer = some k) : LeastOf S answer := by
  cases answer with
  | some m => exact hleast m rfl
  | none =>
    apply Set.eq_empty_of_forall_notMem
    intro m hm
    obtain ⟨k, hk⟩ := hserved m hm
    cases hk

theorem LeastOf.eq_some_iff (h : LeastOf S answer) : answer = some m ↔ IsLeast S m := by
  cases answer with
  | none =>
    have hempty : S = ∅ := h
    simp [hempty, IsLeast]
  | some k =>
    have hleast : IsLeast S k := h
    constructor
    · intro heq
      exact Option.some.inj heq ▸ hleast
    · intro hm
      exact congrArg some (hleast.unique hm)

theorem LeastOf.eq_none_iff (h : LeastOf S answer) : answer = none ↔ S = ∅ := by
  cases answer with
  | none => exact ⟨fun _ => h, fun _ => rfl⟩
  | some m =>
    have hleast : IsLeast S m := h
    constructor
    · intro heq
      cases heq
    · intro hempty
      exact absurd (hempty ▸ hleast.1) (Set.notMem_empty m)

theorem LeastOf.isSome_iff (h : LeastOf S answer) : (∃ m, answer = some m) ↔ S.Nonempty := by
  rw [← Option.ne_none_iff_exists', ne_eq, h.eq_none_iff, ← ne_eq, Set.nonempty_iff_ne_empty]

/-- A set has a number no greater than any of a smaller set. -/
theorem LeastOf.le_of_subset (h : LeastOf S answer) (h' : LeastOf T answer') (hsub : T ⊆ S)
    (heq : answer' = some m) : ∃ k, answer = some k ∧ k ≤ m := by
  have hmem : m ∈ S := hsub (h'.eq_some_iff.1 heq).1
  obtain ⟨k, hk⟩ := h.isSome_iff.2 ⟨m, hmem⟩
  exact ⟨k, hk, (h.eq_some_iff.1 hk).2 hmem⟩

/-! ## Sizes that would do -/

/-- What a block may measure to serve a request of `n` bytes. -/
def servingSizes (n : Nat) : Set Nat :=
  {m | m % alignment = 0 ∧ minBlockSize ≤ m ∧ m < wordLimit ∧ n ≤ usableSize m}

/-- What the heap may grow by for a block of `size` bytes, if it grows by a chunk at least. -/
def coveringSizes (size chunk : Nat) : Set Nat :=
  {m | m % alignment = 0 ∧ size ≤ m ∧ chunk ≤ m ∧ m < wordLimit}

theorem mem_servingSizes :
    m ∈ servingSizes n ↔ m % 16 = 0 ∧ 32 ≤ m ∧ m < 0x10000000000000000 ∧ n + 16 ≤ m := by
  show (m % 16 = 0 ∧ 32 ≤ m ∧ m < 0x10000000000000000 ∧ n ≤ m - 16) ↔ _
  omega

theorem mem_coveringSizes :
    m ∈ coveringSizes size chunk ↔
      m % 16 = 0 ∧ max size chunk ≤ m ∧ m < 0x10000000000000000 := by
  show (m % 16 = 0 ∧ size ≤ m ∧ chunk ≤ m ∧ m < 0x10000000000000000) ↔ _
  omega

theorem servingSizes_subset (hle : k ≤ n) : servingSizes n ⊆ servingSizes k := by
  intro m hm
  rw [mem_servingSizes] at hm ⊢
  exact ⟨hm.1, hm.2.1, hm.2.2.1, Nat.le_trans (Nat.add_le_add_right hle 16) hm.2.2.2⟩

theorem coveringSizes_subset (hle : size' ≤ size) :
    coveringSizes size chunk ⊆ coveringSizes size' chunk := by
  intro m hm
  exact ⟨hm.1, Nat.le_trans hle hm.2.1, hm.2.2⟩

/-! ## The rules -/

/-- No multiple of 16 lies between a number and what it is rounded to. -/
theorem round_le (hmod : m % 16 = 0) (hle : n ≤ m) : (n + 15) / 16 * 16 ≤ m := by
  omega

/-- A size that serves a request has room for the rounded request and the tags. -/
theorem round_add_le_of_mem (hm : m ∈ servingSizes n) : (n + 15) / 16 * 16 + 16 ≤ m := by
  rw [mem_servingSizes] at hm
  have hround : (n + 15) / 16 * 16 ≤ m - 16 := round_le (by omega) (by omega)
  omega

theorem leastOf_extensionSize (size chunk : Nat) :
    LeastOf (coveringSizes size chunk) (extensionSize size chunk) := by
  apply leastOf_of
  · intro count hcount
    obtain ⟨hlt, rfl⟩ := alignUp_eq_some_iff.1 hcount
    constructor
    · rw [mem_coveringSizes]
      omega
    · intro m hm
      rw [mem_coveringSizes] at hm
      exact round_le hm.1 hm.2.1
  · intro m hm
    rw [mem_coveringSizes] at hm
    -- A multiple of 16 that a word holds leaves room for the sum with 15.
    have hsum : max size chunk + 15 < 0x10000000000000000 := by omega
    exact ⟨_, alignUp_eq_some_iff.2 ⟨hsum, rfl⟩⟩

theorem leastOf_adjustedSize (hpos : 0 < n) : LeastOf (servingSizes n) (adjustedSize n) := by
  apply leastOf_of
  · intro size hsize
    obtain ⟨-, hlt, rfl⟩ := adjustedSize_eq_some_iff.1 hsize
    constructor
    · rw [mem_servingSizes]
      omega
    · intro m hm
      exact Nat.max_le.2 ⟨hm.2.1, round_add_le_of_mem hm⟩
  · intro m hm
    have hsum := Nat.lt_of_le_of_lt (round_add_le_of_mem hm) (mem_servingSizes.1 hm).2.2.1
    exact ⟨_, adjustedSize_eq_some_iff.2 ⟨hpos, hsum, rfl⟩⟩

theorem pos_of_adjustedSize (h : adjustedSize n = some size) : 0 < n :=
  (adjustedSize_eq_some_iff.1 h).1

theorem adjustedSize_mono (h : adjustedSize n = some size) (hpos : 0 < k) (hle : k ≤ n) :
    ∃ size', adjustedSize k = some size' ∧ size' ≤ size :=
  (leastOf_adjustedSize hpos).le_of_subset (leastOf_adjustedSize (pos_of_adjustedSize h))
    (servingSizes_subset hle) h

theorem extensionSize_mono (h : extensionSize size chunk = some count) (hle : size' ≤ size) :
    ∃ count', extensionSize size' chunk = some count' ∧ count' ≤ count :=
  (leastOf_extensionSize size' chunk).le_of_subset (leastOf_extensionSize size chunk)
    (coveringSizes_subset hle) h

/-- What serves a request serves it when the heap grows by more. -/
theorem coveringSizes_subset_servingSizes (h : size ∈ servingSizes n) :
    coveringSizes size chunk ⊆ servingSizes n := by
  intro m hm
  rw [mem_coveringSizes] at hm
  rw [mem_servingSizes] at h ⊢
  omega

/-- **Sizes are the least that would do.** A request has a block size if and only if it asks for
something and some size would serve it, and then it is the least such size; so sizes grow with
requests, and a request larger than one that cannot be served cannot be served either. An extension
is the least one that covers the block and the chunk, and is refused if and only if a word holds none;
so a block that the heap grew for can serve the request that it grew for. -/
theorem sizes_least :
    (∀ n, (∃ size, adjustedSize n = some size) ↔ 0 < n ∧ (servingSizes n).Nonempty) ∧
    (∀ n size, adjustedSize n = some size → IsLeast (servingSizes n) size) ∧
    (∀ k n size size', k ≤ n → adjustedSize k = some size → adjustedSize n = some size' →
      size ≤ size') ∧
    (∀ k n, 0 < k → k ≤ n → adjustedSize k = none → adjustedSize n = none) ∧
    (∀ size chunk count,
      extensionSize size chunk = some count ↔ IsLeast (coveringSizes size chunk) count) ∧
    (∀ size chunk, extensionSize size chunk = none ↔ coveringSizes size chunk = ∅) ∧
    ∀ n size chunk count, adjustedSize n = some size → extensionSize size chunk = some count →
      count ∈ servingSizes n := by
  refine ⟨fun n => ⟨?_, ?_⟩, ?_, ?_, ?_, ?_, ?_, ?_⟩
  · rintro ⟨size, hsize⟩
    have hpos := pos_of_adjustedSize hsize
    exact ⟨hpos, (leastOf_adjustedSize hpos).isSome_iff.1 ⟨size, hsize⟩⟩
  · rintro ⟨hpos, hserved⟩
    exact (leastOf_adjustedSize hpos).isSome_iff.2 hserved
  · intro n size hsize
    exact (leastOf_adjustedSize (pos_of_adjustedSize hsize)).eq_some_iff.1 hsize
  · intro k n size size' hle hk hn
    obtain ⟨least, hleast, hbelow⟩ := adjustedSize_mono hn (pos_of_adjustedSize hk) hle
    rw [hk] at hleast
    exact Option.some.inj hleast ▸ hbelow
  · intro k n hpos hle hnone
    have hempty := (leastOf_adjustedSize hpos).eq_none_iff.1 hnone
    have hlarger := leastOf_adjustedSize (Nat.lt_of_lt_of_le hpos hle)
    exact hlarger.eq_none_iff.2 (Set.subset_eq_empty (servingSizes_subset hle) hempty)
  · intro size chunk count
    exact (leastOf_extensionSize size chunk).eq_some_iff
  · intro size chunk
    exact (leastOf_extensionSize size chunk).eq_none_iff
  · intro n size chunk count hsize hcount
    have hserves := (leastOf_adjustedSize (pos_of_adjustedSize hsize)).eq_some_iff.1 hsize
    have hcovers := (leastOf_extensionSize size chunk).eq_some_iff.1 hcount
    exact coveringSizes_subset_servingSizes hserves.1 hcovers.1

/-- The largest request that can be served. -/
example : adjustedSize 0xFFFFFFFFFFFFFFE0 = some 0xFFFFFFFFFFFFFFF0 ∧
    adjustedSize 0xFFFFFFFFFFFFFFE1 = none := by decide

end BoundaryHeap
