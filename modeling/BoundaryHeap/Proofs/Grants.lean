import BoundaryHeap.Proofs.Acceptance
import BoundaryHeap.Proofs.Rounding

/-!
# When a request is met

Whether a request for some bytes gets a block depends on four numbers: the size of the block that
is due, the largest free block, the chunk, and what is left below the ceiling. **The answer can be
told from them before the request is made** (`reached_allocate`), and so can the growth, the place
of a block that had to be grown for, and its length up to the 16 bytes that cannot stand alone. A
request that is refused leaves the heap as it was, but for one counter (`Models.allocate_refused`).
-/

set_option autoImplicit false

namespace BoundaryHeap

variable {settings : Settings} {history : List Turn} {heap next : Heap} {live : List Nat}
  {m m' : BlockMap} {blocks : List Block} {s : HeapStats} {c : Cell}
  {p n k size size' count count' total chunk : Nat}

/-! ## The map -/

namespace BlockMap

/-- Some free block has at least `size` bytes. -/
def Fits (m : BlockMap) (size : Nat) : Prop :=
  ∃ c ∈ m.cells, c.allocated = false ∧ size ≤ c.size

/-- There is room to grow for a block of `size` bytes. -/
def CanGrow (m : BlockMap) (settings : Settings) (size : Nat) : Prop :=
  ∃ count, extensionSize size settings.chunk = some count ∧ m.brk + count ≤ settings.reserved

theorem WellFormed.fits_iff (h : m.WellFormed) : m.Fits size ↔ ∃ p, m.firstFit size = some p := by
  constructor
  · rintro ⟨c, hc, hfree, hle⟩
    have hnode : c.offset ∈ m.ring := (h.mem_ring _).2 ⟨c, hc, rfl, hfree⟩
    cases hfit : m.firstFit size with
    | some p => exact ⟨p, rfl⟩
    | none =>
      have hnot := List.find?_eq_none.1 hfit c.offset hnode
      rw [h.sizeAt_eq hc] at hnot
      exact absurd (decide_eq_true hle) hnot
  · rintro ⟨p, hfit⟩
    obtain ⟨c, hc, -, hfree, hle⟩ := h.firstFit_eq_some hfit
    exact ⟨c, hc, hfree, hle⟩

theorem WellFormed.findBlock_eq_none_iff (h : m.WellFormed) :
    m.findBlock settings size = none ↔ ¬ m.Fits size ∧ ¬ m.CanGrow settings size := by
  rw [h.fits_iff, BlockMap.findBlock]
  cases hfit : m.firstFit size with
  | some p => simp
  | none =>
    simp only [CanGrow, reduceCtorEq, exists_false, not_false_eq_true, true_and,
      Option.bind_eq_none_iff, not_exists, not_and]
    refine forall₂_congr fun count hcount => ?_
    split
    · next hroom => simp [hroom]
    · next hroom => simp [hroom]

/-- A block that is found is there already, or else is the last one, grown. -/
theorem WellFormed.findBlock_eq_some (h : m.WellFormed)
    (hfind : m.findBlock settings size = some (p, m')) :
    (m.Fits size ∧ m' = m) ∨
      (¬ m.Fits size ∧ ∃ count, extensionSize size settings.chunk = some count ∧
        m.brk + count ≤ settings.reserved ∧ (p, m') = m.grow count) := by
  rw [h.fits_iff]
  unfold BlockMap.findBlock at hfind
  cases hfit : m.firstFit size with
  | some q =>
    rw [hfit] at hfind
    exact .inl ⟨⟨q, rfl⟩, (Prod.mk.inj (Option.some.inj hfind)).2.symm⟩
  | none =>
    simp only [hfit, Option.bind_eq_some_iff] at hfind
    obtain ⟨count, hcount, hfind⟩ := hfind
    split at hfind
    · next hroom =>
      refine .inr ⟨by simp, count, hcount, hroom, (Option.some.inj hfind).symm⟩
    · cases hfind

/-- The grown block starts where the last one does if that is free, and at the mark if not. -/
theorem WellFormed.grow_fst (h : m.WellFormed) (hlast : m.cells.getLast? = some c) :
    (m.grow count).1 = if c.allocated then m.brk else c.offset := by
  have hc : c ∈ m.cells := List.mem_of_getLast? hlast
  have hbrk : m.brk = c.offset + c.size := by
    simp only [brk, hlast, Option.map_some, Option.getD_some, Cell.stop]
  have hbefore := h.freeBefore_stop hc
  rw [← hbrk] at hbefore
  show m.startBefore m.brk = _
  split
  · next halloc =>
    rw [if_pos halloc] at hbefore
    exact startBefore_of_none hbefore
  · next hfree =>
    rw [if_neg hfree] at hbefore
    exact startBefore_of_some hbefore

/-- What is too short to stand alone is 16 bytes. -/
theorem size_handed (hmod : size % 16 = 0) (hc : c.size % 16 = 0) (hfit : size ≤ c.size) :
    (handed c size).size = size ∨ (handed c size).size = size + 16 := by
  unfold handed
  simp only
  split <;> omega

theorem allocate_fst_eq_none_iff :
    (m.allocate settings n).1 = none ↔
      ∀ size, adjustedSize n = some size → m.findBlock settings size = none := by
  unfold allocate
  cases hadj : adjustedSize n with
  | none => simp
  | some size =>
    cases hfind : m.findBlock settings size with
    | none => simp [hfind]
    | some found => simp [hfind]

/-- **What a request that is met comes to.** -/
theorem WellFormed.allocate_eq_some (h : m.WellFormed) (hvalid : settings.Valid)
    (hall : m.allocate settings n = (some p, m')) :
    ∃ size, adjustedSize n = some size ∧
      ((m.Fits size ∧ m'.brk = m.brk) ∨
        (¬ m.Fits size ∧ ∃ count, extensionSize size settings.chunk = some count ∧
          m.brk + count ≤ settings.reserved ∧ m'.brk = m.brk + count ∧ p = (m.grow count).1)) ∧
      ∃ c ∈ m'.cells, c.offset = p ∧ c.allocated = true ∧ (c.size = size ∨ c.size = size + 16) := by
  obtain ⟨size, m₁, hadj, hfind, rfl⟩ := allocate_eq_some_iff.1 hall
  obtain ⟨hmin, hmod, -, -⟩ := adjustedSize_bounds hadj
  obtain ⟨hwf, -, ⟨c, hc, rfl, hfree, hfit⟩, -⟩ := h.findBlock hvalid hfind
  obtain ⟨-, hbrk⟩ := hwf.carve hc hfree hmin hmod
  refine ⟨size, hadj, ?_, handed c size, hwf.handed_mem hc hfree, rfl, rfl,
    size_handed hmod (hwf.mem hc).2.2.2.1 hfit⟩
  rw [hbrk]
  rcases h.findBlock_eq_some hfind with ⟨hfits, rfl⟩ | ⟨hfits, count, hcount, hroom, hgrow⟩
  · exact .inl ⟨hfits, rfl⟩
  · obtain ⟨-, hchunk, hcmod, -⟩ := extensionSize_eq_some hcount
    have hgrown := (h.grow (Nat.le_trans hvalid.chunk_ge hchunk) hcmod).2.1
    rw [← hgrow] at hgrown
    refine .inr ⟨hfits, count, hcount, hroom, hgrown, ?_⟩
    rw [← hgrow]

end BlockMap

/-! ## The heap -/

theorem HeapStats.Counts.le_largestFree_iff (h : s.Counts total blocks) (hpos : 0 < size) :
    size ≤ s.largestFree ↔ ∃ b ∈ blocks, b.tag.isFree = true ∧ size ≤ b.tag.size := by
  constructor
  · intro hle
    rcases h.largestFree_eq with hzero | ⟨b, hb, hfree, hsize⟩
    · omega
    · exact ⟨b, hb, hfree, hsize ▸ hle⟩
  · rintro ⟨b, hb, hfree, hle⟩
    exact Nat.le_trans hle (h.largestFree_ge b hb hfree)

/-- The largest free block tells what fits. -/
theorem BlockMap.fits_iff_le (h : s.Counts total blocks) (hcells : blocks.map Block.cell = m.cells)
    (hpos : 0 < size) : m.Fits size ↔ size ≤ s.largestFree := by
  rw [h.le_largestFree_iff hpos, Fits, ← hcells]
  constructor
  · rintro ⟨c, hc, hfree, hle⟩
    obtain ⟨b, hb, rfl⟩ := List.mem_map.1 hc
    exact ⟨b, hb, by simpa [Tag.isFree, Block.cell] using hfree, hle⟩
  · rintro ⟨b, hb, hfree, hle⟩
    exact ⟨b.cell, List.mem_map_of_mem hb, by simpa [Tag.isFree, Block.cell] using hfree, hle⟩

namespace Heap

/-- A request that is refused leaves everything as it was, but for the count of failures. -/
theorem Models.allocate_refused (h : heap.Models m)
    (hnone : (m.allocate heap.settings n).1 = none) :
    (heap.allocate n).result = .ok (none, if n = 0 then heap else heap.countFailure) := by
  rw [BlockMap.allocate_fst_eq_none_iff] at hnone
  by_cases hzero : n = 0
  · subst hzero
    rfl
  rw [if_neg hzero]
  cases hadj : adjustedSize n with
  | none => simp only [allocate, if_neg hzero, hadj, Traced.result_pure]
  | some size =>
    have hspec := h.findBlock_spec size
    rw [hnone size hadj] at hspec
    obtain ⟨e, he⟩ := hspec
    simp only [allocate, if_neg hzero, hadj, he, Traced.result_bind, Traced.result_emit,
      Traced.result_pure, ok_bind]

/-! ## The verdict -/

/-- What tells whether a request for `n` bytes is met: the block that is due fits into the largest
free one, or its chunks fit below the ceiling. -/
def CanGrant (heap : Heap) (stats : HeapStats) (n : Nat) : Prop :=
  0 < n ∧ ∃ size, adjustedSize n = some size ∧
    (size ≤ stats.largestFree ∨ ∃ count, extensionSize size heap.settings.chunk = some count ∧
      count ≤ heap.arena.remaining)

/-- What comes of a request that is met with the block at `p`, where `size` bytes were due. -/
structure Granted (heap : Heap) (stats : HeapStats) (last : Block) (size p : Nat) (next : Heap) :
    Prop where
  brk_eq : size ≤ stats.largestFree → next.arena.brk = heap.arena.brk
  /-- The heap grows by whole chunks, and the new bytes join a free last block. -/
  grown : stats.largestFree < size → ∃ count,
    extensionSize size heap.settings.chunk = some count ∧
      next.arena.brk = heap.arena.brk + count ∧
      p = if last.tag.isFree then last.payload else heap.arena.brk
  header : ∃ tag, next.arena.header p = .ok tag ∧ tag.allocated = true ∧
    (tag.size = size ∨ tag.size = size + 16)

theorem CanGrant.mono (h : heap.CanGrant s n) (hpos : 0 < k) (hle : k ≤ n) :
    heap.CanGrant s k := by
  obtain ⟨-, size, hadj, hroom⟩ := h
  obtain ⟨size', hadj', hle'⟩ := adjustedSize_mono hadj hpos hle
  refine ⟨hpos, size', hadj', ?_⟩
  rcases hroom with hfit | ⟨count, hcount, hroom⟩
  · exact .inl (Nat.le_trans hle' hfit)
  · obtain ⟨count', hcount', hle''⟩ := extensionSize_mono hcount hle'
    exact .inr ⟨count', hcount', Nat.le_trans hle'' hroom⟩

theorem Models.canGrow_iff (h : heap.Models m) :
    m.CanGrow heap.settings size ↔ ∃ count, extensionSize size heap.settings.chunk = some count ∧
      count ≤ heap.arena.remaining := by
  have hbrk := h.represents.brk_eq
  have hres := h.reserved_eq
  have hle := heap.arena.size_le_reserved
  have hrem : ∀ count, m.brk + count ≤ heap.settings.reserved ↔ count ≤ heap.arena.remaining := by
    intro count
    simp only [Arena.remaining, Arena.brk] at hbrk ⊢
    omega
  simp only [BlockMap.CanGrow, hrem]

/-- The map refuses exactly what the four numbers rule out. -/
theorem Models.canGrant_iff (h : heap.Models m) (hcounts : s.Counts total blocks)
    (hcells : blocks.map Block.cell = m.cells) :
    heap.CanGrant s n ↔ (m.allocate heap.settings n).1 ≠ none := by
  have hwf := h.represents.wellFormed
  have hfind : ∀ size, adjustedSize n = some size → (m.findBlock heap.settings size ≠ none ↔
      size ≤ s.largestFree ∨ ∃ count, extensionSize size heap.settings.chunk = some count ∧
        count ≤ heap.arena.remaining) := by
    intro size hadj
    have hmin := (BlockMap.adjustedSize_bounds hadj).1
    rw [ne_eq, hwf.findBlock_eq_none_iff, BlockMap.fits_iff_le hcounts hcells (by omega),
      h.canGrow_iff, not_and_or, not_not, not_not]
  rw [ne_eq, BlockMap.allocate_fst_eq_none_iff]
  constructor
  · rintro ⟨-, size, hadj, hroom⟩ hnone
    exact (hfind size hadj).2 hroom (hnone size hadj)
  · intro hsome
    obtain ⟨size, hadj, hfound⟩ := not_forall₂.1 hsome
    exact ⟨(adjustedSize_eq_some_iff.1 hadj).1, size, hadj, (hfind size hadj).1 hfound⟩

theorem Models.granted {last : Block} (h : heap.Models m) (hcounts : s.Counts total blocks)
    (hcells : blocks.map Block.cell = m.cells) (hlast : blocks.getLast? = some last)
    (hall : m.allocate heap.settings n = (some p, m')) (hnext : next.Models m') :
    ∃ size, adjustedSize n = some size ∧ heap.Granted s last size p next := by
  have hwf := h.represents.wellFormed
  obtain ⟨size, hadj, hbrk, c, hc, rfl, hca, hsize⟩ := hwf.allocate_eq_some h.valid hall
  have hmin := (BlockMap.adjustedSize_bounds hadj).1
  have hlast' : m.cells.getLast? = some last.cell := by
    rw [← hcells, List.getLast?_map, hlast]
    rfl
  obtain ⟨tag, htag, htsize, htalloc⟩ := hnext.represents.header hc
  rw [BlockMap.fits_iff_le hcounts hcells (by omega)] at hbrk
  rw [← h.represents.brk_eq, ← hnext.represents.brk_eq] at hbrk
  refine ⟨size, hadj, ?_, ?_, tag, htag, htalloc.trans hca, htsize ▸ hsize⟩
  · intro hfit
    rcases hbrk with ⟨-, heq⟩ | ⟨hfits, -⟩
    · exact heq
    · exact absurd hfit hfits
  · intro hlt
    rcases hbrk with ⟨hfits, -⟩ | ⟨-, count, hcount, -, heq, hplace⟩
    · omega
    · refine ⟨count, hcount, heq, ?_⟩
      rw [hplace, hwf.grow_fst hlast', h.represents.brk_eq]
      cases halloc : last.tag.allocated with
      | true => simp [Block.cell, Tag.isFree, halloc]
      | false => simp [Block.cell, Tag.isFree, halloc]

theorem Granted.brk_ne_iff {last : Block} (h : heap.Granted s last size p next)
    (hvalid : heap.settings.Valid) :
    next.arena.brk ≠ heap.arena.brk ↔ s.largestFree < size := by
  constructor
  · intro hne
    exact Nat.lt_of_not_le fun hfit => hne (h.brk_eq hfit)
  · intro hlt
    obtain ⟨count, hcount, hbrk, -⟩ := h.grown hlt
    have hchunk := (BlockMap.extensionSize_eq_some hcount).2.1
    have hge := hvalid.chunk_ge
    omega

/-- There is room for a chunk, so there is a block. -/
theorem Models.exists_last (h : heap.Models m) (hroom : 48 + heap.settings.chunk ≤ m.brk)
    (hcells : blocks.map Block.cell = m.cells) : ∃ last, blocks.getLast? = some last := by
  cases hend : blocks.getLast? with
  | some last => exact ⟨last, rfl⟩
  | none =>
    have hchunk := h.valid.chunk_ge
    obtain rfl := List.getLast?_eq_none_iff.1 hend
    have hbrk : m.brk = 48 := by rw [BlockMap.brk, ← hcells]; rfl
    omega

/-- What is met for many bytes is met for fewer. -/
theorem Models.met_of_le (h : heap.Models m) (hcounts : s.Counts total blocks)
    (hcells : blocks.map Block.cell = m.cells)
    (hdone : (heap.allocate n).result = .ok (some p, next)) (hpos : 0 < k) (hle : k ≤ n) :
    ∃ q next', (heap.allocate k).result = .ok (some q, next') := by
  obtain ⟨next', hnext', -⟩ := h.allocate_spec n
  have hsome : (m.allocate heap.settings n).1 = some p :=
    (Prod.mk.inj (Except.ok.inj (hnext'.symm.trans hdone))).1
  have hgrant : heap.CanGrant s n := (h.canGrant_iff hcounts hcells).2 (by simp [hsome])
  have hfewer := (h.canGrant_iff hcounts hcells).1 (hgrant.mono hpos hle)
  obtain ⟨q, hq⟩ := Option.ne_none_iff_exists'.1 hfewer
  obtain ⟨next'', hnext'', -⟩ := h.allocate_spec k
  exact ⟨q, next'', hq ▸ hnext''⟩

/-- **Exactly which requests are met, and what comes of each.** A request is met if the block that
is due is no longer than the largest free one or can be grown for; only in the second case does the
heap grow. A request that is refused changes one counter, and nothing at all if it was for nothing.
So what is met for many bytes is met for fewer. -/
theorem reached_allocate (reached : Reached settings history heap live) :
    ∃ stats blocks last, heap.stats = .ok stats ∧ heap.blocks = .ok blocks ∧
      blocks.getLast? = some last ∧
      (∀ n, ∃ answer next, (heap.allocate n).result = .ok (answer, next) ∧
        (answer.isSome ↔ heap.CanGrant stats n) ∧
        (next.arena.brk ≠ heap.arena.brk ↔
          answer.isSome ∧ ∃ size, adjustedSize n = some size ∧ stats.largestFree < size) ∧
        (∀ p, answer = some p →
          ∃ size, adjustedSize n = some size ∧ heap.Granted stats last size p next) ∧
        (answer = none → next = ⟨heap.arena, heap.settings, { heap.counters with
          failedAllocations := heap.counters.failedAllocations + if 0 < n then 1 else 0 }⟩)) ∧
      ∀ n k p next, (heap.allocate n).result = .ok (some p, next) → 0 < k → k ≤ n →
        ∃ q next', (heap.allocate k).result = .ok (some q, next') := by
  obtain ⟨m, htracks⟩ : ∃ m, Tracks settings heap live m := ⟨_, reached.tracks.2.2⟩
  obtain ⟨hmodels, rfl, hroom, -, -⟩ := htracks
  have hrep := hmodels.represents
  obtain ⟨blocks, hsound, hcells⟩ := hrep.sound
  have hcounts := HeapStats.counts_ofBlocks heap.arena.brk blocks
  obtain ⟨last, hlast⟩ := hmodels.exists_last hroom hcells
  refine ⟨_, blocks, last, hsound.stats_eq, hsound.blocks_eq, hlast, ?_, ?_⟩
  · intro n
    have hgrant := hmodels.canGrant_iff (n := n) hcounts hcells
    cases hall : m.allocate heap.settings n with
    | mk answer m' =>
      rw [hall] at hgrant
      cases answer with
      | none =>
        refine ⟨none, _, hmodels.allocate_refused (congrArg Prod.fst hall), ?_, ?_, ?_, ?_⟩
        · simp [hgrant]
        · split <;> simp [countFailure]
        · simp
        · intro _
          rcases Nat.eq_zero_or_pos n with rfl | hpos
          · rfl
          · rw [if_neg (Nat.ne_of_gt hpos), if_pos hpos]
            rfl
      | some p =>
        obtain ⟨next, hnext, -, hmodels', -⟩ := hmodels.allocate_spec n
        rw [hall] at hnext hmodels'
        obtain ⟨size, hadj, hgranted⟩ := hmodels.granted hcounts hcells hlast hall hmodels'
        refine ⟨some p, next, hnext, ?_, ?_, ?_, by simp⟩
        · simp [hgrant]
        · rw [hgranted.brk_ne_iff hmodels.valid]
          simp [hadj]
        · intro q hq
          obtain rfl := Option.some.inj hq
          exact ⟨size, hadj, hgranted⟩
  · intro n k p next hdone hpos hle
    exact hmodels.met_of_le hcounts hcells hdone hpos hle

/-- A full heap that can still grow by the block for 100 bytes, and so by the one for 20. -/
theorem reached_allocate_small : ∃ history heap next next' q,
    Reached ⟨256, 64, .strict⟩ history heap [48] ∧
      (heap.allocate 100).result = .ok (some 112, next) ∧
      (heap.allocate 20).result = .ok (some q, next') := by
  obtain ⟨history, heap, hrequests, hreached⟩ :=
    exists_reached ⟨256, 64, .strict⟩ (by constructor <;> decide) (by decide) (by decide)
      [.allocate 20] (by decide)
  obtain ⟨-, -, htracks⟩ := hreached.tracks
  rw [hrequests] at htracks
  obtain ⟨next, hnext, -⟩ := htracks.models.allocate_spec 100
  rw [htracks.settings_eq] at hnext
  obtain ⟨-, -, -, -, -, -, -, hfewer⟩ := reached_allocate hreached
  obtain ⟨q, next', hnext'⟩ := hfewer 100 20 112 next hnext (by decide) (by decide)
  exact ⟨history, heap, next, next', q, hreached, hnext, hnext'⟩

end Heap
end BoundaryHeap
