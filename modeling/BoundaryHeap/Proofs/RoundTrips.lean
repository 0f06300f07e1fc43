import BoundaryHeap.Proofs.Grants
import BoundaryHeap.Proofs.Releases

/-!
# Handed out and given back at once

A block that comes straight back finds what it was cut from: the rest of it is still free behind it,
and the block before it is allocated, as no two free blocks touched when it was cut. So the map is
the one it was cut from, **except that its block is searched first now**
(`WellFormed.release_carve`).

Everything else follows from that one word, *first*. The same request finds the same block, cuts it
the same way and leaves the same map behind when it is given back, so a round trip is a fixed point
of itself from the second one on (`Recurs`), and only the first one can grow the heap.
-/

set_option autoImplicit false

namespace BoundaryHeap

variable {settings : Settings} {history : List Turn} {heap mid next : Heap} {live : List Nat}
  {m m' : BlockMap} {c : Cell} {p n size count : Nat}

/-! ## Round trips on the map -/

namespace BlockMap

/-- The map with the block at an offset searched first. -/
def promote (m : BlockMap) (p : Nat) : BlockMap :=
  ⟨m.cells, p :: m.ring.filter (· ≠ p)⟩

theorem promote_promote (m : BlockMap) (p : Nat) : (m.promote p).promote p = m.promote p := by
  simp [promote, List.filter_filter]

/-- Maps with one mark and the same allocated blocks have the same row. -/
theorem WellFormed.cells_congr (h : m.WellFormed) (h' : m'.WellFormed) (hbrk : m'.brk = m.brk)
    (hmem : ∀ c, c.allocated = true → (c ∈ m'.cells ↔ c ∈ m.cells)) : m'.cells = m.cells := by
  have hrow := h'.row
  rw [hbrk] at hrow
  exact hrow.unique h.row h'.joined h.joined hmem

/-- The blocks are back as they were: what was handed out was free, and is free again. -/
theorem WellFormed.cells_release_carve (h : m.WellFormed) (hc : c ∈ m.cells)
    (hfree : c.allocated = false) (hmin : 32 ≤ size) (hmod : size % 16 = 0) :
    ((m.carve c.offset size).release c.offset).cells = m.cells := by
  obtain ⟨hwf, hbrk⟩ := h.carve hc hfree hmin hmod
  have hhanded : handed c size ∈ (m.carve c.offset size).cells := h.handed_mem hc hfree
  obtain ⟨hwf', hbrk'⟩ := hwf.release hhanded
  rw [handed_offset] at hwf' hbrk'
  refine h.cells_congr hwf' (hbrk'.trans hbrk) fun d hda => ?_
  have hstep := hwf.allocated_release hhanded (d := d)
  rw [h.allocated_carve hc hfree, handed_offset] at hstep
  simp only [hda, and_true] at hstep
  rw [hstep]
  constructor
  · rintro ⟨hd | rfl, hne⟩
    · exact hd
    · exact absurd rfl hne
  · intro hd
    exact ⟨.inl hd, (h.offset_ne hd hda hc hfree).symm⟩

/-- Outside the span of a block, carving it leaves the nodes in place. -/
theorem WellFormed.ring_carve_outside (h : m.WellFormed) (hc : c ∈ m.cells) :
    (m.carve c.offset size).ring.filter (fun q => q < c.offset || c.offset + c.size ≤ q) =
      m.ring.filter (· ≠ c.offset) := by
  have hcm := h.mem hc
  have houtside : ∀ q ∈ m.ring, q ≠ c.offset → q < c.offset ∨ c.offset + c.size ≤ q :=
    fun _ => h.other_node_outside hc
  rw [h.carve_eq hc]
  split
  · next hsplit =>
    -- The rest stands in for the block, and is dropped as the block itself is in the other case.
    have hkept : m.ring.filter ((fun q => q < c.offset || c.offset + c.size ≤ q) ∘
        fun q => if q = c.offset then c.offset + size else q) = m.ring.filter (· ≠ c.offset) := by
      refine List.filter_congr fun q hq => ?_
      by_cases heq : q = c.offset
      · simp [heq]
        omega
      · simpa [heq] using houtside q hq heq
    rw [List.filter_map, hkept]
    refine (List.map_congr_left fun q hq => if_neg ?_).trans (List.map_id _)
    simpa using (List.mem_filter.1 hq).2
  · rw [List.filter_filter]
    refine List.filter_congr fun q hq => ?_
    by_cases heq : q = c.offset
    · simp [heq]
    · simpa [heq] using houtside q hq heq

/-- **Giving back what was just cut off a block only moves the block to the front.** -/
theorem WellFormed.release_carve (h : m.WellFormed) (hc : c ∈ m.cells)
    (hfree : c.allocated = false) (hmin : 32 ≤ size) (hmod : size % 16 = 0) :
    (m.carve c.offset size).release c.offset = m.promote c.offset := by
  have hcells := h.cells_release_carve hc hfree hmin hmod
  obtain ⟨hwf, -⟩ := h.carve hc hfree hmin hmod
  have hhanded : handed c size ∈ (m.carve c.offset size).cells := h.handed_mem hc hfree
  have hring : (m.carve c.offset size).ring.filter _ = _ := h.ring_carve_outside hc
  have hpos := (hwf.mem hhanded).2.2.1
  obtain ⟨hspan, -, -, hlo, hhi, -⟩ := hwf.span hhanded
  rw [handed_offset] at hspan hlo hhi
  generalize (m.carve c.offset size).startBefore c.offset = lo at hspan hlo
  generalize (m.carve c.offset size).stopAfter (c.offset + (handed c size).size) = hi at hspan hhi
  -- The merged block is one of the blocks there were, and it has the offset of the old one inside.
  have hmerged : ⟨lo, hi - lo, false⟩ ∈ m.cells := by
    rw [← hcells, hspan, mem_free_cells]
    exact .inr (.inl rfl)
  obtain rfl : c = ⟨lo, hi - lo, false⟩ := by
    apply (h.row.apart hc hmerged).resolve_right
    have := h.mem hc
    simp only
    omega
  rw [promote, ← hcells, hspan, BlockMap.free, ← hring]
  have hsum : lo + (hi - lo) = hi := by omega
  simp only [hsum]

/-! ## After a growth -/

/-- Growing appends the new bytes as a free block, and makes it one with a free last block. -/
theorem WellFormed.cells_grow (h : m.WellFormed) (hcount : 32 ≤ count) (hmod : count % 16 = 0) :
    (m.grow count).2.cells = joinFree (m.cells ++ [⟨m.brk, count, false⟩]) := by
  obtain ⟨hwf, hbrk, -, halloc⟩ := h.grow hcount hmod
  have hrow := hwf.row
  rw [hbrk] at hrow
  have hnew : Row m.brk [⟨m.brk, count, false⟩] (m.brk + count) := ⟨rfl, hcount, hmod, rfl⟩
  refine hrow.unique (row_joinFree (h.row.append hnew)) hwf.joined (joined_joinFree _) ?_
  intro c hca
  have hsame := halloc c
  simp only [hca, and_true] at hsame
  rw [hsame, mem_joinFree hca, List.mem_append, List.mem_singleton]
  constructor
  · exact .inl
  · rintro (hc | rfl)
    · exact hc
    · cases hca

/-- The grown block is searched first, and the last block before it is searched no more. -/
theorem WellFormed.ring_grow (h : m.WellFormed) :
    (m.grow count).2.ring = (m.grow count).1 :: m.ring.filter (· ≠ (m.grow count).1) := by
  show m.startBefore m.brk ::
      m.ring.filter (fun q => q < m.startBefore m.brk || m.brk + count ≤ q) =
    m.startBefore m.brk :: m.ring.filter (· ≠ m.startBefore m.brk)
  refine congrArg _ (List.filter_congr fun q hq => ?_)
  obtain ⟨d, hd, rfl, -⟩ := (h.mem_ring q).1 hq
  have hdm := h.mem hd
  have hbelow : d.offset < m.brk := by omega
  have hend : ¬ m.brk + count ≤ d.offset := by omega
  have hbefore := h.before_iff hq hbelow
  cases hfind : m.freeBefore m.brk with
  | none =>
    rw [startBefore_of_none hfind]
    simp [hbelow, Nat.ne_of_lt hbelow]
  | some e =>
    rw [hfind, startBefore_of_some hfind] at hbefore
    rw [startBefore_of_some hfind, Bool.eq_iff_iff]
    simpa [hend] using hbefore.symm

theorem WellFormed.promote_grow (h : m.WellFormed) :
    (m.grow count).2.promote (m.grow count).1 = (m.grow count).2 := by
  have hring : (m.grow count).2.ring = _ := h.ring_grow
  rw [promote, hring, List.filter_cons_of_neg (by simp), List.filter_filter]
  simp only [Bool.and_self, ← hring]

/-! ## Asking again -/

/-- The block that is searched first is handed out if it is long enough. -/
theorem WellFormed.allocate_first (h : m.WellFormed) (hc : c ∈ m.cells)
    (hfirst : m.ring.head? = some c.offset) (hadj : adjustedSize n = some size)
    (hfit : size ≤ c.size) : m.allocate settings n = (some c.offset, m.carve c.offset size) := by
  obtain ⟨rest, hring⟩ := List.head?_eq_some_iff.1 hfirst
  have hfound : m.firstFit size = some c.offset := by
    rw [firstFit, hring, List.find?_cons_of_pos]
    rw [h.sizeAt_eq hc]
    exact decide_eq_true hfit
  simp only [BlockMap.allocate, hadj, BlockMap.findBlock, hfound]

theorem WellFormed.promote (h : m.WellFormed) (hc : c ∈ m.cells) (hfree : c.allocated = false) :
    (m.promote c.offset).WellFormed := by
  refine ⟨h.row, h.merged, List.nodup_cons.2 ⟨by simp, h.nodup.filter _⟩, fun p => ?_⟩
  show p ∈ c.offset :: m.ring.filter (· ≠ c.offset) ↔ _
  rw [List.mem_cons, List.mem_filter, h.mem_ring]
  by_cases heq : p = c.offset
  · simp only [heq, true_or, true_iff]
    exact ⟨c, hc, rfl, hfree⟩
  · rw [decide_eq_true heq, and_iff_left rfl, or_iff_right heq]
    rfl

/-- A request for `n` bytes gets the block at `p` and does not grow the map, and giving the block
back makes the map what it was. -/
structure Recurs (settings : Settings) (m : BlockMap) (n p : Nat) : Prop where
  brk_eq : (m.allocate settings n).2.brk = m.brk
  answer_eq : (m.allocate settings n).1 = some p
  live : (m.allocate settings n).2.Live p
  release_eq : (m.allocate settings n).2.release p = m

theorem WellFormed.recurs_promote (h : m.WellFormed) (hc : c ∈ m.cells)
    (hfree : c.allocated = false) (hadj : adjustedSize n = some size) (hfit : size ≤ c.size) :
    (m.promote c.offset).Recurs settings n c.offset := by
  obtain ⟨hmin, hmod, -, -⟩ := adjustedSize_bounds hadj
  have h' := h.promote hc hfree
  have hall : (m.promote c.offset).allocate settings n = _ :=
    h'.allocate_first hc rfl hadj hfit
  refine ⟨?_, ?_, ?_, ?_⟩
  · rw [hall]
    exact (h'.carve hc hfree hmin hmod).2
  · rw [hall]
  · rw [hall]
    exact ⟨_, h'.handed_mem hc hfree, rfl, rfl⟩
  · rw [hall, h'.release_carve hc hfree hmin hmod, promote_promote]

/-- What a map is after its block at `p` was handed out, which made it `m'`, and was given back. -/
structure Restored (m m' last : BlockMap) (p : Nat) : Prop where
  brk_eq : last.brk = m'.brk
  cells_eq : m'.brk = m.brk → last.cells = m.cells
  /-- What the map grew by is appended, and made one with a free last block. -/
  grown : m'.brk ≠ m.brk → last.cells = joinFree (m.cells ++ [⟨m.brk, m'.brk - m.brk, false⟩])
  ring_eq : last.ring = p :: m.ring.filter (· ≠ p)

/-- **A round trip restores the map,** and after it the map recurs. -/
theorem WellFormed.roundTrip (h : m.WellFormed) (hvalid : settings.Valid)
    (hall : m.allocate settings n = (some p, m')) :
    m.Restored m' (m'.release p) p ∧ (m'.release p).Recurs settings n p := by
  obtain ⟨size, m₁, hadj, hfind, rfl⟩ := allocate_eq_some_iff.1 hall
  obtain ⟨hmin, hmod, -, -⟩ := adjustedSize_bounds hadj
  obtain ⟨hwf, -, ⟨c, hc, rfl, hfree, hfit⟩, -⟩ := h.findBlock hvalid hfind
  obtain ⟨-, hbrk⟩ := hwf.carve hc hfree hmin hmod
  rw [hwf.release_carve hc hfree hmin hmod]
  refine ⟨?_, hwf.recurs_promote hc hfree hadj hfit⟩
  rcases h.findBlock_eq_some hfind with ⟨-, rfl⟩ | ⟨-, count, hcount, -, hgrow⟩
  · exact ⟨hbrk.symm, fun _ => rfl, fun hne => absurd hbrk hne, rfl⟩
  · obtain ⟨-, hchunk, hcmod, -⟩ := extensionSize_eq_some hcount
    have hcmin := Nat.le_trans hvalid.chunk_ge hchunk
    have hoff : c.offset = (m.grow count).1 := congrArg Prod.fst hgrow
    obtain rfl : m₁ = (m.grow count).2 := congrArg Prod.snd hgrow
    have hgrown := (h.grow hcmin hcmod).2.1
    rw [hoff] at hbrk ⊢
    rw [h.promote_grow]
    refine ⟨hbrk.symm, fun heq => by omega, fun _ => ?_, h.ring_grow⟩
    rw [h.cells_grow hcmin hcmod, hbrk, hgrown, Nat.add_sub_cancel_left]

end BlockMap

/-! ## Round trips of a heap -/

namespace Heap

/-- Ask for `n` bytes and give back at once what came of it, `count` times. Each time the answer is
noted, and the mark that the heap has then. -/
def churn (heap : Heap) (n : Nat) : (count : Nat) → Traced (List (Option Nat × Nat) × Heap)
  | 0 => pure ([], heap)
  | count + 1 => do
    let (answer, mid) ← heap.allocate n
    let next ← mid.release answer
    let (notes, last) ← next.churn n count
    return ((answer, mid.arena.brk) :: notes, last)

/-- Where the map recurs, every turn is like the first. -/
theorem Models.churn_spec (h : heap.Models m) (hrecurs : m.Recurs heap.settings n p) (count : Nat) :
    ∃ last, (heap.churn n count).result =
        .ok (List.replicate count (some p, heap.arena.brk), last) ∧ last.Models m := by
  induction count generalizing heap with
  | zero => exact ⟨heap, rfl, h⟩
  | succ count ih =>
    obtain ⟨mid, hmid, hset, hmodels, -⟩ := h.allocate_spec n
    obtain ⟨next, hnext, hset', hmodels', -⟩ := hmodels.release_spec hrecurs.live
    rw [hrecurs.answer_eq] at hmid
    rw [hrecurs.release_eq] at hmodels'
    have hbrk : mid.arena.brk = heap.arena.brk := by
      rw [hmodels.represents.brk_eq, hrecurs.brk_eq, h.represents.brk_eq]
    have hbrk' : next.arena.brk = heap.arena.brk := by
      rw [hmodels'.represents.brk_eq, h.represents.brk_eq]
    obtain ⟨last, hlast, hmodels''⟩ := ih hmodels' (by rw [hset', hset]; exact hrecurs)
    refine ⟨last, ?_, hmodels''⟩
    simp only [churn, hmid, hnext, hlast, hbrk, hbrk', Traced.result_bind, Traced.result_pure,
      ok_bind, List.replicate_succ]

/-- What a heap is after its block at `p` was handed out, which made it `mid`, and was given back:
the blocks and the free ones, in the order of the search, are those there were before, and every
block that was live then has its contents. -/
structure Restored (heap : Heap) (live : List Nat) (p : Nat) (mid next : Heap) : Prop where
  brk_le : heap.arena.brk ≤ mid.arena.brk
  brk_eq : next.arena.brk = mid.arena.brk
  blocks_eq : ∃ blocks restored, heap.blocks = .ok blocks ∧ next.blocks = .ok restored ∧
    (mid.arena.brk = heap.arena.brk → restored = blocks) ∧
    (mid.arena.brk ≠ heap.arena.brk → restored.map Block.cell = joinFree (blocks.map Block.cell ++
      [⟨heap.arena.brk, mid.arena.brk - heap.arena.brk, false⟩])) ∧
    ∃ b ∈ restored, b.payload = p ∧ b.tag.isFree = true
  nodes_eq : ∃ ring, heap.arena.nodes = .ok ring ∧
    next.arena.nodes = .ok (p :: ring.filter (· ≠ p))
  contents_eq : ∀ q ∈ live, ∃ data, heap.contents q = .ok data ∧ next.contents q = .ok data

theorem Models.restored {last : BlockMap} (h : heap.Models m) (hmid : mid.Models m')
    (hnext : next.Models last) (hle : m.brk ≤ m'.brk) (hrestored : m.Restored m' last p)
    (hcontents : ∀ q ∈ live, ∃ data, heap.contents q = .ok data ∧ next.contents q = .ok data) :
    heap.Restored live p mid next := by
  have hbrk := h.represents.brk_eq
  have hbrk' := hmid.represents.brk_eq
  refine ⟨by omega, ?_, ?_, ⟨m.ring, h.represents.nodes_eq, ?_⟩, hcontents⟩
  · rw [hnext.represents.brk_eq, hbrk', hrestored.brk_eq]
  · obtain ⟨blocks, hblocks, hcells⟩ := h.represents.blocks_eq
    obtain ⟨restored, hrest, hcells'⟩ := hnext.represents.blocks_eq
    refine ⟨blocks, restored, hblocks, hrest, fun heq => ?_, fun hne => ?_, ?_⟩
    · apply Block.eq_of_cells
      rw [hcells, hcells', hrestored.cells_eq (by omega)]
    · rw [hcells, hcells', hrestored.grown (by omega), hbrk, hbrk']
    · have hnode : p ∈ last.ring := by
        rw [hrestored.ring_eq]
        exact List.mem_cons_self
      obtain ⟨c, hc, rfl, hfree⟩ := (hnext.represents.wellFormed.mem_ring p).1 hnode
      rw [← hcells'] at hc
      obtain ⟨b, hb, rfl⟩ := List.mem_map.1 hc
      exact ⟨b, hb, rfl, by simpa [Tag.isFree, Block.cell] using hfree⟩
  · rw [hnext.represents.nodes_eq, hrestored.ring_eq]

/-- The two requests of a round trip, and what they do to heap, map and handles. -/
theorem Tracks.roundTrip (h : Tracks settings heap live m)
    (htaken : (heap.allocate n).result = .ok (some p, mid)) :
    ∃ next last, (mid.release (some p)).result = .ok next ∧ next.Models last ∧
      next.settings = heap.settings ∧ heap.Restored live p mid next ∧
      last.Recurs heap.settings n p := by
  obtain ⟨m', hall⟩ : ∃ m', m.allocate settings n = (some p, m') := by
    obtain ⟨mid', hmid, -⟩ := h.models.allocate_spec n
    obtain ⟨hanswer, -⟩ := Prod.mk.inj (Except.ok.inj (hmid.symm.trans htaken))
    exact ⟨_, Prod.ext (h.settings_eq ▸ hanswer) rfl⟩
  obtain ⟨size, -, hadj, -⟩ := BlockMap.allocate_eq_some_iff.1 hall
  have hlegal : (Request.allocate n).Legal heap live := by
    have := BlockMap.adjustedSize_bounds hadj
    show n < wordLimit
    simp only [wordLimit]
    omega
  have hvalid : settings.Valid := h.settings_eq ▸ h.models.valid
  have hperform : (m.perform settings (.allocate n)).2 = m' := congrArg Prod.snd hall
  obtain ⟨-, htracks, hstep, -⟩ := h.done hlegal htaken
  rw [hperform] at htracks hstep
  have hheld : p ∈ (Request.allocate n).liveAfter live (some p) := List.mem_cons_self
  obtain ⟨next, hnext, hset, hmodels, -⟩ :=
    htracks.models.release_spec ((htracks.live_iff p).1 hheld)
  have hlegal' : (Request.release (some p)).Legal mid _ := Request.legal_release hheld
  obtain ⟨hrestored, hrecurs⟩ := h.wellFormed.roundTrip hvalid hall
  rw [← h.settings_eq] at hrecurs
  refine ⟨next, _, hnext, hmodels, ?_, ?_, hrecurs⟩
  · rw [hset, htracks.settings_eq, h.settings_eq]
  · refine h.models.restored htracks.models hmodels hstep.brk_le hrestored fun q hq => ?_
    have hne : q ≠ p := by
      rintro rfl
      exact (hstep.fresh q rfl).1 ((h.live_iff q).1 hq)
    have hfirst := h.spared_live hlegal htaken hq (by simp [Request.spent, Request.returned])
    have hsecond := htracks.spared_live hlegal' (perform_release hnext) hfirst.1
      (by simpa [Request.spent, Request.returned] using hne.symm)
    obtain ⟨c, hc, rfl, hca⟩ := (h.live_iff q).1 hq
    exact ⟨_, h.models.contents_eq hc hca,
      (hsecond.2.trans hfirst.2).trans (h.models.contents_eq hc hca)⟩

/-- **A release undoes the allocation right before it.** The blocks are those from before, with the
new bytes appended as free if the heap had to grow; the block is searched first, and the other free
blocks in their old order after it; nobody else loses a byte. The same request then gets the same
block again and the mark stays, and so it goes on for any number of round trips: each gets the block
at `p`, and the mark is where the first one left it. -/
theorem reached_roundTrip (reached : Reached settings history heap live)
    (htaken : (heap.allocate n).result = .ok (some p, mid)) :
    ∃ next, (mid.release (some p)).result = .ok next ∧ heap.Restored live p mid next ∧
      (∃ again, (next.allocate n).result = .ok (some p, again) ∧
        again.arena.brk = next.arena.brk) ∧
      ∀ count, ∃ last, (heap.churn n count).result =
        .ok (List.replicate count (some p, mid.arena.brk), last) := by
  obtain ⟨-, -, htracks⟩ := reached.tracks
  obtain ⟨next, m, hnext, hmodels, hset, hrestored, hrecurs⟩ := htracks.roundTrip htaken
  rw [← hset] at hrecurs
  refine ⟨next, hnext, hrestored, ?_, fun count => ?_⟩
  · obtain ⟨again, hagain, -, hmodels', -⟩ := hmodels.allocate_spec n
    rw [hrecurs.answer_eq] at hagain
    refine ⟨again, hagain, ?_⟩
    rw [hmodels'.represents.brk_eq, hrecurs.brk_eq, hmodels.represents.brk_eq]
  · cases count with
    | zero => exact ⟨heap, rfl⟩
    | succ count =>
      obtain ⟨last, hlast, -⟩ := hmodels.churn_spec hrecurs count
      refine ⟨last, ?_⟩
      simp only [churn, htaken, hnext, hlast, hrestored.brk_eq, Traced.result_bind,
        Traced.result_pure, ok_bind, List.replicate_succ]

/-- A block that the heap has to grow for, behind an allocated one: it starts at the old mark, and
the second round trip is the first that finds it free. -/
theorem reached_roundTrip_small : ∃ history heap mid next last,
    Reached ⟨256, 64, .strict⟩ history heap [48] ∧
      (heap.allocate 100).result = .ok (some 112, mid) ∧
      (mid.release (some 112)).result = .ok next ∧ heap.Restored [48] 112 mid next ∧
      (heap.churn 100 3).result = .ok (List.replicate 3 (some 112, mid.arena.brk), last) := by
  obtain ⟨history, heap, hrequests, hreached⟩ :=
    exists_reached ⟨256, 64, .strict⟩ (by constructor <;> decide) (by decide) (by decide)
      [.allocate 20] (by decide)
  obtain ⟨-, -, htracks⟩ := hreached.tracks
  rw [hrequests] at htracks
  obtain ⟨mid, hmid, -⟩ := htracks.models.allocate_spec 100
  rw [htracks.settings_eq] at hmid
  have htaken : (heap.allocate 100).result = .ok (some 112, mid) := hmid
  obtain ⟨next, hnext, hrestored, -, hchurn⟩ := reached_roundTrip hreached htaken
  obtain ⟨last, hlast⟩ := hchurn 3
  exact ⟨history, heap, mid, next, last, hreached, htaken, hnext, hrestored, hlast⟩

end Heap
end BoundaryHeap
