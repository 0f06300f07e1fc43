import BoundaryHeap.Proofs.RoundTrips
import BoundaryHeap.Workload.Replay

/-!
# A stack of holes

Blocks between allocated neighbours merge with nothing when they are released, so each becomes a
hole of its own size, and it is searched before all others. If the holes have the size that a
request needs, up to the 16 bytes that cannot stand alone, **the free blocks in front are a stack**:
the request takes the top one whole, and puts back exactly the map from before it was released
(`WellFormed.allocate_release`). As many requests as there are holes undo all releases, the last one
first, and what else is free is never looked at.
-/

set_option autoImplicit false

namespace BoundaryHeap

variable {settings : Settings} {history : List Turn} {heap x y : Heap} {live ps qs : List Nat}
  {blocks : List Block} {m : BlockMap} {c d : Cell} {cells : List Cell} {p n size : Nat}

/-! ## Isolated blocks -/

/-- One block ends where the other starts. -/
def Cell.Touches (c d : Cell) : Prop :=
  c.offset + c.size = d.offset ∨ d.offset + d.size = c.offset

instance (c d : Cell) : Decidable (c.Touches d) :=
  inferInstanceAs (Decidable (_ ∨ _))

/-- The hole that a block leaves if it merges with nothing. -/
def Cell.freed (c : Cell) : Cell :=
  { c with allocated := false }

/-- The blocks at these offsets are as long as what a request for `n` bytes is given, and whatever
touches one of them is allocated and not one of them. -/
structure Isolated (cells : List Cell) (n : Nat) (ps : List Nat) : Prop where
  fits : ∀ c ∈ cells, c.offset ∈ ps →
    ∃ size, adjustedSize n = some size ∧ (c.size = size ∨ c.size = size + 16)
  walled : ∀ c ∈ cells, ∀ d ∈ cells, c.offset ∈ ps → c.Touches d →
    d.allocated = true ∧ d.offset ∉ ps

theorem Isolated.mono (h : Isolated cells n ps) (hsub : qs ⊆ ps) : Isolated cells n qs :=
  ⟨fun c hc hp => h.fits c hc (hsub hp), fun c hc d hd hp htouch =>
    (h.walled c hc d hd (hsub hp) htouch).imp_right fun hout hq => hout (hsub hq)⟩

/-! ## One hole -/

namespace BlockMap

/-- A block that no free block touches merges with nothing. -/
theorem WellFormed.release_walled (h : m.WellFormed) (hc : c ∈ m.cells)
    (halloc : c.allocated = true) (hwalled : ∀ d ∈ m.cells, c.Touches d → d.allocated = true) :
    m.release c.offset =
      ⟨splice m.cells c.offset (c.offset + c.size) [c.freed], c.offset :: m.ring⟩ := by
  have hbefore : m.freeBefore c.offset = none := by
    rw [Option.eq_none_iff_forall_ne_some]
    intro d hfind
    obtain ⟨hd, hstop, hfree⟩ := freeBefore_eq_some hfind
    simp [hwalled d hd (.inr hstop)] at hfree
  have hafter : m.freeAfter (c.offset + c.size) = none := by
    rw [Option.eq_none_iff_forall_ne_some]
    intro d hfind
    obtain ⟨hd, hoff, hfree⟩ := freeAfter_eq_some hfind
    simp [hwalled d hd (.inl hoff.symm)] at hfree
  have hring : m.ring.filter (fun q => q < c.offset || c.offset + c.size ≤ q) = m.ring := by
    refine List.filter_eq_self.2 fun q hq => ?_
    simpa using h.nodes_outside hc halloc hq
  rw [BlockMap.release, h.sizeAt_eq hc, startBefore_of_none hbefore, stopAfter_of_none hafter,
    BlockMap.free, hring, Nat.add_sub_cancel_left, Cell.freed]

theorem WellFormed.freed_mem_release (h : m.WellFormed) (hc : c ∈ m.cells)
    (halloc : c.allocated = true) (hwalled : ∀ d ∈ m.cells, c.Touches d → d.allocated = true) :
    c.freed ∈ (m.release c.offset).cells := by
  rw [h.release_walled hc halloc hwalled]
  exact mem_splice.2 (.inr (.inl (List.mem_singleton_self _)))

/-- A block that is handed out whole is the block that was released. -/
theorem handed_freed (halloc : c.allocated = true) (hwhole : ¬ size + 32 ≤ c.size) :
    handed c.freed size = c := by
  rw [handed, Cell.freed]
  simp only [if_neg hwhole, ← halloc]

theorem WellFormed.cells_carve_release (h : m.WellFormed) (hc : c ∈ m.cells)
    (halloc : c.allocated = true) (hhole : c.freed ∈ (m.release c.offset).cells) (hmin : 32 ≤ size)
    (hmod : size % 16 = 0) (hwhole : ¬ size + 32 ≤ c.size) :
    ((m.release c.offset).carve c.offset size).cells = m.cells := by
  obtain ⟨hwf, hbrk⟩ := h.release hc
  obtain ⟨hwf', hbrk'⟩ := hwf.carve hhole rfl hmin hmod
  refine h.cells_congr hwf' (hbrk'.trans hbrk) fun d hda => ?_
  have hcarved : (d ∈ ((m.release c.offset).carve c.offset size).cells ∧ d.allocated = true) ↔
      (d ∈ (m.release c.offset).cells ∧ d.allocated = true) ∨ d = handed c.freed size :=
    hwf.allocated_carve (c := c.freed) hhole rfl
  rw [h.allocated_release hc, handed_freed halloc hwhole] at hcarved
  simp only [hda, and_true] at hcarved
  rw [hcarved]
  constructor
  · rintro (⟨hd, -⟩ | rfl)
    · exact hd
    · exact hc
  · intro hd
    by_cases heq : d.offset = c.offset
    · exact .inr (h.row.eq_of_offset hd hc heq)
    · exact .inl ⟨hd, heq⟩

theorem WellFormed.ring_carve_release (h : m.WellFormed) (hc : c ∈ m.cells)
    (halloc : c.allocated = true) (hwalled : ∀ d ∈ m.cells, c.Touches d → d.allocated = true)
    (hwhole : ¬ size + 32 ≤ c.size) :
    ((m.release c.offset).carve c.offset size).ring = m.ring := by
  have hhole := h.freed_mem_release hc halloc hwalled
  have hpos := (h.mem hc).2.2.1
  have hcarved : (m.release c.offset).carve c.offset size = _ :=
    (h.release hc).1.carve_eq (c := c.freed) hhole
  rw [hcarved]
  show (if size + 32 ≤ c.size then _ else _ : List Nat) = m.ring
  rw [if_neg hwhole, h.release_walled hc halloc hwalled,
    List.filter_cons_of_neg (by simp [Cell.freed])]
  refine List.filter_eq_self.2 fun q hq => decide_eq_true ?_
  have hout := h.nodes_outside hc halloc hq
  show q ≠ c.offset
  omega

/-- **The request that a hole fits undoes the release that made it.** -/
theorem WellFormed.allocate_release (h : m.WellFormed) (hc : c ∈ m.cells)
    (halloc : c.allocated = true) (hwalled : ∀ d ∈ m.cells, c.Touches d → d.allocated = true)
    (hadj : adjustedSize n = some size) (hsize : c.size = size ∨ c.size = size + 16) :
    (m.release c.offset).allocate settings n = (some c.offset, m) := by
  obtain ⟨hmin, hmod, -, -⟩ := adjustedSize_bounds hadj
  have hfit : size ≤ c.size := by omega
  have hwhole : ¬ size + 32 ≤ c.size := by omega
  have hhole := h.freed_mem_release hc halloc hwalled
  have hfirst : (m.release c.offset).ring.head? = some c.offset := by
    rw [h.release_walled hc halloc hwalled]
    rfl
  have hcells := h.cells_carve_release hc halloc hhole hmin hmod hwhole
  have hring := h.ring_carve_release hc halloc hwalled hwhole
  have hfilled : (m.release c.offset).carve c.offset size = m :=
    congrArg₂ BlockMap.mk hcells hring
  refine ((h.release hc).1.allocate_first hhole hfirst hadj hfit).trans ?_
  exact congrArg (Prod.mk _) hfilled

/-! ## Many holes -/

/-- The walls of a block stand while other blocks are released that are no part of them. -/
theorem WellFormed.walled_releaseAll (h : m.WellFormed) (hnodup : qs.Nodup)
    (hlive : ∀ q ∈ qs, m.Live q) (hc : c ∈ m.cells)
    (hwalled : ∀ d ∈ m.cells, c.Touches d → d.allocated = true ∧ d.offset ∉ qs) :
    ∀ d ∈ (m.releaseAll qs).cells, c.Touches d → d.allocated = true := by
  obtain ⟨hwf, hbrk, hmem⟩ := h.releaseAll hnodup hlive
  have hcm := h.mem hc
  -- Where a block touches `c` now, one did before, and it is still there.
  have hkept : ∀ e ∈ m.cells, c.Touches e → e ∈ (m.releaseAll qs).cells ∧ e.allocated = true := by
    intro e he htouch
    obtain ⟨hea, hout⟩ := hwalled e he htouch
    exact ⟨(hmem e hea).2 ⟨he, hout⟩, hea⟩
  rintro d hd (hstop | hstop)
  · have hdm := hwf.mem hd
    rcases h.starts (h.seam_stop hc) hcm.2.1 with hend | ⟨e, he, hoff⟩
    · omega
    · obtain ⟨hkeep, hea⟩ := hkept e he (.inl hoff.symm)
      rwa [hwf.row.eq_of_offset hd hkeep (hstop.symm.trans hoff.symm)]
  · have hdm := hwf.mem hd
    rcases h.ends (h.seam_offset hc) (by omega) with hend | ⟨e, he, hoff⟩
    · omega
    · obtain ⟨hkeep, hea⟩ := hkept e he (.inr hoff)
      rwa [hwf.row.eq_of_stop hd hkeep (hstop.trans hoff.symm)]

theorem releaseAll_concat (m : BlockMap) (ps : List Nat) (p : Nat) :
    m.releaseAll (ps ++ [p]) = (m.releaseAll ps).release p := by
  rw [BlockMap.releaseAll, List.foldl_append]
  rfl

/-- **The top of the stack:** a request gets the block released last, as if it never had been. -/
theorem WellFormed.allocate_releaseAll (h : m.WellFormed) (hnodup : (p :: qs).Nodup)
    (hlive : ∀ q ∈ p :: qs, m.Live q) (hisolated : Isolated m.cells n (p :: qs)) :
    (m.releaseAll (p :: qs).reverse).allocate settings n =
      (some p, m.releaseAll qs.reverse) := by
  obtain ⟨hnot, hnodup'⟩ := List.nodup_cons.1 hnodup
  obtain ⟨c, hc, rfl, halloc⟩ := hlive p List.mem_cons_self
  have hrest : ∀ q ∈ qs.reverse, m.Live q := fun q hq =>
    hlive q (List.mem_cons_of_mem _ (List.mem_reverse.1 hq))
  obtain ⟨hwf, -, hmem⟩ := h.releaseAll (List.nodup_reverse.2 hnodup') hrest
  have hkept := (hmem c halloc).2 ⟨hc, by rwa [List.mem_reverse]⟩
  have hwalled := h.walled_releaseAll (List.nodup_reverse.2 hnodup') hrest hc
    fun d hd htouch => (hisolated.walled c hc d hd List.mem_cons_self htouch).imp_right
      fun hout hq => hout (List.mem_cons_of_mem _ (List.mem_reverse.1 hq))
  obtain ⟨size, hadj, hsize⟩ := hisolated.fits c hc List.mem_cons_self
  rw [List.reverse_cons, releaseAll_concat]
  exact hwf.allocate_release hkept halloc hwalled hadj hsize

end BlockMap

/-! ## The heap -/

namespace Heap

/-- One request, and then the rest of them. -/
theorem allocateMany_succ {mid next : Heap} {answer : Option Nat} {count : Nat}
    (hfirst : (heap.allocate n).result = .ok (answer, mid))
    (hrest : (mid.allocateMany n count).result = .ok (ps, next)) :
    (heap.allocateMany n (count + 1)).result = .ok (answer.toList ++ ps, next) := by
  simp only [allocateMany, Traced.result_bind, Traced.result_map, hfirst, hrest, ok_bind]
  rfl

/-- **Every request pops one hole.** -/
theorem Models.allocateMany_spec (hwf : m.WellFormed)
    (h : heap.Models (m.releaseAll qs.reverse)) (hnodup : qs.Nodup) (hlive : ∀ q ∈ qs, m.Live q)
    (hisolated : Isolated m.cells n qs) (count : Nat) (hle : count ≤ qs.length) :
    ∃ next, (heap.allocateMany n count).result = .ok (qs.take count, next) ∧
      next.Models (m.releaseAll (qs.drop count).reverse) := by
  induction count generalizing heap qs with
  | zero => exact ⟨heap, rfl, h⟩
  | succ count ih =>
    cases qs with
    | nil => cases hle
    | cons p rest =>
      obtain ⟨mid, hmid, -, hmodels, -⟩ := h.allocate_spec n
      rw [hwf.allocate_releaseAll hnodup hlive hisolated] at hmid hmodels
      obtain ⟨next, hnext, hmodels'⟩ := ih hmodels (List.nodup_cons.1 hnodup).2
        (fun q hq => hlive q (List.mem_cons_of_mem _ hq))
        (hisolated.mono (List.subset_cons_self _ _)) (Nat.le_of_succ_le_succ hle)
      exact ⟨next, allocateMany_succ hmid hnext, hmodels'⟩

/-- The heaps have the same blocks, and search the free ones in the same order. -/
structure Matches (x y : Heap) : Prop where
  brk_eq : x.arena.brk = y.arena.brk
  blocks_eq : ∃ blocks, x.blocks = .ok blocks ∧ y.blocks = .ok blocks
  freeBlocks_eq : ∀ count, ∃ free, x.freeBlocks count = .ok free ∧ y.freeBlocks count = .ok free

theorem Models.matches (h : x.Models m) (h' : y.Models m) : x.Matches y := by
  obtain ⟨blocks, hsound, hsound', -⟩ := h.represents.sound_congr h'.represents rfl
  refine ⟨h.represents.brk_eq.trans h'.represents.brk_eq.symm,
    ⟨blocks, hsound.blocks_eq, hsound'.blocks_eq⟩, fun count => ?_⟩
  obtain ⟨free, hfree, hcells⟩ := h.represents.freeBlocks_eq count
  obtain ⟨free', hfree', hcells'⟩ := h'.represents.freeBlocks_eq count
  obtain rfl : free = free' := Block.eq_of_cells (hcells.trans hcells'.symm)
  exact ⟨free, hfree, hfree'⟩

/-- **Isolated holes are a stack.** Blocks of a size, none of which touches a free block or another
of them, are released in some order and asked for again: the requests get them in the opposite
order, the mark stays where it is all the time, and in the end every block and every free block is
where it was, the order of the search included. -/
theorem reached_holes (reached : Reached settings history heap live)
    (hblocks : heap.blocks = .ok blocks) (hnodup : ps.Nodup) (hps : ∀ p ∈ ps, p ∈ live)
    (hisolated : Isolated (blocks.map Block.cell) n ps) :
    (∀ count, ∃ mid, (heap.releaseAll (ps.take count)).result = .ok mid ∧
      mid.arena.brk = heap.arena.brk) ∧
    ∃ freed, (heap.releaseAll ps).result = .ok freed ∧
      (∀ count ≤ ps.length, ∃ mid,
        (freed.allocateMany n count).result = .ok (ps.reverse.take count, mid) ∧
          mid.arena.brk = heap.arena.brk) ∧
      ∃ last, (freed.allocateMany n ps.length).result = .ok (ps.reverse, last) ∧
        last.Matches heap := by
  obtain ⟨m, htracks⟩ : ∃ m, Tracks settings heap live m := ⟨_, reached.tracks.2.2⟩
  have hwf := htracks.wellFormed
  obtain ⟨blocks', hblocks', hcells⟩ := htracks.models.represents.blocks_eq
  obtain rfl : blocks = blocks' := Except.ok.inj (hblocks.symm.trans hblocks')
  rw [hcells] at hisolated
  have hlive : ∀ p ∈ ps, m.Live p := fun p hp => (htracks.live_iff p).1 (hps p hp)
  -- The releases, from the bottom of the stack to the top.
  have hreleases : ∀ count, ∃ mid, (heap.releaseAll (ps.take count)).result = .ok mid ∧
      mid.arena.brk = heap.arena.brk := by
    intro count
    obtain ⟨mid, hmid, -, hreleased⟩ := htracks.released (hnodup.sublist (List.take_sublist _ _))
      fun p hp => hps p (List.mem_of_mem_take hp)
    exact ⟨mid, hmid, hreleased.brk_eq⟩
  obtain ⟨freed, hfreed, hmodels, -⟩ := htracks.released hnodup hps
  rw [← List.reverse_reverse ps] at hmodels
  have hpops := fun count => hmodels.allocateMany_spec hwf (List.nodup_reverse.2 hnodup)
    (fun q hq => hlive q (List.mem_reverse.1 hq))
    (hisolated.mono fun q hq => List.mem_reverse.1 hq) count
  refine ⟨hreleases, freed, hfreed, fun count hle => ?_, ?_⟩
  · obtain ⟨mid, hmid, hmodels'⟩ := hpops count (by rwa [List.length_reverse])
    refine ⟨mid, hmid, ?_⟩
    have hsub := hnodup.sublist (List.take_sublist (ps.length - count) ps)
    have hbrk := (hwf.releaseAll hsub fun p hp => hlive p (List.mem_of_mem_take hp)).2.1
    rw [hmodels'.represents.brk_eq, List.drop_reverse, List.reverse_reverse, hbrk, htracks.brk_eq]
  · obtain ⟨last, hlast, hmodels'⟩ := hpops ps.length (by rw [List.length_reverse])
    rw [List.take_of_length_le (by simp)] at hlast
    rw [List.drop_of_length_le (by simp)] at hmodels'
    exact ⟨last, hlast, hmodels'.matches htracks.models⟩

/-- Two holes of 32 bytes, and a free block of 32 bytes at the end that stays as it is. -/
theorem reached_holes_small : ∃ history heap blocks freed last,
    Reached ⟨256, 64, .strict⟩ history heap [176, 144, 112, 80, 48] ∧
      heap.blocks = .ok blocks ∧ Isolated (blocks.map Block.cell) 8 [144, 80] ∧
      (heap.releaseAll [144, 80]).result = .ok freed ∧
      (freed.allocateMany 8 2).result = .ok ([80, 144], last) ∧ last.Matches heap := by
  obtain ⟨history, heap, hrequests, hreached⟩ :=
    exists_reached ⟨256, 64, .strict⟩ (by constructor <;> decide) (by decide) (by decide)
      (List.replicate 5 (.allocate 8)) (by decide)
  obtain ⟨-, -, htracks⟩ := hreached.tracks
  obtain ⟨blocks, hblocks, hcells⟩ := htracks.models.represents.blocks_eq
  have hisolated : Isolated (blocks.map Block.cell) 8 [144, 80] := by
    have hfits : ∀ c ∈ blocks.map Block.cell, c.offset ∈ [144, 80] → c.size = 32 := by
      rw [hcells, hrequests]
      decide
    have hwalled : ∀ c ∈ blocks.map Block.cell, ∀ d ∈ blocks.map Block.cell,
        c.offset ∈ [144, 80] → c.Touches d → d.allocated = true ∧ d.offset ∉ [144, 80] := by
      rw [hcells, hrequests]
      decide
    exact ⟨fun c hc hp => ⟨32, rfl, .inl (hfits c hc hp)⟩, hwalled⟩
  have hlive : ∀ p ∈ [144, 80], p ∈ [176, 144, 112, 80, 48] := by decide
  obtain ⟨-, freed, hfreed, -, last, hlast, hmatches⟩ :=
    reached_holes hreached hblocks (by decide) hlive hisolated
  exact ⟨history, heap, blocks, freed, last, hreached, hblocks, hisolated, hfreed, hlast, hmatches⟩

end Heap
end BoundaryHeap
