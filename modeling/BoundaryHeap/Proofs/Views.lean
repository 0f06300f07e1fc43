import BoundaryHeap.Proofs.Represents
import BoundaryHeap.Proofs.Tilings

/-!
# What the walks see

Reading an arena that represents a block map gives that map back: the walk over the blocks lists
its cells, the walk round the ring its nodes, and the search finds what the search of the map
finds. So **an arena represents at most one map,** and everything that is proved of maps can be
read off heaps.
-/

set_option autoImplicit false

namespace BoundaryHeap

/-- A cell keeps all that a block has. -/
theorem Block.cell_injective : Function.Injective Block.cell := by
  rintro ⟨p, s⟩ ⟨q, t⟩ h
  obtain ⟨rfl, hsize, halloc⟩ := Cell.mk.inj h
  exact congrArg (Block.mk p) (Tag.ext' hsize halloc)

theorem Block.eq_of_cells {xs ys : List Block} (h : xs.map Block.cell = ys.map Block.cell) :
    xs = ys :=
  List.map_injective_iff.2 Block.cell_injective h

namespace Arena

variable {a : Arena} {m : BlockMap} {c : Cell} {p stop : Nat} {cells : List Cell}

/-! ## Blocks -/

theorem tiles_of_row (h : Row p cells stop) (hlow : 16 ≤ p) (hlt : stop < 0x10000000000000000)
    (htags : ∀ c ∈ cells, a.Tagged c) :
    ∃ blocks, a.Tiles p blocks stop ∧ blocks.map Block.cell = cells := by
  induction cells generalizing p with
  | nil => exact ⟨[], h, rfl⟩
  | cons c rest ih =>
    obtain ⟨rfl, hmin, -, hrest⟩ := h
    have hle := hrest.le
    obtain ⟨blocks, htiles, hmap⟩ :=
      ih hrest (by omega) fun d hd => htags d (List.mem_cons_of_mem _ hd)
    obtain ⟨t, hsize, halloc, hhead, hfoot⟩ := htags c List.mem_cons_self
    have hheader : a.header c.offset = .ok t := (header_eq (by omega)).trans hhead
    have hfooter : a.footer c.offset = .ok t := by
      rw [footer_eq hheader (by omega) (by omega), hsize]
      exact hfoot
    refine ⟨⟨c.offset, t⟩ :: blocks, ⟨rfl, ?_, hheader, hfooter, ?_⟩, ?_⟩
    · show 0 < t.size
      omega
    · show a.Tiles (c.offset + t.size) blocks stop
      rw [hsize]
      exact htiles
    · rw [List.map_cons, hmap, Block.cell, hsize, halloc]

theorem Represents.prologueTags_eq (h : a.Represents m) :
    a.prologueTags = .ok (Tag.sentinel, Tag.sentinel) := by
  obtain ⟨t, hsize, halloc, hhead, hfoot⟩ := h.sentinel
  -- A tag is its size and its flag, so there is only one that says what the sentinel says.
  obtain rfl : t = Tag.sentinel := Tag.ext' hsize halloc
  exact prologueTags_eq_ok_iff.2 ⟨hhead, hfoot⟩

/-- **An arena that represents a map is a sound heap** with the map's blocks and the map's ring. -/
theorem Represents.sound (h : a.Represents m) :
    ∃ blocks, a.Sound blocks m.ring ∧ blocks.map Block.cell = m.cells := by
  have hwf := h.wellFormed
  have hlt := a.brk_lt
  have hrow := hwf.row
  rw [← h.brk_eq] at hrow
  obtain ⟨blocks, htiles, hmap⟩ := tiles_of_row hrow (by decide) (by omega) h.tags
  have hcell : ∀ b ∈ blocks, b.cell ∈ m.cells := fun b hb => hmap ▸ List.mem_map_of_mem hb
  refine ⟨blocks, ⟨?_, h.prologueTags_eq, htiles, ?_, ?_, ?_, h.isRing, ?_⟩, hmap⟩
  · rw [h.brk_eq]
    exact hwf.brk_mod
  · intro b hb
    exact (hwf.mem (hcell b hb)).2.2.1
  · have hge := h.brk_ge
    rw [header_eq (by omega)]
    exact h.epilogue
  · have hchain : m.cells.IsChain fun c d => c.allocated = true ∨ d.allocated = true :=
      hrow.isChain hwf.merged
    rw [← hmap, List.isChain_map] at hchain
    exact hchain
  · intro p
    rw [hwf.mem_ring]
    constructor
    · rintro ⟨c, hc, rfl, hfree⟩
      rw [← hmap] at hc
      obtain ⟨b, hb, rfl⟩ := List.mem_map.1 hc
      exact ⟨b, hb, rfl, by simpa [Tag.isFree, Block.cell] using hfree⟩
    · rintro ⟨b, hb, rfl, hfree⟩
      exact ⟨b.cell, hcell b hb, rfl, by simpa [Tag.isFree, Block.cell] using hfree⟩

/-- Arenas that represent the same row of blocks have the same blocks. -/
theorem Represents.sound_congr {b : Arena} {m' : BlockMap} (h : a.Represents m)
    (h' : b.Represents m') (hcells : m.cells = m'.cells) :
    ∃ blocks, a.Sound blocks m.ring ∧ b.Sound blocks m'.ring ∧ blocks.map Block.cell = m.cells := by
  obtain ⟨blocks, hsound, hmap⟩ := h.sound
  obtain ⟨blocks', hsound', hmap'⟩ := h'.sound
  obtain rfl : blocks = blocks' := Block.eq_of_cells (hmap.trans (hcells.trans hmap'.symm))
  exact ⟨blocks, hsound, hsound', hmap⟩

theorem Represents.nodes_eq (h : a.Represents m) : a.nodes = .ok m.ring := h.isRing.nodes_eq

theorem Represents.blocks_eq (h : a.Represents m) :
    ∃ blocks, a.blocks = .ok blocks ∧ blocks.map Block.cell = m.cells := by
  obtain ⟨blocks, hsound, hmap⟩ := h.sound
  exact ⟨blocks, hsound.blocks_eq, hmap⟩

theorem Represents.headers_eq (h : a.Represents m) {ps : List Nat} (hps : ∀ p ∈ ps, p ∈ m.ring) :
    ∃ free, (ps.mapM fun p => return Block.mk p (← a.header p)) = Except.ok free ∧
      free.map Block.cell = ps.map fun p => ⟨p, m.sizeAt p, false⟩ := by
  induction ps with
  | nil => exact ⟨[], rfl, rfl⟩
  | cons p rest ih =>
    obtain ⟨free, hfree, hmap⟩ := ih fun q hq => hps q (List.mem_cons_of_mem _ hq)
    obtain ⟨c, hc, rfl, hca⟩ := (h.wellFormed.mem_ring p).1 (hps p List.mem_cons_self)
    obtain ⟨t, ht, hsize, halloc⟩ := h.header hc
    refine ⟨⟨c.offset, t⟩ :: free, ?_, ?_⟩
    · rw [List.mapM_cons, hfree]
      simp only [ht, bind, Except.bind]
      rfl
    · rw [List.map_cons, hmap, List.map_cons, Block.cell, hsize, halloc, hca,
        h.wellFormed.sizeAt_eq hc]

/-- The free blocks that are listed first are the first nodes. -/
theorem Represents.freeBlocks_eq (h : a.Represents m) (count : Nat) :
    ∃ free, a.freeBlocks count = .ok free ∧
      free.map Block.cell = (m.ring.take count).map fun p => ⟨p, m.sizeAt p, false⟩ := by
  obtain ⟨free, hfree, hmap⟩ := h.headers_eq fun p hp => List.mem_of_mem_take hp
  refine ⟨free, ?_, hmap⟩
  simp only [freeBlocks, h.isRing.takeNodes_eq count]
  exact hfree

/-! ## The search -/

/-- Free blocks are blocks, and those have 32 bytes each. -/
theorem Represents.ring_length_le (h : a.Represents m) : m.ring.length ≤ (a.brk - 48) / 32 := by
  have hwf := h.wellFormed
  have hsub : m.ring ⊆ m.cells.map Cell.offset := fun p hp => by
    obtain ⟨c, hc, rfl, -⟩ := (hwf.mem_ring p).1 hp
    exact List.mem_map_of_mem hc
  have hle := (hwf.nodup.subperm hsub).length_le
  have hrow := hwf.row.length_le
  rw [List.length_map] at hle
  rw [h.brk_eq]
  simp only [firstPayload, prologue, prologueSize, minBlockSize, alignment, wordSize] at hrow
  omega

/-- The walk along the ring is back at the sentinel after as many nodes as there is room for. -/
theorem Represents.nodesFrom_eq (h : a.Represents m) :
    a.nodesFrom (m.ring.headD prologue) ((a.brk - 48) / 32) = .ok m.ring :=
  h.isRing.nodesFrom_eq h.ring_length_le

/-- The headers of the nodes tell the sizes that the map has. -/
theorem Represents.header_of_node (h : a.Represents m) :
    ∀ q ∈ m.ring, ∃ t, a.header q = .ok t ∧ t.size = m.sizeAt q := by
  intro q hq
  obtain ⟨c, hc, rfl, -⟩ := (h.wellFormed.mem_ring q).1 hq
  obtain ⟨t, ht, hsize, -⟩ := h.header hc
  exact ⟨t, ht, by rw [hsize, h.wellFormed.sizeAt_eq hc]⟩

theorem Represents.firstFitFrom_eq (h : a.Represents m) (size : Nat) :
    a.firstFitFrom size (m.ring.headD prologue) ((a.brk - 48) / 32) = .ok (m.firstFit size) :=
  h.isRing.firstFitFrom_eq h.header_of_node h.ring_length_le

theorem Represents.firstFit_eq (h : a.Represents m) (size : Nat) :
    a.firstFit size = .ok (m.firstFit size) :=
  h.isRing.firstFit_eq h.header_of_node size

end Arena

/-! ## Heaps -/

theorem Heap.blockMap_eq {heap : Heap} {m : BlockMap} (h : heap.arena.Represents m) :
    heap.blockMap = .ok m := by
  obtain ⟨blocks, hblocks, hmap⟩ := h.blocks_eq
  simp only [blockMap, Heap.blocks, hblocks, h.nodes_eq, hmap, bind, Except.bind]
  rfl

end BoundaryHeap
