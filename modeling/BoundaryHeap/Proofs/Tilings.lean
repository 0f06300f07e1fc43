import BoundaryHeap.Heap.Sound
import BoundaryHeap.Proofs.Edits

/-!
# Blocks in order

Much of what is read of a heap asks less than that it is sound: the sentinels stand where they should
and blocks that nobody has to merge fill the bytes between them (`InOrder`). **Listing and tallying
such a heap gives these blocks** (`InOrder.blocks_eq`, `InOrder.stats_eq`), whatever the ring says, and
a sound heap is one (`Sound.inOrder`).
-/

set_option autoImplicit false

namespace BoundaryHeap
namespace Arena

variable {a : Arena} {blocks : List Block} {ring : List Nat} {p stop : Nat} {b : Block}

/-! ## Tiles -/

theorem Tiles.mem (h : a.Tiles p blocks stop) (hb : b ∈ blocks) :
    p ≤ b.payload ∧ b.payload + b.tag.size ≤ stop ∧ b.payload % 16 = p % 16 ∧
      a.header b.payload = .ok b.tag := by
  induction blocks generalizing p with
  | nil => cases hb
  | cons c rest ih =>
    obtain ⟨rfl, -, hheader, -, hrest⟩ := h
    have hle := hrest.le
    have hmod := c.tag.size_mod
    rcases List.mem_cons.1 hb with rfl | hb
    · exact ⟨Nat.le_refl _, hle, rfl, hheader⟩
    · obtain ⟨hlo, hhi, hal, hown⟩ := ih hrest hb
      exact ⟨by omega, hhi, by omega, hown⟩

theorem Tiles.nodup (h : a.Tiles p blocks stop) : (blocks.map Block.payload).Nodup := by
  induction blocks generalizing p with
  | nil => exact List.nodup_nil
  | cons c rest ih =>
    obtain ⟨rfl, hpos, -, -, hrest⟩ := h
    refine List.nodup_cons.2 ⟨?_, ih hrest⟩
    intro hmem
    obtain ⟨b, hb, heq⟩ := List.mem_map.1 hmem
    have := (hrest.mem hb).1
    omega

theorem Tiles.of_append {front back : List Block} (h : a.Tiles p (front ++ back) stop) :
    ∃ mid, a.Tiles p front mid ∧ a.Tiles mid back stop := by
  induction front generalizing p with
  | nil => exact ⟨p, rfl, h⟩
  | cons b rest ih =>
    obtain ⟨hpayload, hpos, hheader, hfooter, hrest⟩ := h
    obtain ⟨mid, hfront, hback⟩ := ih hrest
    exact ⟨mid, ⟨hpayload, hpos, hheader, hfooter, hfront⟩, hback⟩

/-! ## The sentinels and what is between them -/

/-- The sentinels stand where they should, and these blocks fill the bytes between them, each with
the same tag at both ends, no two free ones in a row. -/
structure InOrder (a : Arena) (blocks : List Block) : Prop where
  prologueHeader : a.tagAt 8 = .ok Tag.sentinel
  prologueFooter : a.tagAt 32 = .ok Tag.sentinel
  tiles : a.Tiles firstPayload blocks a.brk
  merged : Merged blocks
  epilogue : a.header a.brk = .ok Tag.epilogue

/-- The tags that the audit looks at are those of the two words. -/
theorem prologueTags_eq_ok_iff {header footer : Tag} :
    a.prologueTags = .ok (header, footer) ↔ a.tagAt 8 = .ok header ∧ a.tagAt 32 = .ok footer := by
  have hhead : a.header prologue = a.tagAt 8 := header_eq (by decide)
  rw [prologueTags, hhead]
  show (a.tagAt 8 >>= fun header => a.readWord 32 >>= fun w => .ok (header, Tag.decode w)) = _ ↔ _
  rw [tagAt, tagAt]
  simp only [bind_eq_ok_iff, map_eq_ok_iff]
  grind

theorem InOrder.blocks_eq (h : a.InOrder blocks) : a.blocks = .ok blocks := by
  have hheader : a.header prologue = .ok Tag.sentinel :=
    (header_eq (by decide)).trans h.prologueHeader
  have hstart : a.nextBlock prologue = .ok firstPayload := nextBlock_eq hheader (by decide)
  simp only [Arena.blocks, hstart, ok_bind]
  exact blocksFrom_of_tiles h.tiles (Nat.le_refl _) h.epilogue rfl

theorem InOrder.stats_eq (h : a.InOrder blocks) :
    a.stats = .ok (HeapStats.ofBlocks a.brk blocks) := by
  simp only [Arena.stats, h.blocks_eq, ok_bind]
  rfl

/-! ## Sound heaps -/

theorem Sound.inOrder (h : a.Sound blocks ring) : a.InOrder blocks := by
  obtain ⟨hhead, hfoot⟩ := prologueTags_eq_ok_iff.1 h.prologueTags
  exact ⟨hhead, hfoot, h.tiles, h.merged, h.epilogue⟩

theorem Sound.blocks_eq (h : a.Sound blocks ring) : a.blocks = .ok blocks :=
  h.inOrder.blocks_eq

theorem Sound.stats_eq (h : a.Sound blocks ring) :
    a.stats = .ok (HeapStats.ofBlocks a.brk blocks) :=
  h.inOrder.stats_eq

end Arena
end BoundaryHeap
