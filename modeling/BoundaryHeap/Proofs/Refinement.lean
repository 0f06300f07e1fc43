import BoundaryHeap.Proofs.Runs

/-!
# Reached heaps are sound, and run like maps

The two readings of `Reached.tracks` for someone who only has a heap. Read off the bytes, **a heap
that legal requests lead to is sound**, and its allocated blocks are the handles its user holds
(`reached_sound`). Read off the requests, **it is the heap that the abstract allocator would have**,
answer by answer and block by block, the order of the search included (`reached_refines`).
-/

set_option autoImplicit false

namespace BoundaryHeap
namespace Heap

variable {settings : Settings} {history : List Turn} {heap : Heap} {live : List Nat} {m : BlockMap}
  {p : Nat}

/-! ## Soundness -/

theorem Tracks.allocated_iff (h : Tracks settings heap live m) {blocks : List Block}
    (hcells : blocks.map Block.cell = m.cells) :
    p ∈ live ↔ ∃ b ∈ blocks, b.payload = p ∧ b.tag.allocated = true := by
  rw [h.live_iff, BlockMap.Live, ← hcells]
  constructor
  · rintro ⟨c, hc, hoff, halloc⟩
    obtain ⟨b, hb, rfl⟩ := List.mem_map.1 hc
    exact ⟨b, hb, hoff, halloc⟩
  · rintro ⟨b, hb, hoff, halloc⟩
    exact ⟨b.cell, List.mem_map_of_mem hb, hoff, halloc⟩

/-- **Every legal run keeps the heap sound.** The mark stays between one chunk and the ceiling, the
sentinels, the tiling and the ring are in order, the allocated blocks are the live handles, and the
run can go on with any legal request. -/
theorem reached_sound (reached : Reached settings history heap live) :
    48 + settings.chunk ≤ heap.arena.brk ∧ heap.arena.brk ≤ heap.arena.reserved ∧
      heap.arena.reserved = settings.reserved ∧
      (∃ blocks ring, heap.arena.Sound blocks ring ∧
        ∀ p, p ∈ live ↔ ∃ b ∈ blocks, b.payload = p ∧ b.tag.allocated = true) ∧
      live.Nodup ∧
      ∀ request : Request, request.Legal heap live →
        ∃ answer next, (request.perform heap).result = .ok (answer, next) := by
  obtain ⟨-, -, htracks⟩ := reached.tracks
  obtain ⟨blocks, hsound, hcells⟩ := htracks.models.represents.sound
  refine ⟨?_, heap.arena.size_le_reserved, ?_, ⟨blocks, _, hsound, ?_⟩, htracks.nodup, ?_⟩
  · rw [htracks.brk_eq]
    exact htracks.room
  · rw [htracks.models.reserved_eq, htracks.settings_eq]
  · intro p
    exact htracks.allocated_iff hcells
  · intro request hlegal
    obtain ⟨next, hnext, -⟩ := htracks.follow hlegal
    exact ⟨_, next, hnext.1⟩

/-- Three steps on, with a growth, a move into a released block and a merge behind it. -/
theorem reached_sound_small : ∃ history heap,
    Reached ⟨256, 64, .strict⟩ history heap [48] ∧ 112 ≤ heap.arena.brk ∧
      ∃ blocks ring, heap.arena.Sound blocks ring ∧
        ∀ p, p ∈ [48] ↔ ∃ b ∈ blocks, b.payload = p ∧ b.tag.allocated = true := by
  obtain ⟨history, heap, -, hreached⟩ :=
    exists_reached ⟨256, 64, .strict⟩ (by constructor <;> decide) (by decide) (by decide)
      [.allocate 20, .allocate 100, .release (some 48), .resize (some 112) 8] (by decide)
  have hsound := reached_sound hreached
  exact ⟨history, heap, hreached, hsound.1, hsound.2.2.2.1⟩

/-! ## Refinement -/

/-- **A heap is the map that its requests lead to.** The answers so far are those of the abstract
allocator; the blocks, the mark and the free blocks in the order of the search are those of its map;
and so it goes on with every legal request. -/
theorem reached_refines (reached : Reached settings history heap live) :
    (course settings (history.map Turn.request)).answers = history.map Turn.answer ∧
      ∃ m, (course settings (history.map Turn.request)).map = m ∧ heap.blockMap = .ok m ∧
        heap.arena.brk = m.brk ∧
        (∀ count, ∃ free, heap.freeBlocks count = .ok free ∧
          free.map Block.cell = (m.ring.take count).map fun p => ⟨p, m.sizeAt p, false⟩) ∧
        ∀ request : Request, request.Legal heap live → ∃ next,
          (request.perform heap).result = .ok ((m.perform settings request).1, next) ∧
            next.blockMap = .ok (m.perform settings request).2 := by
  obtain ⟨hanswers, -, htracks⟩ := reached.tracks
  refine ⟨hanswers, _, rfl, blockMap_eq htracks.models.represents, htracks.brk_eq,
    htracks.models.represents.freeBlocks_eq, ?_⟩
  intro request hlegal
  obtain ⟨next, hnext, -, htracks'⟩ := htracks.follow hlegal
  have hresult := hnext.1
  rw [htracks.settings_eq] at hresult
  exact ⟨next, hresult, blockMap_eq htracks'.models.represents⟩

/-- The second block is from a growth, so it moves down into the first. -/
theorem reached_refines_small : ∃ history heap,
    Reached ⟨256, 64, .strict⟩ history heap [48] ∧
      history.map Turn.answer = [some 48, some 112, none, some 48] ∧
      heap.blockMap = .ok ⟨[⟨48, 32, true⟩, ⟨80, 160, false⟩], [80]⟩ := by
  obtain ⟨history, heap, hrequests, hreached⟩ :=
    exists_reached ⟨256, 64, .strict⟩ (by constructor <;> decide) (by decide) (by decide)
      [.allocate 20, .allocate 100, .release (some 48), .resize (some 112) 8] (by decide)
  obtain ⟨hanswers, m, hm, hview, -⟩ := reached_refines hreached
  rw [hrequests] at hanswers hm
  refine ⟨history, heap, hreached, hanswers.symm, ?_⟩
  rw [hview, ← hm]
  rfl

end Heap
end BoundaryHeap
