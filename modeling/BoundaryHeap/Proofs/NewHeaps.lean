import BoundaryHeap.Proofs.Releases
import BoundaryHeap.Proofs.Safety

/-!
# New heaps

What settings come to, for all of them: two kinds of settings that are refused, a reservation that is
too large for an address space, an arena that is too small, and otherwise a heap (`Heap.create_exact`).
**A new heap is sound, and is one free block of a chunk** (`Heap.Fresh`); everything that can be asked
of it says so.
-/

set_option autoImplicit false

namespace BoundaryHeap

variable {settings : Settings} {heap : Heap} {a : Arena}

namespace Heap

/-- The heap that comes of settings before anything is asked of it. -/
structure Fresh (heap : Heap) (settings : Settings) : Prop where
  settings_eq : heap.settings = settings
  brk_eq : heap.arena.brk = 48 + settings.chunk
  counters_eq : heap.counters = ⟨0, 0, 0, 1, 0⟩
  one_free : ∃ b : Block, b.payload = 48 ∧ b.tag.size = settings.chunk ∧ b.tag.isFree = true ∧
    heap.arena.Sound [b] [48] ∧ heap.blocks = .ok [b] ∧
    ∀ count, heap.freeBlocks count = .ok ([b].take count)
  clean : ∀ verbose, ∃ report, (heap.arena.inspect verbose).result = .ok report ∧
    (heap.check verbose).result = .ok report ∧ report.violations = []
  valid : ∃ stats, heap.stats = .ok stats ∧ heap.validate = .ok (.ok stats)

theorem fresh_of_models (h : Models ⟨a, settings, { extensions := 1 }⟩ (BlockMap.fresh settings)) :
    Fresh ⟨a, settings, { extensions := 1 }⟩ settings := by
  have hbrk : a.brk = 48 + settings.chunk := h.represents.brk_eq
  have hwhole : (BlockMap.fresh settings).cells =
      [⟨48, (BlockMap.fresh settings).brk - 48, false⟩] := by
    show [Cell.mk 48 settings.chunk false] = [⟨48, 48 + settings.chunk - 48, false⟩]
    rw [Nat.add_sub_cancel_left]
  obtain ⟨blocks, hsound, -⟩ := h.represents.sound
  obtain ⟨b, hcell, hblocks, hfree⟩ := h.one_free hwhole rfl
  obtain rfl : blocks = [b] := Except.ok.inj (hsound.blocks_eq.symm.trans hblocks)
  have hclean := hsound.inspect_spec
  refine ⟨rfl, hbrk, rfl, ⟨b, ?_, ?_, ?_, hsound, hblocks, hfree⟩, ?_, _, hsound.stats_eq,
    validate_of_clean (hclean false)⟩
  · exact congrArg Cell.offset hcell
  · have hsize : b.tag.size = a.brk - 48 := congrArg Cell.size hcell
    rw [hsize, hbrk, Nat.add_sub_cancel_left]
  · have halloc : b.tag.allocated = false := congrArg Cell.allocated hcell
    rw [Tag.isFree, halloc]
    rfl
  · intro verbose
    exact ⟨_, hclean verbose, check_of_clean (hclean verbose) settings.mode, rfl⟩

/-- **What becomes of all settings.** A bad ceiling is refused first, then a bad chunk. What the arena
would then reserve may be more than a sequence of bytes can be long, which is a fault. Otherwise the
arena is exhausted if the sentinels and one chunk do not fit, where what is asked for and what remains
are those of the extension that failed. All else makes a heap, and it is one free block. -/
theorem create_exact (settings : Settings) :
    ((∃ reason, (create settings).result = .ok (.error (.arena (.invalidConfig reason)))) ↔
      settings.reserved = 0 ∨ settings.reserved % 16 ≠ 0) ∧
    ((∃ reason, (create settings).result = .ok (.error (.invalidConfig reason))) ↔
      (settings.reserved ≠ 0 ∧ settings.reserved % 16 = 0) ∧
        (settings.chunk < 32 ∨ settings.chunk % 16 ≠ 0)) ∧
    (∀ f, (create settings).result = .error f ↔
      settings.Valid ∧ 0x7FFFFFFFFFFFFFFF < settings.reserved ∧
        f = .capacityOverflow settings.reserved) ∧
    (∀ requested remaining,
      (create settings).result = .ok (.error (.arena (.exhausted requested remaining))) ↔
      settings.Valid ∧ settings.reserved ≤ 0x7FFFFFFFFFFFFFFF ∧
        settings.reserved < 48 + settings.chunk ∧
        if settings.reserved < 48 then requested = 48 ∧ remaining = settings.reserved
        else requested = settings.chunk ∧ remaining = settings.reserved - 48) ∧
    ((∃ heap, (create settings).result = .ok (.ok heap)) ↔
      settings.Valid ∧ settings.reserved ≤ 0x7FFFFFFFFFFFFFFF ∧
        48 + settings.chunk ≤ settings.reserved) ∧
    ∀ heap, (create settings).result = .ok (.ok heap) → heap.Fresh settings := by
  have houtcome := create_outcome settings
  refine ⟨⟨?_, ?_⟩, ⟨?_, ?_⟩, fun f => ⟨?_, ?_⟩, fun requested remaining => ⟨?_, ?_⟩, ?_, ?_⟩
  · rintro ⟨reason, hresult⟩
    rw [hresult] at houtcome
    cases houtcome with
    | noCeiling _ hbad => exact hbad
  · intro hbad
    obtain ⟨reason, hrefusal⟩ := Settings.refusal?_of_ceiling hbad
    exact ⟨reason, create_refused hrefusal⟩
  · rintro ⟨reason, hresult⟩
    rw [hresult] at houtcome
    cases houtcome with
    | noChunk _ hpos hmod hbad => exact ⟨⟨hpos, hmod⟩, hbad⟩
  · rintro ⟨⟨hpos, hmod⟩, hbad⟩
    obtain ⟨reason, hrefusal⟩ := Settings.refusal?_of_chunk hpos hmod hbad
    exact ⟨reason, create_refused hrefusal⟩
  · intro hresult
    rw [hresult] at houtcome
    cases houtcome with
    | overflow hvalid hbig => exact ⟨hvalid, hbig, rfl⟩
  · rintro ⟨hvalid, hbig, rfl⟩
    exact create_overflow hvalid hbig
  · intro hresult
    rw [hresult] at houtcome
    cases houtcome with
    | short hvalid hroom =>
      refine ⟨hvalid, by omega, by omega, ?_⟩
      rw [if_pos hroom]
      exact ⟨rfl, rfl⟩
    | exhausted hvalid hlt hfirst hroom =>
      refine ⟨hvalid, Nat.le_of_lt_succ hlt, hroom, ?_⟩
      rw [if_neg (Nat.not_lt.2 hfirst)]
      exact ⟨rfl, rfl⟩
  · rintro ⟨hvalid, hle, hroom, hnumbers⟩
    split at hnumbers
    · next hshort =>
      obtain ⟨rfl, rfl⟩ := hnumbers
      exact create_short hvalid hshort
    · next hfirst =>
      obtain ⟨rfl, rfl⟩ := hnumbers
      exact create_exhausted hvalid (Nat.lt_succ_of_le hle) (Nat.le_of_not_lt hfirst) hroom
  · rw [create_eq_ok_iff]
    exact and_congr_right fun _ => and_congr_left fun _ => Nat.lt_succ_iff
  · intro heap hresult
    rw [hresult] at houtcome
    cases houtcome with
    | made a hvalid hlt hroom hmodels => exact fresh_of_models hmodels

end Heap
end BoundaryHeap
