import BoundaryHeap.Proofs.Merging

/-!
# Releasing and growing

The two ways to a new free block. A release writes the tags of an allocated block anew, a growth
writes a block over the old epilogue, and both leave a span that the ring does not have yet to be
merged.
-/

set_option autoImplicit false

namespace BoundaryHeap
namespace Arena

variable {a : Arena} {m : BlockMap} {c : Cell} {lo hi count : Nat}

theorem Represents.opened (ha : a.Represents m) (lo : Nat) (hhi : hi ≤ m.brk) :
    a.Opened m lo hi m.ring a := by
  refine ⟨Confined.refl a m lo hi, ?_, ha.epilogue, ha.isRing⟩
  rw [Nat.max_eq_left hhi]
  exact ha.brk_eq

/-! ## Releasing -/

theorem gap_of_allocated (h : m.WellFormed) (hc : c ∈ m.cells) (halloc : c.allocated = true) :
    Gap m c.offset (c.offset + c.size) := by
  have hcm := h.mem hc
  exact ⟨h.seam_offset hc, h.seam_stop hc, by omega, by omega,
    fun q hq => h.nodes_outside hc halloc hq⟩

theorem Represents.release_spec (ha : a.Represents m) (hc : c ∈ m.cells)
    (halloc : c.allocated = true) :
    ∃ t x y, Tag.ofSize c.size false = .ok t ∧ a.setTags c.offset t = .ok x ∧
      x.coalesce c.offset = .ok (m.startBefore c.offset, y) ∧ y.Represents (m.release c.offset) ∧
      a.Confined m (m.startBefore c.offset) (m.stopAfter (c.offset + c.size)) y := by
  have hwf := ha.wellFormed
  have hgap := gap_of_allocated hwf hc halloc
  -- The block is a gap in the ring already; only its tags still say allocated.
  have hopened := ha.opened c.offset (hwf.mem hc).2.1
  obtain ⟨t, x, ht, hx, hx', hown⟩ := hopened.retag hwf hgap.seam_start hgap.seam_stop hgap.length
    (fun q hq => ⟨hq, hgap.noNode q hq⟩) false
  obtain ⟨y, hy, hrep, hconf⟩ := hx'.coalesce_spec ha hown hgap
  refine ⟨t, x, y, ?_, hx, hy, ?_, hconf⟩
  · rw [← ht]
    congr 1
    omega
  · rw [(hwf.span hc).1]
    exact hrep

/-! ## Growing -/

theorem gap_at_end (h : m.WellFormed) (hcount : 32 ≤ count) (hmod : count % 16 = 0) :
    Gap m m.brk (m.brk + count) := by
  have hbrk := h.brk_mod
  refine ⟨h.seam_end (Nat.le_refl _) hbrk, h.seam_end (Nat.le_add_right _ _) (by omega),
    Nat.le_refl _, by omega, fun q hq => .inl ?_⟩
  have := h.node_bounds hq
  omega

/-- Words from the old epilogue on belong to no node. -/
theorem Represents.ring_below {x z : Arena} {ws : List Nat} (ha : a.Represents m)
    (hextended : a.Extended count x) (hedit : x.Edit ws z) (hws : ∀ w ∈ ws, a.brk ≤ w + 8) :
    z.IsRing m.ring := by
  have hle : a.brk ≤ x.brk := hextended.brk_eq ▸ Nat.le_add_right _ _
  apply (ha.isRing.of_extend hle hextended.byte_eq).of_edit hedit
  intro w hw q hq
  -- A node has room for its links and a footer, so none reaches the old epilogue.
  have hbelow : q + 32 ≤ a.brk := by
    rcases hq with rfl | hq
    · exact Nat.le_trans (by decide) ha.brk_ge
    · exact ha.brk_eq ▸ (ha.wellFormed.node_bounds hq).2
  have hhigh := hws w hw
  omega

/-- The new block is written over the old epilogue, and the ring does not notice. -/
theorem Represents.openBlock_spec (ha : a.Represents m) (hcount : 32 ≤ count)
    (hmod : count % 16 = 0) (hroom : a.brk + count ≤ a.reserved) :
    ∃ x y, a.extend count = (.ok a.brk, x) ∧ x.openBlock a.brk count = .ok y ∧
      a.Opened m m.brk (m.brk + count) m.ring y ∧
      y.Tagged ⟨m.brk, m.brk + count - m.brk, false⟩ := by
  have hwf := ha.wellFormed
  have hge := ha.brk_ge
  have hbrk := ha.brk_eq
  have hmod' := hwf.brk_mod
  obtain ⟨x, hx, hextended⟩ := extend_spec hroom
  have hxbrk := hextended.brk_eq
  have hlt := x.brk_lt
  obtain ⟨t, hsize, halloc⟩ : ∃ t : Tag, t.size = count ∧ t.allocated = false :=
    ⟨⟨count, false, hmod, by omega⟩, rfl, rfl⟩
  obtain ⟨y, hy, hedit, hhead, hfoot⟩ :=
    setTags_spec (a := x) (p := a.brk) (t := t) (by omega) (by omega) (by omega)
  rw [hsize] at hedit hfoot
  have hnext : y.nextBlock a.brk = .ok (a.brk + count) := by
    have hheader : y.header a.brk = .ok t := (header_eq (by omega)).trans hhead
    rw [nextBlock_eq hheader (by omega), hsize]
  have hybrk := hedit.brk_eq
  obtain ⟨z, hz, hedit', hepi⟩ :=
    setHeader_spec (a := y) (p := a.brk + count) (t := Tag.epilogue) (by omega) (by omega)
  have hboth := hedit.trans hedit'
  have hzbrk := hedit'.brk_eq
  have hring : z.IsRing m.ring := by
    apply ha.ring_below hextended hboth
    intro w hw
    simp only [List.mem_append, List.mem_cons, List.not_mem_nil, or_false] at hw
    omega
  have hreserved : z.reserved = a.reserved := hboth.reserved_eq.trans hextended.reserved_eq
  refine ⟨x, z, hx, ?_, ⟨⟨by omega, hreserved, ?_⟩, ?_, ?_, hring⟩, ⟨t, ?_, halloc, ?_, ?_⟩⟩
  · have ht : Tag.ofSize count false = .ok t := Tag.ofSize_eq_ok_iff.2 ⟨hsize, halloc⟩
    simp only [openBlock, ht, hy, hnext, hz, bind, Except.bind]
    rw [if_pos (by omega)]
    rfl
  · intro i hi hout
    rw [hboth.byte_eq i fun w hw => ?_, hextended.byte_eq i hi]
    have hheader := hout (a.brk - 8) (.inl (by omega))
    simp only [List.mem_append, List.mem_cons, List.not_mem_nil, or_false] at hw
    omega
  · omega
  · rw [hzbrk, hybrk, hxbrk]
    exact hepi
  · simp only
    omega
  · rw [hedit'.tagAt_eq (by simp; omega), ← hhead, hbrk]
  · rw [hedit'.tagAt_eq (by simp; omega), ← hfoot, hbrk]
    congr 1
    simp only
    omega

theorem Represents.grow_spec (ha : a.Represents m) (hcount : 32 ≤ count) (hmod : count % 16 = 0)
    (hroom : a.brk + count ≤ a.reserved) :
    ∃ x y z, a.extend count = (.ok a.brk, x) ∧ x.openBlock a.brk count = .ok y ∧
      y.coalesce a.brk = .ok ((m.grow count).1, z) ∧ z.Represents (m.grow count).2 ∧
      a.Confined m (m.startBefore m.brk) (m.brk + count) z := by
  have hwf := ha.wellFormed
  have hgap := gap_at_end hwf hcount hmod
  obtain ⟨x, y, hx, hy, hopened, hown⟩ := ha.openBlock_spec hcount hmod hroom
  obtain ⟨z, hz, hrep, hconf⟩ := hopened.coalesce_spec ha hown hgap
  rw [hwf.stopAfter_end (Nat.le_add_right _ _)] at hrep hconf
  rw [← ha.brk_eq] at hz
  refine ⟨x, y, z, hx, hy, ?_, hrep, hconf⟩
  rw [hz, BlockMap.grow, ha.brk_eq]

end Arena
end BoundaryHeap
