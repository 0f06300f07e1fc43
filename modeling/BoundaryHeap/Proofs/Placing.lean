import BoundaryHeap.Heap.Allocation
import BoundaryHeap.Proofs.Freeing

/-!
# Placing

Handing out a free block. If the rest can stand alone, the block is cut in two and the rest takes
its place in the ring; otherwise it leaves the ring as a whole. Either way the bytes afterwards
represent the map with the block carved (`Represents.place_spec`).
-/

set_option autoImplicit false

namespace BoundaryHeap
namespace Arena

open BlockMap (pieces mem_pieces)

variable {a b : Arena} {m : BlockMap} {c d : Cell} {p size : Nat} {ws ring : List Nat}

/-- Carving replaces one block, so only its pieces have to be shown. -/
theorem Opened.carved (ha : a.Represents m) (hc : c ∈ m.cells) (hfree : c.allocated = false)
    (hmin : 32 ≤ size) (hmod : size % 16 = 0)
    (h : a.Opened m c.offset (c.offset + c.size) (m.carve c.offset size).ring b)
    (hpieces : ∀ d ∈ pieces c size, b.Tagged d) : b.Represents (m.carve c.offset size) := by
  have hwf := ha.wellFormed
  have hcm := hwf.mem hc
  obtain ⟨hwf', hbrk⟩ := hwf.carve hc hfree hmin hmod
  refine ha.update h.confined hcm.1 hwf' ?_ h.epilogue h.isRing ?_
  · rw [hbrk, h.brk_eq, Nat.max_eq_left hcm.2.1]
  · intro d hd
    rw [hwf.carve_eq hc, BlockMap.mem_splice] at hd
    rcases hd with ⟨hd, hlt⟩ | hnew | ⟨hd, hge⟩
    · exact .inl ⟨hd, .inl ((hwf.row.uncut_offset hc d hd).resolve_right (by omega))⟩
    · exact .inr (hpieces d hnew)
    · exact .inl ⟨hd, .inr hge⟩

/-- The whole block: it leaves the ring and says allocated. -/
theorem Represents.place_whole (ha : a.Represents m) (hc : c ∈ m.cells)
    (hfree : c.allocated = false) (hmin : 32 ≤ size) (hmod : size % 16 = 0)
    (hwhole : ¬ size + 32 ≤ c.size) :
    ∃ t x y, a.removeNode c.offset = .ok x ∧ Tag.ofSize c.size true = .ok t ∧
      x.setTags c.offset t = .ok y ∧ y.Represents (m.carve c.offset size) ∧
      a.Confined m c.offset (c.offset + c.size) y := by
  have hwf := ha.wellFormed
  have hcm := hwf.mem hc
  have hnode : c.offset ∈ m.ring := (hwf.mem_ring _).2 ⟨c, hc, rfl, hfree⟩
  obtain ⟨x, hx, hopened⟩ :=
    (ha.opened c.offset hcm.2.1).remove hwf (List.Subset.refl _) hnode
  have hring : ∀ q ∈ m.ring.filter (· ≠ c.offset),
      q ∈ m.ring ∧ (q < c.offset ∨ c.offset + c.size ≤ q) := by
    intro q hq
    obtain ⟨hq, hne⟩ := List.mem_filter.1 hq
    exact ⟨hq, hwf.other_node_outside hc hq (by simpa using hne)⟩
  obtain ⟨t, y, ht, hy, hopened', hown⟩ :=
    hopened.retag hwf (hwf.seam_offset hc) (hwf.seam_stop hc) (by omega) hring true
  have hlen : c.offset + c.size - c.offset = c.size := by omega
  rw [hlen] at ht hown
  refine ⟨t, x, y, hx, ht, hy, ?_, hopened'.confined⟩
  refine Opened.carved ha hc hfree hmin hmod ?_ ?_
  · rw [hwf.carve_eq hc, if_neg hwhole]
    exact hopened'
  · intro d hd
    rw [pieces, if_neg hwhole] at hd
    rw [List.mem_singleton.1 hd]
    exact hown

theorem Edit.links_eq (h : a.Edit ws b) (hout : ∀ w ∈ ws, w + 8 ≤ p ∨ p + 16 ≤ w) :
    b.links p = a.links p := by
  have hprev : b.prevLink p = a.prevLink p := h.readOffset_eq fun w hw => by
    have := hout w hw
    omega
  have hnext : b.nextLink p = a.nextLink p := h.readOffset_eq fun w hw => by
    have := hout w hw
    simp only [wordSize]
    omega
  rw [links, links, hprev, hnext]

/-- Both parts of a block get their tags. Its links lie between these and can still be read. -/
theorem Represents.tag_pieces (ha : a.Represents m) (hc : c ∈ m.cells) (hmin : 32 ≤ size)
    (hmod : size % 16 = 0) (hsplit : size + 32 ≤ c.size) :
    ∃ t u x y, Tag.ofSize size true = .ok t ∧ a.setTags c.offset t = .ok x ∧
      x.nextBlock c.offset = .ok (c.offset + size) ∧ Tag.ofSize (c.size - size) false = .ok u ∧
      x.setTags (c.offset + size) u = .ok y ∧ a.Opened m c.offset (c.offset + c.size) m.ring y ∧
      y.links c.offset = a.links c.offset ∧ ∀ d ∈ pieces c size, y.Tagged d := by
  have hwf := ha.wellFormed
  have hcm := hwf.mem hc
  have hbrk := ha.brk_eq
  have hlt := a.brk_lt
  obtain ⟨t, ht⟩ : ∃ t : Tag, t.size = size ∧ t.allocated = true :=
    ⟨⟨size, true, hmod, by omega⟩, rfl, rfl⟩
  obtain ⟨u, hu⟩ : ∃ u : Tag, u.size = c.size - size ∧ u.allocated = false :=
    ⟨⟨c.size - size, false, by omega, by omega⟩, rfl, rfl⟩
  obtain ⟨x, hx, hedit, hhead, hfoot⟩ :=
    setTags_spec (a := a) (p := c.offset) (t := t) (by omega) (by omega) (by omega)
  have hbrk' := hedit.brk_eq
  obtain ⟨y, hy, hedit', hhead', hfoot'⟩ :=
    setTags_spec (a := x) (p := c.offset + size) (t := u) (by omega) (by omega) (by omega)
  have hnext : x.nextBlock c.offset = .ok (c.offset + size) := by
    rw [nextBlock_eq ((header_eq (by omega)).trans hhead) (by omega), ht.1]
  rw [ht.1] at hedit hfoot
  rw [hu.1] at hedit' hfoot'
  have hboth := hedit.trans hedit'
  have hring : y.IsRing m.ring := by
    apply ha.isRing.of_edit hboth
    intro w hw q hq
    have := node_apart hwf (.inl hc) hq
    simp only [List.mem_append, List.mem_cons, List.not_mem_nil, or_false] at hw
    omega
  refine ⟨t, u, x, y, Tag.ofSize_eq_ok_iff.2 ht, hx, hnext, Tag.ofSize_eq_ok_iff.2 hu, hy,
    ?_, ?_, ?_⟩
  · refine (ha.opened c.offset hcm.2.1).edit hwf hboth (fun w hw => .inl ?_) hring
    simp only [List.mem_append, List.mem_cons, List.not_mem_nil, or_false] at hw
    omega
  · apply hboth.links_eq
    intro w hw
    simp only [List.mem_append, List.mem_cons, List.not_mem_nil, or_false] at hw
    omega
  · intro d hd
    rw [pieces, if_pos hsplit] at hd
    rcases List.mem_pair.1 hd with rfl | rfl
    · have hfirst : x.Tagged ⟨c.offset, size, true⟩ := ⟨t, ht.1, ht.2, hhead, hfoot⟩
      exact hfirst.of_edit hedit' (by simp; omega) (by simp; omega)
    · exact ⟨u, hu.1, hu.2, hhead', hfoot'⟩

/-- The block cut in two: tags for both parts, and the rest takes the place in the ring. -/
theorem Represents.place_split (ha : a.Represents m) (hc : c ∈ m.cells)
    (hfree : c.allocated = false) (hmin : 32 ≤ size) (hmod : size % 16 = 0)
    (hsplit : size + 32 ≤ c.size) :
    ∃ links t u x y z, a.links c.offset = .ok links ∧ Tag.ofSize size true = .ok t ∧
      a.setTags c.offset t = .ok x ∧ x.nextBlock c.offset = .ok (c.offset + size) ∧
      Tag.ofSize (c.size - size) false = .ok u ∧ x.setTags (c.offset + size) u = .ok y ∧
      y.requireNode (c.offset + size) = .ok () ∧
      y.takePosition links (c.offset + size) = .ok z ∧ z.Represents (m.carve c.offset size) ∧
      a.Confined m c.offset (c.offset + c.size) z := by
  have hwf := ha.wellFormed
  have hcm := hwf.mem hc
  have hbrk := ha.brk_eq
  have hnode : c.offset ∈ m.ring := (hwf.mem_ring _).2 ⟨c, hc, rfl, hfree⟩
  obtain ⟨links, hlinks, -⟩ := links_ok (a := a) (q := c.offset) (by omega)
  obtain ⟨t, u, x, y, ht, hx, hnext, hu, hy, hopened, hsame, htagged⟩ :=
    ha.tag_pieces hc hmin hmod hsplit
  have hbrk' := hopened.brk_eq
  have hrest : y.Tagged ⟨c.offset + size, c.size - size, false⟩ :=
    htagged _ (by rw [pieces, if_pos hsplit]; exact List.mem_pair.2 (.inr rfl))
  have hplace : y.IsPlace (c.offset + size) := ⟨by omega, by omega, by omega⟩
  obtain ⟨z, v, w, hz, hflanks, hedit, hring⟩ :=
    hopened.isRing.takePosition_spec hnode (hsame.trans hlinks) hplace
      (hwf.rest_not_mem hc hmin hsplit)
  obtain ⟨hv, hw⟩ := hflanks.nodes
  have hv' := node_apart hwf (.inl hc) hv
  have hw' := node_apart hwf (.inl hc) hw
  have hopened' : a.Opened m c.offset (c.offset + c.size) (m.carve c.offset size).ring z := by
    rw [hwf.carve_eq hc, if_pos hsplit]
    refine hopened.edit hwf hedit ?_ hring
    intro o ho
    simp only [List.mem_cons, List.not_mem_nil, or_false] at ho
    rcases ho with rfl | rfl | rfl | rfl
    · exact .inl (by omega)
    · exact .inl (by omega)
    · exact touched_link hv (.inr rfl)
    · exact touched_link hw (.inl rfl)
  refine ⟨links, t, u, x, y, z, hlinks, ht, hx, hnext, hu, hy,
    hrest.requireNode (by simp only; omega) rfl, hz,
    Opened.carved ha hc hfree hmin hmod hopened' ?_, hopened'.confined⟩
  intro d hd
  -- The links that were written are those of nodes, or lie right behind the new header.
  rcases mem_pieces hd with ⟨hoff, -, hlen⟩ | ⟨-, rfl⟩
  · exact (htagged d hd).of_edit hedit (by simp; omega) (by simp; omega)
  · exact hrest.of_edit hedit (by simp; omega) (by simp; omega)

/-- **Placing is carving.** The header then says how much was handed out. -/
theorem Represents.place_spec (ha : a.Represents m) (hc : c ∈ m.cells) (hfree : c.allocated = false)
    (hmin : 32 ≤ size) (hmod : size % 16 = 0) (hfit : size ≤ c.size) :
    ∃ x, a.place c.offset size = .ok x ∧ x.Represents (m.carve c.offset size) ∧
      a.Confined m c.offset (c.offset + c.size) x := by
  obtain ⟨s, hs, hsize, -⟩ := ha.header hc
  have hleft : subOffset s.size size = .ok (c.size - size) := by
    rw [hsize]
    exact subOffset_of_le hfit
  by_cases hsplit : size + 32 ≤ c.size
  · obtain ⟨links, t, u, x, y, z, hlinks, ht, hx, hnext, hu, hy, hreq, hz, hrep, hconf⟩ :=
      ha.place_split hc hfree hmin hmod hsplit
    refine ⟨z, ?_, hrep, hconf⟩
    simp only [place, hs, hleft, bind, Except.bind]
    rw [if_pos (by simp; omega)]
    simp only [hlinks, ht, hx, hnext, hu, hy, hreq, hz]
  · obtain ⟨t, x, y, hx, ht, hy, hrep, hconf⟩ := ha.place_whole hc hfree hmin hmod hsplit
    refine ⟨y, ?_, hrep, hconf⟩
    simp only [place, hs, hleft, bind, Except.bind]
    rw [if_neg (by simp; omega)]
    simp only [hx, hsize, ht, hy]

end Arena
end BoundaryHeap
