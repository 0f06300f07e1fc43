import BoundaryHeap.Proofs.Views

/-!
# Merging

Releasing and growing end the same way: a block that says free, but that the ring does not have yet,
is merged with its free neighbours and put at the head of the ring. The four shapes of `Arena.merge`
are **one sequence of steps**, of which some are left out: take the neighbours out of the ring
(`Opened.remove`), write the tags of the whole span (`Opened.retag`), put it at the head
(`Opened.close`). What holds between the steps is `Opened`.
-/

set_option autoImplicit false

namespace BoundaryHeap
namespace Arena

open BlockMap (Seam freeBefore freeAfter)

variable {a b : Arena} {m : BlockMap} {c : Cell} {p q lo hi stop : Nat} {ws ring ring' : List Nat}

/-- Nothing but words of the span and links differs from `a`, whose blocks are those of `m`. The
heap ends where `m` or the span does, and its ring has the given nodes. -/
structure Opened (a : Arena) (m : BlockMap) (lo hi : Nat) (ring : List Nat) (b : Arena) : Prop where
  confined : a.Confined m lo hi b
  brk_eq : b.brk = max m.brk hi
  epilogue : b.tagAt (b.brk - 8) = .ok Tag.epilogue
  isRing : b.IsRing ring

theorem Opened.mono {lo' hi' : Nat} (h : a.Opened m lo hi ring b) (hlo : lo' ≤ lo) (hhi : hi ≤ hi')
    (hmax : hi' ≤ max m.brk hi) : a.Opened m lo' hi' ring b := by
  refine ⟨h.confined.mono hlo hhi, ?_, h.epilogue, h.isRing⟩
  have := h.brk_eq
  omega

theorem Opened.brk_ge (h : a.Opened m lo hi ring b) (hwf : m.WellFormed) : 48 ≤ b.brk := by
  have := h.brk_eq
  have := hwf.brk_ge
  omega

theorem Opened.edit {x : Arena} (h : a.Opened m lo hi ring b) (hwf : m.WellFormed)
    (hedit : b.Edit ws x) (hws : ∀ w ∈ ws, Touched m lo hi w) (hring : x.IsRing ring') :
    a.Opened m lo hi ring' x := by
  have hbrk := h.brk_eq
  refine ⟨h.confined.trans (hedit.confined fun w hw => .inl (hws w hw)), hedit.brk_eq.trans hbrk,
    ?_, hring⟩
  have hge := h.brk_ge hwf
  rw [hedit.brk_eq, hedit.tagAt_eq fun w hw => ?_, h.epilogue]
  have := (hws w hw).apart_end hwf (n := b.brk) (by omega) (by omega)
  omega

/-! ## The steps -/

theorem Opened.remove (h : a.Opened m lo hi ring b) (hwf : m.WellFormed) (hsub : ring ⊆ m.ring)
    (hq : q ∈ ring) :
    ∃ x, b.removeNode q = .ok x ∧ a.Opened m lo hi (ring.filter (· ≠ q)) x := by
  obtain ⟨x, u, v, hx, hflanks, hedit, hring⟩ := h.isRing.removeNode_spec hq
  obtain ⟨hu, hv⟩ := hflanks.nodes
  refine ⟨x, hx, h.edit hwf hedit ?_ hring⟩
  intro w hw
  rcases List.mem_pair.1 hw with rfl | rfl
  · exact touched_link (hu.imp_right fun hm => hsub hm) (.inr rfl)
  · exact touched_link (hv.imp_right fun hm => hsub hm) (.inl rfl)

theorem Opened.retag (h : a.Opened m lo hi ring b) (hwf : m.WellFormed) (hlo : m.Seam lo)
    (hhi : m.Seam hi) (hlen : lo + 32 ≤ hi)
    (hring : ∀ q ∈ ring, q ∈ m.ring ∧ (q < lo ∨ hi ≤ q)) (allocated : Bool) :
    ∃ t x, Tag.ofSize (hi - lo) allocated = .ok t ∧ b.setTags lo t = .ok x ∧
      a.Opened m lo hi ring x ∧ x.Tagged ⟨lo, hi - lo, allocated⟩ := by
  have hmod := hlo.aligned
  have hmod' := hhi.aligned
  have hlow := hlo.low
  have hbrk := h.brk_eq
  have hlt := b.brk_lt
  obtain ⟨t, ht⟩ : ∃ t : Tag, t.size = hi - lo ∧ t.allocated = allocated :=
    ⟨⟨hi - lo, allocated, by omega, by omega⟩, rfl, rfl⟩
  obtain ⟨x, hx, hedit, hhead, hfoot⟩ :=
    setTags_spec (a := b) (p := lo) (t := t) (by omega) (by omega) (by omega)
  rw [ht.1] at hedit hfoot
  refine ⟨t, x, Tag.ofSize_eq_ok_iff.2 ht, hx, h.edit hwf hedit ?_ ?_,
    ⟨t, ht.1, ht.2, hhead, hfoot⟩⟩
  · intro w hw
    rcases List.mem_pair.1 hw with rfl | rfl
    · exact .inl (by omega)
    · exact .inl (by omega)
  · apply h.isRing.of_edit hedit
    intro w hw q hq
    have hapart : q + 32 ≤ lo ∨ hi ≤ q := by
      rcases hq with rfl | hq
      · simp only [prologue, wordSize]
        omega
      · exact (hwf.node_outside hlo (hring q hq).1 (hring q hq).2).2
    rcases List.mem_pair.1 hw with rfl | rfl <;> omega

theorem requireNode_eq {t : Tag} (h : b.header p = .ok t) (hfree : t.allocated = false) :
    b.requireNode p = .ok () := by
  have hnode : b.isNode p = .ok true := by
    unfold isNode
    split
    · rfl
    · simp [h, Except.map, Tag.isFree, hfree]
  simp only [requireNode, hnode, bind, Except.bind]
  rfl

theorem Tagged.requireNode (h : b.Tagged c) (hlow : 8 ≤ c.offset) (hfree : c.allocated = false) :
    b.requireNode c.offset = .ok () := by
  obtain ⟨t, ht, -, halloc⟩ := h.header hlow
  exact requireNode_eq ht (halloc.trans hfree)

/-- The last step, after which the arena represents a map again. -/
theorem Opened.close (ha : a.Represents m)
    (h : a.Opened m lo hi (m.ring.filter fun q => q < lo || hi ≤ q) b)
    (hown : b.Tagged ⟨lo, hi - lo, false⟩) (hlo : m.Seam lo) (hhi : m.Seam hi) (hin : lo ≤ m.brk)
    (hlen : lo + 32 ≤ hi) (hbefore : ∀ c ∈ m.cells, c.offset + c.size = lo → c.allocated = true)
    (hafter : ∀ c ∈ m.cells, c.offset = hi → c.allocated = true) :
    b.requireNode lo = .ok () ∧ ∃ x, b.insertAtHead lo = .ok x ∧ x.Represents (m.free lo hi) ∧
      a.Confined m lo hi x := by
  have hwf := ha.wellFormed
  have hbrk := h.brk_eq
  have hlow := hlo.low
  have hplace : b.IsPlace lo := ⟨hlo.aligned, by omega, by omega⟩
  have hring : ∀ q ∈ m.ring.filter (fun q => q < lo || hi ≤ q), q ∈ m.ring ∧ (q < lo ∨ hi ≤ q) :=
    fun q hq => by simpa using hq
  have hnew : lo ∉ m.ring.filter fun q => q < lo || hi ≤ q := fun hmem => by
    have := (hring lo hmem).2
    omega
  obtain ⟨x, y, hx, hy, hedit, hisRing⟩ := h.isRing.insertAtHead_spec hplace hnew
  have hy' : y = 16 ∨ y ∈ m.ring := hy.imp_right fun hm => (hring y hm).1
  have hx' : a.Opened m lo hi (lo :: m.ring.filter fun q => q < lo || hi ≤ q) x := by
    refine h.edit hwf hedit ?_ hisRing
    intro w hw
    simp only [List.mem_cons, List.not_mem_nil, or_false] at hw
    rcases hw with rfl | rfl | rfl | rfl
    · exact .inl (by omega)
    · exact .inl (by omega)
    · exact touched_link hy' (.inl rfl)
    · exact touched_link (.inl rfl) (.inr rfl)
  have hapart : y + 32 ≤ lo ∨ hi ≤ y := by
    rcases hy with rfl | hm
    · simp only [prologue, wordSize]
      omega
    · exact (hwf.node_outside hlo (hring y hm).1 (hring y hm).2).2
  have hown' : x.Tagged ⟨lo, hi - lo, false⟩ :=
    hown.of_edit hedit (by simp; omega) (by simp; omega)
  refine ⟨hown.requireNode (by simp only; omega) rfl, x, hx, ?_, hx'.confined⟩
  refine ha.update hx'.confined hlow (hwf.free hlo hhi hin hlen hbefore hafter) ?_ hx'.epilogue
    hx'.isRing ?_
  · rw [hwf.brk_free hlo hhi hin hlen]
    exact hx'.brk_eq
  · intro c hc
    rcases m.mem_free_cells.1 hc with ⟨hc, hlt⟩ | rfl | ⟨hc, hge⟩
    · exact .inl ⟨hc, .inl ((hlo.uncut c hc).resolve_right (by omega))⟩
    · exact .inr hown'
    · exact .inl ⟨hc, .inr hge⟩

/-! ## The neighbours

What the two tag words next to a block say is what the map says of its neighbours. -/

theorem Opened.below (ha : a.Represents m) (h : a.Opened m p stop ring b) (hp : m.Seam p)
    (hin : p ≤ m.brk) :
    ∃ t, b.prevFooter p = .ok t ∧
      if t.allocated then m.freeBefore p = none
      else ∃ d, m.freeBefore p = some d ∧ d.offset + t.size = p := by
  have hwf := ha.wellFormed
  have hlow := hp.low
  rw [prevFooter_eq (by omega)]
  -- Below the first block stands the sentinel, which says allocated.
  rcases hwf.ends hp hin with rfl | ⟨d, hd, rfl⟩
  · obtain ⟨t, -, halloc, -, hfoot⟩ := h.confined.tagged ha (.inr rfl) (.inl hlow)
    refine ⟨t, hfoot, ?_⟩
    rw [if_pos halloc]
    exact hwf.freeBefore_first
  · obtain ⟨t, hsize, halloc, -, hfoot⟩ := h.confined.tagged ha (.inl hd) (.inl (Nat.le_refl _))
    refine ⟨t, hfoot, ?_⟩
    rw [halloc, hwf.freeBefore_stop hd]
    split
    · rfl
    · exact ⟨d, rfl, by rw [hsize]⟩

theorem Opened.above (ha : a.Represents m) (h : a.Opened m p stop ring b) (hstop : m.Seam stop) :
    ∃ t, b.header stop = .ok t ∧
      if t.allocated then m.freeAfter stop = none else ∃ d, m.freeAfter stop = some d := by
  have hwf := ha.wellFormed
  have hlow := hstop.low
  have hends : m.brk ≤ stop ∨ ∃ d ∈ m.cells, d.offset = stop := by
    by_cases hle : stop ≤ m.brk
    · exact (hwf.starts hstop hle).imp_left fun heq => Nat.le_of_eq heq.symm
    · exact .inl (Nat.le_of_not_le hle)
  -- Above the last block stands the epilogue, which says allocated too.
  rcases hends with hle | ⟨d, hd, rfl⟩
  · have hbrk := h.brk_eq
    rw [Nat.max_eq_right hle] at hbrk
    refine ⟨Tag.epilogue, ?_, ?_⟩
    · rw [header_eq (by omega), ← hbrk]
      exact h.epilogue
    · show m.freeAfter stop = none
      exact hwf.freeAfter_end hle
  · obtain ⟨t, ht, -, halloc⟩ :=
      (h.confined.tagged ha (.inl hd) (.inr (Nat.le_refl _))).header (by omega)
    refine ⟨t, ht, ?_⟩
    rw [halloc, hwf.freeAfter_offset hd]
    split
    · rfl
    · exact ⟨d, rfl⟩

theorem Opened.neighbours_eq (ha : a.Represents m) (h : a.Opened m p stop ring b)
    (hown : b.Tagged ⟨p, stop - p, false⟩) (hp : m.Seam p) (hstop : m.Seam stop) (hin : p ≤ m.brk)
    (hle : p ≤ stop) :
    b.neighbours p =
      .ok ⟨(m.freeBefore p).map Cell.offset, (m.freeAfter stop).map Cell.offset⟩ := by
  have hlow := hp.low
  have hbrk := h.brk_eq
  have hlt := b.brk_lt
  obtain ⟨t, ht, hsize, -⟩ := hown.header (by simp only; omega)
  obtain ⟨below, hbelow, hbefore⟩ := h.below ha hp hin
  obtain ⟨above, habove, hafter⟩ := h.above ha hstop
  simp only at ht hsize
  have hnext : b.nextBlock p = .ok stop := by
    rw [nextBlock_eq ht (by omega)]
    congr 1
    omega
  have hafter' : (if above.isFree then some stop else none) =
      (m.freeAfter stop).map Cell.offset := by
    cases halloc : above.allocated with
    | true =>
      rw [halloc, if_pos rfl] at hafter
      rw [hafter, if_neg (by simp [Tag.isFree, halloc])]
      rfl
    | false =>
      rw [halloc, if_neg (by simp)] at hafter
      obtain ⟨d, hd⟩ := hafter
      rw [hd, if_pos (by simp [Tag.isFree, halloc]), Option.map_some,
        (BlockMap.freeAfter_eq_some hd).2.1]
  simp only [neighbours, ht, hbelow, hnext, habove, hafter', bind, Except.bind]
  cases halloc : below.allocated with
  | true =>
    rw [halloc, if_pos rfl] at hbefore
    rw [hbefore, if_neg (by simp [Tag.isFree, halloc])]
    rfl
  | false =>
    rw [halloc, if_neg (by simp)] at hbefore
    obtain ⟨d, hd, hoff⟩ := hbefore
    have hstart : p - below.size = d.offset := by omega
    rw [hd, if_pos (by simp [Tag.isFree, halloc]), prevBlock_eq hbelow (by omega), hstart]
    rfl

/-! ## The merge -/

/-- A span of allocated blocks, or of bytes that the heap has just got. -/
structure Gap (m : BlockMap) (p stop : Nat) : Prop where
  seam_start : m.Seam p
  seam_stop : m.Seam stop
  inside : p ≤ m.brk
  length : p + 32 ≤ stop
  noNode : ∀ q ∈ m.ring, q < p ∨ stop ≤ q

theorem Opened.node (ha : a.Represents m) (h : a.Opened m p stop ring b) (hc : c ∈ m.cells)
    (hfree : c.allocated = false) (hout : c.offset + c.size ≤ p ∨ stop ≤ c.offset) :
    c.offset ∈ m.ring ∧ b.requireNode c.offset = .ok () ∧
      ∃ t, b.header c.offset = .ok t ∧ t.size = c.size := by
  have hlow : 8 ≤ c.offset := Nat.le_trans (by decide) (ha.wellFormed.mem hc).1
  have htagged := h.confined.tagged ha (.inl hc) hout
  obtain ⟨t, ht, hsize, -⟩ := htagged.header hlow
  exact ⟨(ha.wellFormed.mem_ring _).2 ⟨c, hc, rfl, hfree⟩, htagged.requireNode hlow hfree,
    t, ht, hsize⟩

/-- What all shapes of a merge with a neighbour have in common, once the neighbours have left the
ring. -/
theorem Opened.finish (size : Nat) (ha : a.Represents m) (hgap : Gap m p stop)
    (hlo : m.startBefore p = lo) (hhi : m.stopAfter stop = hi)
    (h : a.Opened m lo hi (m.ring.filter fun q => q < lo || hi ≤ q) b) (hsize : lo + size = hi) :
    ∃ t x y, Tag.ofSize size false = .ok t ∧ b.setTags lo t = .ok x ∧ x.requireNode lo = .ok () ∧
      x.insertAtHead lo = .ok y ∧ y.Represents (m.free lo hi) ∧ a.Confined m lo hi y := by
  have hwf := ha.wellFormed
  have hlen := hgap.length
  have hin := hgap.inside
  obtain ⟨hseam, hle, hbefore, -⟩ := hwf.startBefore_spec hgap.seam_start
  obtain ⟨hseam', hge, -, hafter, -⟩ := hwf.stopAfter_spec hgap.seam_stop
  rw [hlo] at hseam hle hbefore
  rw [hhi] at hseam' hge hafter
  obtain ⟨t, x, ht, hx, hopened, hown⟩ :=
    h.retag hwf hseam hseam' (by omega) (fun q hq => by simpa using hq) false
  obtain ⟨hreq, y, hy, hrep, hconf⟩ :=
    hopened.close ha hown hseam hseam' (by omega) (by omega) hbefore hafter
  refine ⟨t, x, y, ?_, hx, hreq, hy, hrep, hconf⟩
  rw [← ht]
  congr 1
  omega

theorem Opened.widen (ha : a.Represents m) (h : a.Opened m p stop ring b) (hgap : Gap m p stop)
    (hlo : m.startBefore p = lo) (hhi : m.stopAfter stop = hi) : a.Opened m lo hi ring b := by
  obtain ⟨-, hle, -⟩ := ha.wellFormed.startBefore_spec hgap.seam_start
  obtain ⟨-, hge, hmax, -⟩ := ha.wellFormed.stopAfter_spec hgap.seam_stop
  rw [hlo] at hle
  rw [hhi] at hge hmax
  exact h.mono hle hge hmax

/-- Merging gives the free block from `lo` to `hi`, and the arena represents the map with it. -/
def MergesTo (a b : Arena) (m : BlockMap) (p : Nat) (around : Neighbours) (lo hi : Nat) : Prop :=
  ∃ x, b.merge p around = .ok (lo, x) ∧ x.Represents (m.free lo hi) ∧ a.Confined m lo hi x

section Shapes

variable (ha : a.Represents m) (h : a.Opened m p stop m.ring b)
  (hown : b.Tagged ⟨p, stop - p, false⟩) (hgap : Gap m p stop)

include ha h hown hgap

theorem Opened.merge_neither (hbefore : m.freeBefore p = none) (hafter : m.freeAfter stop = none) :
    MergesTo a b m p ⟨none, none⟩ p stop := by
  have hlen := hgap.length
  have hkept : m.ring.filter (fun q => q < p || stop ≤ q) = m.ring :=
    List.filter_eq_self.2 fun q hq => by simpa using hgap.noNode q hq
  rw [← hkept] at h
  obtain ⟨hreq, x, hx, hrep, hconf⟩ :=
    h.close ha hown hgap.seam_start hgap.seam_stop hgap.inside hlen
      (fun c hc hstop => BlockMap.freeBefore_eq_none hbefore hc hstop)
      (fun c hc hoff => BlockMap.freeAfter_eq_none hafter hc hoff)
  refine ⟨x, ?_, hrep, hconf⟩
  simp only [merge, hreq, hx, bind, Except.bind]
  rfl

theorem Opened.merge_after {e : Cell} (hbefore : m.freeBefore p = none)
    (hafter : m.freeAfter stop = some e) :
    MergesTo a b m p ⟨none, some e.offset⟩ p (e.offset + e.size) := by
  have hwf := ha.wellFormed
  have hlow := hgap.seam_start.low
  have hlt := b.brk_lt
  have hbrk := h.brk_eq
  obtain ⟨he, hoff, hfree⟩ := BlockMap.freeAfter_eq_some hafter
  have hem := hwf.mem he
  have hlo := BlockMap.startBefore_of_none hbefore
  have hhi := BlockMap.stopAfter_of_some hafter
  have hlen := hgap.length
  obtain ⟨t, ht, hsize, -⟩ := hown.header (by simp only; omega)
  simp only at ht hsize
  obtain ⟨hnode, hreq, s, hs, hssize⟩ := h.node ha he hfree (.inr (by omega))
  have hsum : addOffset t.size s.size = .ok (t.size + s.size) := addOffset_of_lt (by omega)
  obtain ⟨x₁, hx₁, h₁⟩ := (h.widen ha hgap hlo hhi).remove hwf (List.Subset.refl _) hnode
  have hring := hwf.ring_outside hgap.seam_start hgap.seam_stop (by omega) hgap.noNode
  have hleft : m.ring.filter (fun q => q < p || e.offset + e.size ≤ q) =
      m.ring.filter (· ≠ e.offset) := by simpa [hlo, hhi, hbefore, hafter] using hring
  rw [← hleft] at h₁
  obtain ⟨u, x₂, y, hu, hx₂, hreq₂, hy, hrep, hconf⟩ :=
    h₁.finish (t.size + s.size) ha hgap hlo hhi (by omega)
  refine ⟨y, ?_, hrep, hconf⟩
  simp only [merge, ht, hs, hsum, hreq, hx₁, hu, hx₂, hreq₂, hy, bind, Except.bind]
  rfl

theorem Opened.merge_before {d : Cell} (hbefore : m.freeBefore p = some d)
    (hafter : m.freeAfter stop = none) : MergesTo a b m p ⟨some d.offset, none⟩ d.offset stop := by
  have hwf := ha.wellFormed
  have hlow := hgap.seam_start.low
  have hlt := b.brk_lt
  have hbrk := h.brk_eq
  obtain ⟨hd, hstop, hfree⟩ := BlockMap.freeBefore_eq_some hbefore
  have hdm := hwf.mem hd
  have hlo := BlockMap.startBefore_of_some hbefore
  have hhi := BlockMap.stopAfter_of_none hafter
  have hlen := hgap.length
  obtain ⟨t, ht, hsize, -⟩ := hown.header (by simp only; omega)
  simp only at ht hsize
  obtain ⟨hnode, hreq, s, hs, hssize⟩ := h.node ha hd hfree (.inl (by omega))
  have hsum : addOffset t.size s.size = .ok (t.size + s.size) := addOffset_of_lt (by omega)
  obtain ⟨x₁, hx₁, h₁⟩ := (h.widen ha hgap hlo hhi).remove hwf (List.Subset.refl _) hnode
  have hring := hwf.ring_outside hgap.seam_start hgap.seam_stop (by omega) hgap.noNode
  have hleft : m.ring.filter (fun q => q < d.offset || stop ≤ q) =
      m.ring.filter (· ≠ d.offset) := by
    simpa [hlo, hhi, hbefore, hafter] using hring
  rw [← hleft] at h₁
  obtain ⟨u, x₂, y, hu, hx₂, hreq₂, hy, hrep, hconf⟩ :=
    h₁.finish (t.size + s.size) ha hgap hlo hhi (by omega)
  refine ⟨y, ?_, hrep, hconf⟩
  simp only [merge, ht, hs, hsum, hreq, hx₁, hu, hx₂, hreq₂, hy, bind, Except.bind]
  rfl

theorem Opened.merge_both {d e : Cell} (hbefore : m.freeBefore p = some d)
    (hafter : m.freeAfter stop = some e) :
    MergesTo a b m p ⟨some d.offset, some e.offset⟩ d.offset (e.offset + e.size) := by
  have hwf := ha.wellFormed
  have hlow := hgap.seam_start.low
  have hlt := b.brk_lt
  have hbrk := h.brk_eq
  obtain ⟨hd, hstop, hfree⟩ := BlockMap.freeBefore_eq_some hbefore
  obtain ⟨he, hoff, hfree'⟩ := BlockMap.freeAfter_eq_some hafter
  have hdm := hwf.mem hd
  have hem := hwf.mem he
  have hlo := BlockMap.startBefore_of_some hbefore
  have hhi := BlockMap.stopAfter_of_some hafter
  have hlen := hgap.length
  obtain ⟨t, ht, hsize, -⟩ := hown.header (by simp only; omega)
  simp only at ht hsize
  obtain ⟨hnode, hreq, s, hs, hssize⟩ := h.node ha hd hfree (.inl (by omega))
  obtain ⟨hnode', hreq', s', hs', hssize'⟩ := h.node ha he hfree' (.inr (by omega))
  have hothers : addOffset s.size s'.size = .ok (s.size + s'.size) := addOffset_of_lt (by omega)
  have hsum : addOffset t.size (s.size + s'.size) = .ok (t.size + (s.size + s'.size)) :=
    addOffset_of_lt (by omega)
  obtain ⟨x₁, hx₁, h₁⟩ := (h.widen ha hgap hlo hhi).remove hwf (List.Subset.refl _) hnode
  have hstill : e.offset ∈ m.ring.filter (· ≠ d.offset) := by
    refine List.mem_filter.2 ⟨hnode', ?_⟩
    simp
    omega
  obtain ⟨x₂, hx₂, h₂⟩ := h₁.remove hwf List.filter_sublist.subset hstill
  have hring := hwf.ring_outside hgap.seam_start hgap.seam_stop (by omega) hgap.noNode
  have hleft : m.ring.filter (fun q => q < d.offset || e.offset + e.size ≤ q) =
      (m.ring.filter (· ≠ d.offset)).filter (· ≠ e.offset) := by
    simpa [hlo, hhi, hbefore, hafter] using hring
  rw [← hleft] at h₂
  obtain ⟨u, x₃, y, hu, hx₃, hreq₃, hy, hrep, hconf⟩ :=
    h₂.finish (t.size + (s.size + s'.size)) ha hgap hlo hhi (by omega)
  refine ⟨y, ?_, hrep, hconf⟩
  simp only [merge, ht, hs, hs', hothers, hsum, hreq, hreq', hx₁, hx₂, hu, hx₃, hreq₃, hy, bind,
    Except.bind]
  rfl

/-- **Coalescing is freeing the merged span,** whichever of the neighbours are free. -/
theorem Opened.coalesce_spec :
    ∃ x, b.coalesce p = .ok (m.startBefore p, x) ∧
      x.Represents (m.free (m.startBefore p) (m.stopAfter stop)) ∧
      a.Confined m (m.startBefore p) (m.stopAfter stop) x := by
  have hlen := hgap.length
  have hmerge : MergesTo a b m p
      ⟨(m.freeBefore p).map Cell.offset, (m.freeAfter stop).map Cell.offset⟩
      (m.startBefore p) (m.stopAfter stop) := by
    rw [BlockMap.startBefore_eq, BlockMap.stopAfter_eq]
    cases hbefore : m.freeBefore p with
    | none =>
      cases hafter : m.freeAfter stop with
      | none => exact h.merge_neither ha hown hgap hbefore hafter
      | some e => exact h.merge_after ha hown hgap hbefore hafter
    | some d =>
      cases hafter : m.freeAfter stop with
      | none => exact h.merge_before ha hown hgap hbefore hafter
      | some e => exact h.merge_both ha hown hgap hbefore hafter
  obtain ⟨x, hx, hrep, hconf⟩ := hmerge
  refine ⟨x, ?_, hrep, hconf⟩
  simp only [coalesce, bind, Except.bind,
    h.neighbours_eq ha hown hgap.seam_start hgap.seam_stop hgap.inside (by omega)]
  exact hx

end Shapes

end Arena
end BoundaryHeap
