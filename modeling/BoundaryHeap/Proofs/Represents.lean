import BoundaryHeap.Proofs.Maps
import BoundaryHeap.Proofs.Rings
import BoundaryHeap.Heap.Sound

/-!
# What the bytes represent

An arena represents a block map if the map is well formed and the bytes say so: both tag words of
every block, the sentinels, and the links of the ring. An operation on the bytes is then verified in
two parts that do not know of each other. The map says which blocks there are afterwards; the bytes
of the few new ones are the operation's business; and **all other blocks are still there because
every word that was written lies in the span of the new ones or is a link** (`Represents.update`).
The same fact keeps the contents of the allocated blocks (`Represents.kept`).
-/

set_option autoImplicit false

namespace BoundaryHeap
namespace Arena

/-- Both tag words of the block say what the cell says. -/
def Tagged (a : Arena) (c : Cell) : Prop :=
  ∃ t : Tag, t.size = c.size ∧ t.allocated = c.allocated ∧
    a.tagAt (c.offset - 8) = .ok t ∧ a.tagAt (c.offset + c.size - 16) = .ok t

structure Represents (a : Arena) (m : BlockMap) : Prop where
  wellFormed : m.WellFormed
  brk_eq : a.brk = m.brk
  sentinel : a.Tagged ⟨16, 32, true⟩
  epilogue : a.tagAt (a.brk - 8) = .ok Tag.epilogue
  tags : ∀ c ∈ m.cells, a.Tagged c
  isRing : a.IsRing m.ring

variable {a b : Arena} {m m' : BlockMap} {c d : Cell} {p q w lo hi : Nat} {ws ring : List Nat}

/-! ## Reading -/

theorem Tagged.header (h : a.Tagged c) (hlow : 8 ≤ c.offset) :
    ∃ t, a.header c.offset = .ok t ∧ t.size = c.size ∧ t.allocated = c.allocated := by
  obtain ⟨t, hsize, halloc, hhead, -⟩ := h
  exact ⟨t, (header_eq hlow).trans hhead, hsize, halloc⟩

theorem Tagged.of_edit (h : a.Tagged c) (hedit : a.Edit ws b)
    (hhead : ∀ w ∈ ws, c.offset - 8 + 8 ≤ w ∨ w + 8 ≤ c.offset - 8)
    (hfoot : ∀ w ∈ ws, c.offset + c.size - 16 + 8 ≤ w ∨ w + 8 ≤ c.offset + c.size - 16) :
    b.Tagged c := by
  obtain ⟨t, hsize, halloc, hhead', hfoot'⟩ := h
  exact ⟨t, hsize, halloc, (hedit.tagAt_eq hhead).trans hhead', (hedit.tagAt_eq hfoot).trans hfoot'⟩

theorem Represents.brk_ge (h : a.Represents m) : 48 ≤ a.brk := h.brk_eq ▸ h.wellFormed.brk_ge

theorem Represents.header (h : a.Represents m) (hc : c ∈ m.cells) :
    ∃ t, a.header c.offset = .ok t ∧ t.size = c.size ∧ t.allocated = c.allocated :=
  (h.tags c hc).header (Nat.le_trans (by decide) (h.wellFormed.mem hc).1)

/-! ## Which words an operation on a span may touch -/

/-- The words of the span, from the header of its first block to the footer of its last, and the
links of the ring. -/
def Touched (m : BlockMap) (lo hi w : Nat) : Prop :=
  (lo ≤ w + 8 ∧ w + 16 ≤ hi) ∨ ∃ q, (q = 16 ∨ q ∈ m.ring) ∧ (w = q ∨ w = q + 8)

theorem Touched.mono {lo' hi' : Nat} (hw : Touched m lo hi w) (hlo : lo' ≤ lo) (hhi : hi ≤ hi') :
    Touched m lo' hi' w := by
  apply hw.imp_left
  intro hspan
  omega

theorem touched_link {n : Nat} (hq : q = 16 ∨ q ∈ m.ring) (hn : n = q ∨ n = q + 8) :
    Touched m lo hi n :=
  .inr ⟨q, hq, hn⟩

/-- The nodes, the sentinel with them, are blocks among the blocks. -/
theorem node_apart (h : m.WellFormed) (hc : c ∈ m.cells ∨ c = ⟨16, 32, true⟩)
    (hq : q = 16 ∨ q ∈ m.ring) : q = c.offset ∨ q + 32 ≤ c.offset ∨ c.offset + c.size ≤ q := by
  -- The sentinel's block is no cell, so it is a case of its own on both sides.
  rcases hc with hc | rfl
  · have hcm := h.mem hc
    rcases hq with rfl | hq
    · omega
    · obtain ⟨d, hd, rfl, -⟩ := (h.mem_ring q).1 hq
      have hdm := h.mem hd
      rcases h.row.apart hd hc with rfl | hfar | hfar <;> omega
  · rcases hq with rfl | hq
    · exact .inl rfl
    · exact .inr (.inr (h.node_bounds hq).1)

theorem node_apart_of_allocated (h : m.WellFormed) (hc : c ∈ m.cells) (halloc : c.allocated = true)
    (hq : q = 16 ∨ q ∈ m.ring) : q + 32 ≤ c.offset ∨ c.offset + c.size ≤ q := by
  have hcm := h.mem hc
  have hapart := node_apart h (.inl hc) hq
  rcases hq with rfl | hq
  · omega
  · have hout := h.nodes_outside hc halloc hq
    omega

/-- A node's links lie between the tags of its block, and so in no tag word at all. -/
theorem Touched.apart_tags (h : m.WellFormed) (hw : Touched m lo hi w)
    (hc : c ∈ m.cells ∨ c = ⟨16, 32, true⟩) (hout : c.offset + c.size ≤ lo ∨ hi ≤ c.offset) :
    (c.offset ≤ w ∨ w + 16 ≤ c.offset) ∧
      (c.offset + c.size ≤ w + 8 ∨ w + 24 ≤ c.offset + c.size) := by
  have hsize : 16 ≤ c.offset ∧ 32 ≤ c.size := by
    rcases hc with hc | rfl
    · have := h.mem hc
      omega
    · exact ⟨Nat.le_refl _, Nat.le_refl _⟩
  rcases hw with hspan | ⟨q, hq, hlink⟩
  · omega
  · have hapart := node_apart h hc hq
    omega

/-- No touched word reaches into the payload of an allocated block outside the span. -/
theorem Touched.apart_payload (h : m.WellFormed) (hw : Touched m lo hi w) (hc : c ∈ m.cells)
    (halloc : c.allocated = true) (hout : c.offset + c.size ≤ lo ∨ hi ≤ c.offset) :
    w + 8 ≤ c.offset ∨ c.offset + c.size ≤ w + 16 := by
  have hcm := h.mem hc
  rcases hw with hspan | ⟨q, hq, hlink⟩
  · omega
  · have hapart := node_apart_of_allocated h hc halloc hq
    omega

theorem Touched.apart_end {n : Nat} (h : m.WellFormed) (hw : Touched m lo hi w) (hhi : hi ≤ n)
    (hbrk : m.brk ≤ n) : w + 16 ≤ n := by
  rcases hw with hspan | ⟨q, rfl | hq, hlink⟩
  · omega
  · have := h.brk_ge
    omega
  · have := h.node_bounds hq
    omega

/-! ## Edits that stay inside the touched words

The mark may move up meanwhile, and nothing is said of the bytes above the old one. -/

/-- `b` has every byte of `a` that lies in no touched word. -/
structure Confined (a : Arena) (m : BlockMap) (lo hi : Nat) (b : Arena) : Prop where
  brk_le : a.brk ≤ b.brk
  reserved_eq : b.reserved = a.reserved
  byte_eq : ∀ i < a.brk, (∀ w, Touched m lo hi w → i < w ∨ w + 8 ≤ i) → b.byte? i = a.byte? i

theorem Confined.refl (a : Arena) (m : BlockMap) (lo hi : Nat) : a.Confined m lo hi a :=
  ⟨Nat.le_refl _, rfl, fun _ _ _ => rfl⟩

theorem Confined.trans {x : Arena} (hab : a.Confined m lo hi b) (hbx : b.Confined m lo hi x) :
    a.Confined m lo hi x := by
  refine ⟨Nat.le_trans hab.brk_le hbx.brk_le, hbx.reserved_eq.trans hab.reserved_eq, ?_⟩
  intro i hi hout
  rw [hbx.byte_eq i (Nat.lt_of_lt_of_le hi hab.brk_le) hout, hab.byte_eq i hi hout]

theorem Confined.mono {lo' hi' : Nat} (h : a.Confined m lo hi b) (hlo : lo' ≤ lo) (hhi : hi ≤ hi') :
    a.Confined m lo' hi' b :=
  ⟨h.brk_le, h.reserved_eq, fun i hi hout => h.byte_eq i hi fun w hw => hout w (hw.mono hlo hhi)⟩

theorem Edit.confined (h : a.Edit ws b) (hws : ∀ w ∈ ws, Touched m lo hi w ∨ a.brk ≤ w) :
    a.Confined m lo hi b := by
  refine ⟨Nat.le_of_eq h.brk_eq.symm, h.reserved_eq, fun i hi hout => h.byte_eq i fun w hw => ?_⟩
  rcases hws w hw with htouched | habove
  · exact hout w htouched
  · exact .inl (Nat.lt_of_lt_of_le hi habove)

theorem Confined.tagAt_eq {o : Nat} (h : a.Confined m lo hi b) (hin : o + 8 ≤ a.brk)
    (hout : ∀ w, Touched m lo hi w → o + 8 ≤ w ∨ w + 8 ≤ o) : b.tagAt o = a.tagAt o := by
  have hword : b.readWord o = a.readWord o := by
    apply readWord_congr hin (Nat.le_trans hin h.brk_le)
    intro i hlow hhigh
    apply h.byte_eq i (Nat.lt_of_lt_of_le hhigh hin)
    intro w hw
    have := hout w hw
    omega
  rw [tagAt, tagAt, hword]

theorem Confined.tagged (hconf : a.Confined m lo hi b) (h : a.Represents m)
    (hc : c ∈ m.cells ∨ c = ⟨16, 32, true⟩) (hout : c.offset + c.size ≤ lo ∨ hi ≤ c.offset) :
    b.Tagged c := by
  have hwf := h.wellFormed
  have hbrk := h.brk_eq
  have hbounds : 16 ≤ c.offset ∧ 32 ≤ c.size ∧ c.offset + c.size ≤ a.brk := by
    rcases hc with hc | rfl
    · have := hwf.mem hc
      omega
    · have := h.brk_ge
      simp only
      omega
  obtain ⟨t, hsize, halloc, hhead, hfoot⟩ : a.Tagged c :=
    hc.elim (h.tags c) fun hp => hp ▸ h.sentinel
  refine ⟨t, hsize, halloc, ?_, ?_⟩
  · rw [hconf.tagAt_eq (by omega) fun w hw => ?_, hhead]
    have := (hw.apart_tags hwf hc hout).1
    omega
  · rw [hconf.tagAt_eq (by omega) fun w hw => ?_, hfoot]
    have := (hw.apart_tags hwf hc hout).2
    omega

/-- **The frame rule.** An operation on a span has to show the new blocks, the ring and the
epilogue; the blocks outside the span are still there. -/
theorem Represents.update (h : a.Represents m) (hconf : a.Confined m lo hi b) (hlo : 48 ≤ lo)
    (hwf : m'.WellFormed) (hbrk : b.brk = m'.brk) (hepi : b.tagAt (b.brk - 8) = .ok Tag.epilogue)
    (hring : b.IsRing m'.ring)
    (hcells : ∀ c ∈ m'.cells,
      (c ∈ m.cells ∧ (c.offset + c.size ≤ lo ∨ hi ≤ c.offset)) ∨ b.Tagged c) :
    b.Represents m' := by
  refine ⟨hwf, hbrk, hconf.tagged h (.inr rfl) (.inl hlo), hepi, ?_, hring⟩
  intro c hc
  rcases hcells c hc with ⟨hold, hout⟩ | hnew
  · exact hconf.tagged h (.inl hold) hout
  · exact hnew

/-- Bytes of an allocated block outside the span are what they were. -/
theorem Represents.kept (h : a.Represents m) (hconf : a.Confined m lo hi b) (hc : c ∈ m.cells)
    (halloc : c.allocated = true) (hout : c.offset + c.size ≤ lo ∨ hi ≤ c.offset) {i : Nat}
    (hlow : c.offset ≤ i) (hhigh : i + 16 < c.offset + c.size) : b.byte? i = a.byte? i := by
  have hcm := h.wellFormed.mem hc
  have hbrk := h.brk_eq
  apply hconf.byte_eq i (by omega)
  intro w hw
  have := hw.apart_payload h.wellFormed hc halloc hout
  omega

/-! ## The ring under edits of other words -/

theorem IsRing.frame (h : a.IsRing ring) (hbrk : a.brk ≤ b.brk)
    (hnext : ∀ q, q = prologue ∨ q ∈ ring → b.nextLink q = a.nextLink q)
    (hprev : ∀ q, q = prologue ∨ q ∈ ring → b.prevLink q = a.prevLink q) : b.IsRing ring := by
  have hrow : ∀ q ∈ prologue :: ring ++ [prologue], q = prologue ∨ q ∈ ring := by
    intro q hq
    simp only [List.cons_append, List.mem_cons, List.mem_append, List.not_mem_nil, or_false] at hq
    tauto
  refine ⟨h.linked.frame ?_ ?_, h.nodup, ?_⟩
  · intro q hq
    exact hnext q (hrow q (List.dropLast_subset _ hq))
  · intro q hq
    exact hprev q (hrow q (List.mem_of_mem_tail hq))
  · intro q hq
    have hold := h.place q hq
    exact ⟨hold.aligned, hold.above, Nat.le_trans hold.below hbrk⟩

/-- Bytes above the old mark belong to no node. -/
theorem IsRing.of_extend (h : a.IsRing ring) (hle : a.brk ≤ b.brk)
    (hbyte : ∀ i < a.brk, b.byte? i = a.byte? i) : b.IsRing ring := by
  have hword : ∀ o, o + 8 ≤ a.brk → b.readWord o = a.readWord o := by
    intro o ho
    exact readWord_congr ho (Nat.le_trans ho hle) fun i _ hhigh => hbyte i (by omega)
  refine h.frame hle ?_ ?_
  · intro q hq
    have hnode := h.node hq
    rw [nextLink, nextLink, readOffset, readOffset, hword _ (by simp only [wordSize]; omega)]
  · intro q hq
    have hnode := h.node hq
    rw [prevLink, prevLink, readOffset, readOffset, hword _ (by omega)]

theorem IsRing.of_edit (h : a.IsRing ring) (hedit : a.Edit ws b)
    (hout : ∀ w ∈ ws, ∀ q, q = prologue ∨ q ∈ ring → w + 8 ≤ q ∨ q + 16 ≤ w) : b.IsRing ring := by
  refine h.frame (Nat.le_of_eq hedit.brk_eq.symm) ?_ ?_
  · intro q hq
    apply hedit.readOffset_eq
    intro w hw
    have := hout w hw q hq
    simp only [wordSize]
    omega
  · intro q hq
    apply hedit.readOffset_eq
    intro w hw
    have := hout w hw q hq
    omega

end Arena
end BoundaryHeap
