import BoundaryHeap.Proofs.Audits
import BoundaryHeap.Proofs.Isolation

/-!
# Giving back in any order

A released block is merged with what is free around it at the time, so each order of releasing some
blocks goes through maps of its own. **All orders end in the same one,** but for the order of the
search (`reached_releaseAll`).

No two releases are swapped in the proof. A row without free neighbours is determined by its ends
and its allocated blocks (`Row.unique`), and both are the same after any order. The row can also be
had at once: mark the blocks free where they stand, and make each run of free blocks one
(`joinFree`).
-/

set_option autoImplicit false

namespace BoundaryHeap

/-! ## The row that is left -/

/-- The row with the blocks at these offsets marked free. -/
def marked (ps : List Nat) (cells : List Cell) : List Cell :=
  cells.map fun c => if c.offset ∈ ps then { c with allocated := false } else c

/-- A block in front of a row, made one with the first block if both are free. -/
def joinCons (c : Cell) : List Cell → List Cell
  | [] => [c]
  | d :: rest =>
    if c.allocated || d.allocated then c :: d :: rest
    else ⟨c.offset, c.size + d.size, false⟩ :: rest

/-- The row with every maximal run of adjacent free blocks made one. -/
def joinFree (cells : List Cell) : List Cell :=
  cells.foldr joinCons []

/-- No two neighbours are free. -/
def Joined (cells : List Cell) : Prop :=
  cells.IsChain fun c d => c.allocated = true ∨ d.allocated = true

variable {p q stop : Nat} {c d e : Cell} {cells xs ys : List Cell} {ps qs live : List Nat}
  {m : BlockMap} {heap next x y : Heap} {settings : Settings} {history : List Turn}

theorem row_marked (h : Row p cells stop) : Row p (marked ps cells) stop := by
  induction cells generalizing p with
  | nil => exact h
  | cons c rest ih =>
    obtain ⟨rfl, hmin, hmod, hrest⟩ := h
    rw [marked, List.map_cons]
    split
    · exact ⟨rfl, hmin, hmod, ih hrest⟩
    · exact ⟨rfl, hmin, hmod, ih hrest⟩

theorem mem_marked (halloc : c.allocated = true) :
    c ∈ marked ps cells ↔ c ∈ cells ∧ c.offset ∉ ps := by
  simp only [marked, List.mem_map]
  constructor
  · rintro ⟨d, hd, hmark⟩
    split at hmark
    · subst hmark
      cases halloc
    · next hout =>
      subst hmark
      exact ⟨hd, hout⟩
  · rintro ⟨hc, hout⟩
    exact ⟨c, hc, if_neg hout⟩

theorem row_joinCons (h : Row p (c :: cells) stop) : Row p (joinCons c cells) stop := by
  cases cells with
  | nil => exact h
  | cons d rest =>
    rw [joinCons]
    split
    · exact h
    · obtain ⟨rfl, hmin, hmod, hoff, hmin', hmod', hrest⟩ := h
      have hsize : 32 ≤ c.size + d.size := Nat.le_add_right_of_le hmin
      have hsum : (c.size + d.size) % 16 = 0 := by omega
      refine ⟨rfl, hsize, hsum, ?_⟩
      show Row (c.offset + (c.size + d.size)) rest stop
      rw [← Nat.add_assoc, ← hoff]
      exact hrest

theorem row_joinFree (h : Row p cells stop) : Row p (joinFree cells) stop := by
  induction cells generalizing p with
  | nil => exact h
  | cons c rest ih => exact row_joinCons ⟨h.1, h.2.1, h.2.2.1, ih h.2.2.2⟩

theorem mem_joinCons (halloc : c.allocated = true) : c ∈ joinCons d cells ↔ c ∈ d :: cells := by
  cases cells with
  | nil => rfl
  | cons e rest =>
    rw [joinCons]
    split
    · rfl
    · next hfree =>
      -- Neither the two free blocks nor the one they make is the allocated block in question.
      have hd : c ≠ d := by
        rintro rfl
        simp [halloc] at hfree
      have he : c ≠ e := by
        rintro rfl
        simp [halloc] at hfree
      have hnew : c ≠ ⟨d.offset, d.size + e.size, false⟩ := by
        rintro rfl
        cases halloc
      simp only [List.mem_cons, hd, he, hnew, false_or]

theorem mem_joinFree (halloc : c.allocated = true) : c ∈ joinFree cells ↔ c ∈ cells := by
  induction cells with
  | nil => rfl
  | cons d rest ih =>
    show c ∈ joinCons d (joinFree rest) ↔ c ∈ d :: rest
    rw [mem_joinCons halloc, List.mem_cons, ih, List.mem_cons]

theorem joined_joinCons (h : Joined cells) (c : Cell) : Joined (joinCons c cells) := by
  cases cells with
  | nil => exact List.IsChain.singleton c
  | cons d rest =>
    rw [joinCons]
    split
    · next halloc => exact List.isChain_cons_cons.2 ⟨by simpa using halloc, h⟩
    · next hfree =>
      -- The new block meets what the second one met, and that one was free too.
      cases rest with
      | nil => exact List.IsChain.singleton _
      | cons e rest =>
        obtain ⟨hmeet, htail⟩ := List.isChain_cons_cons.1 h
        refine List.isChain_cons_cons.2 ⟨.inr (hmeet.resolve_left ?_), htail⟩
        intro halloc
        simp [halloc] at hfree

theorem joined_joinFree (cells : List Cell) : Joined (joinFree cells) := by
  induction cells with
  | nil => exact List.IsChain.nil
  | cons c rest ih => exact joined_joinCons ih c

theorem marked_congr (h : ∀ p, p ∈ ps ↔ p ∈ qs) : marked ps cells = marked qs cells := by
  simp only [marked, h]

/-! ## There is only one such row -/

theorem Row.eq_nil (h : Row p cells p) : cells = [] := by
  have := h.length_le
  exact List.length_eq_zero_iff.1 (by omega)

/-- A free first block reaches up to an allocated one, and no block of another row with that one
reaches further. -/
theorem Row.size_le_of_free (hx : Row p (c :: xs) stop) (hy : Row p ys stop)
    (hjoined : Joined (c :: xs)) (hfree : c.allocated = false)
    (hsub : ∀ e ∈ c :: xs, e.allocated = true → e ∈ ys) (hd : d ∈ ys) (hoff : d.offset = p) :
    d.size ≤ c.size := by
  have hdm := hy.mem hd
  cases xs with
  | nil =>
    obtain ⟨rfl, -, -, hstop⟩ := hx
    have hstop : c.offset + c.size = stop := hstop
    omega
  | cons e rest =>
    obtain ⟨rfl, hmin, -, heoff, -⟩ := hx
    have halloc : e.allocated = true :=
      (List.isChain_cons_cons.1 hjoined).1.resolve_left (by simp [hfree])
    have he : e ∈ ys := hsub e (by simp) halloc
    have hem := hy.mem he
    rcases hy.apart hd he with rfl | hfar | hfar <;> omega

/-- **A row without free neighbours is determined by its ends and its allocated blocks.** -/
theorem Row.unique (hx : Row p xs stop) (hy : Row p ys stop) (hjoined : Joined xs)
    (hjoined' : Joined ys) (hmem : ∀ c, c.allocated = true → (c ∈ xs ↔ c ∈ ys)) : xs = ys := by
  induction xs generalizing p ys with
  | nil =>
    obtain rfl : p = stop := hx
    exact hy.eq_nil.symm
  | cons c xs ih =>
    cases ys with
    | nil =>
      obtain rfl : p = stop := hy
      exact hx.eq_nil
    | cons d ys =>
      have hoff : c.offset = d.offset := hx.1.trans hy.1.symm
      obtain rfl : c = d := by
        by_cases hc : c.allocated = true
        · exact hy.eq_of_offset ((hmem c hc).1 List.mem_cons_self) List.mem_cons_self hoff
        by_cases hd : d.allocated = true
        · exact hx.eq_of_offset List.mem_cons_self ((hmem d hd).2 List.mem_cons_self) hoff
        -- Two free blocks from the same offset: neither is the longer one.
        rw [Bool.not_eq_true] at hc hd
        have hge := hx.size_le_of_free hy hjoined hc (fun e he ha => (hmem e ha).1 he)
          List.mem_cons_self hy.1
        have hle := hy.size_le_of_free hx hjoined' hd (fun e he ha => (hmem e ha).2 he)
          List.mem_cons_self hx.1
        cases c
        cases d
        simp only at hoff hc hd hge hle
        rw [hoff, hc, hd, Nat.le_antisymm hle hge]
      obtain ⟨rfl, hmin, -, hrest⟩ := hx
      have hrest' := hy.2.2.2
      refine congrArg (c :: ·) (ih hrest hrest' hjoined.tail hjoined'.tail ?_)
      -- The head starts before the rest of either row does, so it is in neither.
      intro e ha
      have hhead : e ∈ xs ∨ e ∈ ys → e ≠ c := by
        rintro (he | he) rfl
        · have := (hrest.mem he).1
          omega
        · have := (hrest'.mem he).1
          omega
      have hboth := hmem e ha
      simp only [List.mem_cons] at hboth
      constructor
      · intro he
        exact (hboth.1 (.inr he)).resolve_left (hhead (.inl he))
      · intro he
        exact (hboth.2 (.inr he)).resolve_left (hhead (.inr he))

/-! ## Releases on the map -/

namespace BlockMap

def releaseAll (m : BlockMap) (ps : List Nat) : BlockMap :=
  ps.foldl release m

theorem WellFormed.joined (h : m.WellFormed) : Joined m.cells :=
  h.row.isChain h.merged

/-- A release takes nothing but its own block. -/
theorem WellFormed.live_release (h : m.WellFormed) (hp : m.Live p) (hq : m.Live q) (hne : q ≠ p) :
    (m.release p).Live q := by
  obtain ⟨c, hc, rfl, -⟩ := hp
  obtain ⟨d, hd, rfl, hda⟩ := hq
  exact ⟨d, ((h.allocated_release hc).2 ⟨⟨hd, hda⟩, hne⟩).1, rfl, hda⟩

theorem WellFormed.releaseAll (h : m.WellFormed) (hnodup : ps.Nodup)
    (hlive : ∀ p ∈ ps, m.Live p) :
    (m.releaseAll ps).WellFormed ∧ (m.releaseAll ps).brk = m.brk ∧
      ∀ c, c.allocated = true → (c ∈ (m.releaseAll ps).cells ↔ c ∈ m.cells ∧ c.offset ∉ ps) := by
  induction ps generalizing m with
  | nil => exact ⟨h, rfl, fun c _ => by simp [BlockMap.releaseAll]⟩
  | cons p rest ih =>
    obtain ⟨hnot, hnodup'⟩ := List.nodup_cons.1 hnodup
    have hp := hlive p List.mem_cons_self
    have hrest : ∀ q ∈ rest, (m.release p).Live q := fun q hq =>
      h.live_release hp (hlive q (List.mem_cons_of_mem _ hq)) fun heq => hnot (heq ▸ hq)
    obtain ⟨c, hc, rfl, -⟩ := hp
    obtain ⟨hwf, hbrk⟩ := h.release hc
    obtain ⟨hwf', hbrk', hmem⟩ := ih hwf hnodup' hrest
    refine ⟨hwf', hbrk'.trans hbrk, ?_⟩
    intro d hda
    have hstep := h.allocated_release hc (d := d)
    simp only [hda, and_true] at hstep
    exact (hmem d hda).trans (by rw [hstep, List.mem_cons, not_or, and_assoc])

/-- **What is left does not depend on the order.** -/
theorem WellFormed.cells_releaseAll (h : m.WellFormed) (hnodup : ps.Nodup)
    (hlive : ∀ p ∈ ps, m.Live p) : (m.releaseAll ps).cells = joinFree (marked ps m.cells) := by
  obtain ⟨hwf, hbrk, hmem⟩ := h.releaseAll hnodup hlive
  have hrow := hwf.row
  rw [hbrk] at hrow
  refine hrow.unique (row_joinFree (row_marked h.row)) hwf.joined (joined_joinFree _) ?_
  intro c halloc
  rw [hmem c halloc, mem_joinFree halloc, mem_marked halloc]

/-- A map without allocated blocks is one free block, unless it is empty. -/
theorem WellFormed.of_no_live (h : m.WellFormed) (hlt : 48 < m.brk) (hnone : ∀ p, ¬ m.Live p) :
    m.cells = [⟨48, m.brk - 48, false⟩] ∧ m.ring = [48] := by
  have hmod := h.brk_mod
  obtain ⟨c, hc, hoff⟩ := h.row.starts.resolve_left (Nat.ne_of_lt hlt)
  have hcm := h.mem hc
  have hcells : m.cells = [⟨48, m.brk - 48, false⟩] := by
    refine h.row.unique ⟨rfl, ?_, ?_, ?_⟩ h.joined (List.IsChain.singleton _) ?_
    · show 32 ≤ m.brk - 48
      omega
    · show (m.brk - 48) % 16 = 0
      omega
    · show 48 + (m.brk - 48) = m.brk
      omega
    · intro d hda
      constructor
      · intro hd
        exact absurd ⟨d, hd, rfl, hda⟩ (hnone d.offset)
      · intro hd
        rw [List.mem_singleton.1 hd] at hda
        cases hda
  refine ⟨hcells, ?_⟩
  have hmem := h.mem_ring
  simp only [hcells, List.mem_singleton, exists_eq_left, and_true] at hmem
  refine List.perm_singleton.1 ((List.perm_ext_iff_of_nodup h.nodup (List.nodup_singleton 48)).2 ?_)
  intro q
  rw [hmem q, List.mem_singleton]
  exact eq_comm

end BlockMap

/-! ## Releases on the heap -/

namespace Heap

/-- Take back the blocks at these offsets, in this order. -/
def releaseAll (heap : Heap) (ps : List Nat) : Traced Heap :=
  ps.foldlM (fun heap p => heap.release (some p)) heap

theorem result_releaseAll_cons (heap : Heap) (p : Nat) (ps : List Nat) :
    (heap.releaseAll (p :: ps)).result =
      (heap.release (some p)).result >>= fun next => (next.releaseAll ps).result := by
  rw [releaseAll, List.foldlM_cons, Traced.result_bind]
  rfl

/-- **The releases do to the heap what they do to the map,** and leave every other block alone. -/
theorem Models.releaseAll_spec (h : heap.Models m) (hnodup : ps.Nodup) (hlive : ∀ p ∈ ps, m.Live p) :
    ∃ next, (heap.releaseAll ps).result = .ok next ∧ next.Models (m.releaseAll ps) ∧
      next.counters = { heap.counters with releases := heap.counters.releases + ps.length } ∧
      ∀ c ∈ m.cells, c.allocated = true → c.offset ∉ ps → heap.arena.Keeps next.arena c := by
  induction ps generalizing heap m with
  | nil => exact ⟨heap, rfl, h, rfl, fun c _ _ _ => Arena.Keeps.refl _ c⟩
  | cons p rest ih =>
    obtain ⟨hnot, hnodup'⟩ := List.nodup_cons.1 hnodup
    have hwf := h.represents.wellFormed
    have hp := hlive p List.mem_cons_self
    have hrest : ∀ q ∈ rest, (m.release p).Live q := fun q hq =>
      hwf.live_release hp (hlive q (List.mem_cons_of_mem _ hq)) fun heq => hnot (heq ▸ hq)
    obtain ⟨mid, hmid, -, hmodels, hcounters, hspares⟩ := h.release_spec hp
    obtain ⟨next, hnext, hmodels', hcounters', hkeeps⟩ := ih hmodels hnodup' hrest
    refine ⟨next, ?_, hmodels', ?_, ?_⟩
    · rw [result_releaseAll_cons, hmid]
      exact hnext
    · rw [hcounters', hcounters, List.length_cons, Nat.add_assoc, Nat.add_comm 1]
    · intro c hc halloc hout
      obtain ⟨hne, hout'⟩ := not_or.1 (fun h => hout (List.mem_cons.2 h))
      obtain ⟨d, hd, rfl, -⟩ := hp
      have hc' : c ∈ (m.release d.offset).cells :=
        ((hwf.allocated_release hd).2 ⟨⟨hc, halloc⟩, hne⟩).1
      exact (hspares c hc halloc fun heq => hne (Option.some.inj heq)).trans
        (hkeeps c hc' halloc hout')

/-- What the release of some live blocks makes of a heap. -/
structure Released (heap : Heap) (live ps : List Nat) (next : Heap) : Prop where
  brk_eq : next.arena.brk = heap.arena.brk
  counters_eq :
    next.counters = { heap.counters with releases := heap.counters.releases + ps.length }
  blocks_eq : ∃ blocks joined, heap.blocks = .ok blocks ∧ next.blocks = .ok joined ∧
    joined.map Block.cell = joinFree (marked ps (blocks.map Block.cell))
  contents_eq : ∀ p ∈ live, p ∉ ps →
    ∃ data, heap.contents p = .ok data ∧ next.contents p = .ok data
  /-- If nothing stays live, all is one free block. -/
  emptied : (∀ p ∈ live, p ∈ ps) → ∃ b : Block, b.cell = ⟨48, heap.arena.brk - 48, false⟩ ∧
    next.blocks = .ok [b] ∧ ∀ count, next.freeBlocks count = .ok ([b].take count)

/-- The heaps differ in the order of the search, and in bytes that nobody has. -/
structure Agrees (x y : Heap) : Prop where
  brk_eq : x.arena.brk = y.arena.brk
  counters_eq : x.counters = y.counters
  blocks_eq : ∃ blocks, x.blocks = .ok blocks ∧ y.blocks = .ok blocks
  stats_eq : ∃ stats, x.stats = .ok stats ∧ y.stats = .ok stats
  nodes_perm : ∃ ring ring', x.arena.nodes = .ok ring ∧ y.arena.nodes = .ok ring' ∧
    ring.Perm ring'

theorem Models.one_free (h : heap.Models m) (hcells : m.cells = [⟨48, m.brk - 48, false⟩])
    (hring : m.ring = [48]) : ∃ b : Block, b.cell = ⟨48, heap.arena.brk - 48, false⟩ ∧
      heap.blocks = .ok [b] ∧ ∀ count, heap.freeBlocks count = .ok ([b].take count) := by
  obtain ⟨blocks, hblocks, hmap⟩ := h.represents.blocks_eq
  rw [hcells] at hmap
  obtain ⟨b, rfl, hcell⟩ := List.map_eq_singleton_iff.1 hmap
  refine ⟨b, by rw [hcell, h.represents.brk_eq], hblocks, ?_⟩
  intro count
  obtain ⟨free, hfree, hmap'⟩ := h.represents.freeBlocks_eq count
  have hsize := h.represents.wellFormed.sizeAt_eq (hcells ▸ List.mem_singleton_self _)
  rw [hring] at hmap'
  refine hfree.trans (congrArg Except.ok (Block.eq_of_cells (hmap'.trans ?_)))
  rw [List.map_take, List.map_take, List.map_singleton, List.map_singleton, hcell]
  simp only at hsize
  rw [hsize]

theorem Tracks.released (h : Tracks settings heap live m) (hnodup : ps.Nodup)
    (hps : ∀ p ∈ ps, p ∈ live) :
    ∃ next, (heap.releaseAll ps).result = .ok next ∧ next.Models (m.releaseAll ps) ∧
      heap.Released live ps next := by
  have hlive : ∀ p ∈ ps, m.Live p := fun p hp => (h.live_iff p).1 (hps p hp)
  obtain ⟨next, hnext, hmodels, hcounters, hkeeps⟩ := h.models.releaseAll_spec hnodup hlive
  obtain ⟨hwf, hbrk, hmem⟩ := h.wellFormed.releaseAll hnodup hlive
  have hbrk' : next.arena.brk = heap.arena.brk := by
    rw [hmodels.represents.brk_eq, hbrk, h.brk_eq]
  refine ⟨next, hnext, hmodels, hbrk', hcounters, ?_, ?_, ?_⟩
  · obtain ⟨blocks, hblocks, hcells⟩ := h.models.represents.blocks_eq
    obtain ⟨joined, hjoined, hcells'⟩ := hmodels.represents.blocks_eq
    refine ⟨blocks, joined, hblocks, hjoined, ?_⟩
    rw [hcells, hcells', h.wellFormed.cells_releaseAll hnodup hlive]
  · intro p hp hout
    obtain ⟨c, hc, rfl, halloc⟩ := (h.live_iff p).1 hp
    have hc' := (hmem c halloc).2 ⟨hc, hout⟩
    refine ⟨_, h.models.contents_eq hc halloc, ?_⟩
    rw [← h.models.contents_eq hc halloc]
    exact h.models.contents_congr hmodels hc hc' halloc (hkeeps c hc halloc hout)
  · intro hall
    have hchunk := h.models.valid.chunk_ge
    have hroom := h.room
    rw [← h.settings_eq] at hroom
    have hlt : 48 < (m.releaseAll ps).brk := by
      rw [hbrk]
      omega
    have hnone : ∀ p, ¬ (m.releaseAll ps).Live p := by
      rintro p ⟨c, hc, rfl, halloc⟩
      obtain ⟨hold, hout⟩ := (hmem c halloc).1 hc
      exact hout (hall _ ((h.live_iff _).2 ⟨c, hold, rfl, halloc⟩))
    obtain ⟨hcells, hring⟩ := hwf.of_no_live hlt hnone
    rw [← hbrk']
    exact hmodels.one_free hcells hring

/-- Maps with the same row have the same nodes in some order, and heaps that model them agree. -/
theorem Models.agrees {m' : BlockMap} (h : x.Models m) (h' : y.Models m')
    (hcells : m.cells = m'.cells) (hcounters : x.counters = y.counters) : x.Agrees y := by
  have hbrk : x.arena.brk = y.arena.brk := by
    rw [h.represents.brk_eq, h'.represents.brk_eq, BlockMap.brk, BlockMap.brk, hcells]
  obtain ⟨blocks, hsound, hsound', -⟩ := h.represents.sound_congr h'.represents hcells
  have hwf := h.represents.wellFormed
  have hwf' := h'.represents.wellFormed
  refine ⟨hbrk, hcounters, ⟨blocks, hsound.blocks_eq, hsound'.blocks_eq⟩,
    ⟨_, hsound.stats_eq, hbrk ▸ hsound'.stats_eq⟩,
    ⟨m.ring, m'.ring, h.represents.nodes_eq, h'.represents.nodes_eq, ?_⟩⟩
  apply (List.perm_ext_iff_of_nodup hwf.nodup hwf'.nodup).2
  intro q
  rw [hwf.mem_ring, hwf'.mem_ring, hcells]

/-- **Release order does not matter,** and releasing everything gives the heap back. -/
theorem reached_releaseAll (reached : Reached settings history heap live) (hnodup : ps.Nodup)
    (hps : ∀ p ∈ ps, p ∈ live) (hperm : ps.Perm qs) :
    ∃ x y, (heap.releaseAll ps).result = .ok x ∧ (heap.releaseAll qs).result = .ok y ∧
      heap.Released live ps x ∧ heap.Released live qs y ∧ x.Agrees y := by
  obtain ⟨m, htracks⟩ : ∃ m, Tracks settings heap live m := ⟨_, reached.tracks.2.2⟩
  have hnodup' : qs.Nodup := hperm.nodup_iff.1 hnodup
  have hqs : ∀ q ∈ qs, q ∈ live := fun q hq => hps q (hperm.mem_iff.2 hq)
  obtain ⟨x, hx, hmodels, hreleased⟩ := htracks.released hnodup hps
  obtain ⟨y, hy, hmodels', hreleased'⟩ := htracks.released hnodup' hqs
  refine ⟨x, y, hx, hy, hreleased, hreleased', hmodels.agrees hmodels' ?_ ?_⟩
  · have hlive : ∀ p ∈ ps, m.Live p := fun p hp => (htracks.live_iff p).1 (hps p hp)
    have hlive' : ∀ q ∈ qs, m.Live q := fun q hq => (htracks.live_iff q).1 (hqs q hq)
    rw [htracks.wellFormed.cells_releaseAll hnodup hlive,
      htracks.wellFormed.cells_releaseAll hnodup' hlive', marked_congr fun p => hperm.mem_iff]
  · rw [hreleased.counters_eq, hreleased'.counters_eq, hperm.length_eq]

/-- Three blocks in a row: the middle one first, or last. -/
theorem reached_releaseAll_small : ∃ history heap x y,
    Reached ⟨256, 64, .strict⟩ history heap [112, 80, 48] ∧
    [80, 48, 112].Nodup ∧ (∀ p ∈ [80, 48, 112], p ∈ [112, 80, 48]) ∧
    [80, 48, 112].Perm [48, 112, 80] ∧ (heap.releaseAll [80, 48, 112]).result = .ok x ∧
    (heap.releaseAll [48, 112, 80]).result = .ok y ∧ x.Agrees y := by
  obtain ⟨history, heap, -, hreached⟩ :=
    exists_reached ⟨256, 64, .strict⟩ (by constructor <;> decide) (by decide) (by decide)
      [.allocate 8, .allocate 8, .allocate 8] (by decide)
  have hnodup : [80, 48, 112].Nodup := by decide
  have hps : ∀ p ∈ [80, 48, 112], p ∈ [112, 80, 48] := by decide
  have hperm : [80, 48, 112].Perm [48, 112, 80] := by decide
  obtain ⟨x, y, hx, hy, -, -, hagrees⟩ := reached_releaseAll hreached hnodup hps hperm
  exact ⟨history, heap, x, y, hreached, hnodup, hps, hperm, hx, hy, hagrees⟩

end Heap
end BoundaryHeap
