import BoundaryHeap.Proofs.Holes
import BoundaryHeap.Proofs.NewHeaps

/-!
# Fragmented heaps

A new heap is asked for as many blocks of one size as are wanted, and every other one of those it
could give is released again. Whatever the number and the size, **free blocks and allocated ones then
take turns, a free one first, and half of the blocks are left, rounded down**
(`Heap.createFragmented_alternates`).

The requests leave a packed row (`Packed`): a run of allocated blocks and at most one free block
behind it. A search finds that one or nothing, a new chunk becomes part of it or stands in its place,
and the block that is handed out makes the run longer by one, so the row stays packed
(`packed_allocate`) until the first request that cannot be met, and that one changes nothing. The
releases take the first block and then every other one. No two of these touch, so all that merges is
the last block of an odd run with what is free behind it (`joinFree_thinned`).
-/

set_option autoImplicit false

namespace BoundaryHeap

variable {settings : Settings} {heap : Heap} {m m' m₁ : BlockMap} {c : Cell}
  {full tail xs : List Cell} {ps : List Nat} {p n size : Nat}

/-! ## Packed rows -/

/-- The row is a run of allocated blocks, and behind it at most one free block. -/
structure Packed (cells full : List Cell) : Prop where
  allocated : ∀ c ∈ full, c.allocated = true
  cells_eq : ∃ rest : Option Cell, (∀ c ∈ rest, c.allocated = false) ∧ cells = full ++ rest.toList

theorem joinCons_of_allocated (halloc : c.allocated = true) (cells : List Cell) :
    joinCons c cells = c :: cells := by
  cases cells with
  | nil => rfl
  | cons d rest =>
    rw [joinCons, halloc]
    rfl

/-- Nothing is joined in a run of allocated blocks. -/
theorem joinFree_append (hfull : ∀ c ∈ full, c.allocated = true) (cells : List Cell) :
    joinFree (full ++ cells) = full ++ joinFree cells := by
  induction full with
  | nil => rfl
  | cons c rest ih =>
    obtain ⟨hc, hrest⟩ := List.forall_mem_cons.1 hfull
    show joinCons c (joinFree (rest ++ cells)) = _
    rw [ih hrest, joinCons_of_allocated hc, List.cons_append]

namespace BlockMap

/-- What is found in a packed row is what is behind the run. -/
theorem WellFormed.findBlock_packed (h : m.WellFormed) (hvalid : settings.Valid)
    (hpacked : Packed m.cells full) (hfind : m.findBlock settings size = some (p, m₁)) :
    ∃ c, m₁.cells = full ++ [c] ∧ c.offset = p ∧ c.allocated = false ∧ size ≤ c.size := by
  obtain ⟨-, -, ⟨c, hc, hoff, hfree, hfit⟩, -⟩ := h.findBlock hvalid hfind
  have hbehind : ∃ d, d.allocated = false ∧ m₁.cells = full ++ [d] := by
    obtain ⟨rest, hrest, hall⟩ := hpacked.cells_eq
    rcases h.findBlock_eq_some hfind with ⟨-, rfl⟩ | ⟨-, count, hcount, -, hgrow⟩
    · cases rest with
      | none =>
        have hmem : c ∈ full := by simpa [hall] using hc
        have halloc := hpacked.allocated c hmem
        rw [hfree] at halloc
        cases halloc
      | some d => exact ⟨d, hrest d rfl, hall⟩
    · obtain ⟨-, hchunk, hmod, -⟩ := extensionSize_eq_some hcount
      have hcells := h.cells_grow (Nat.le_trans hvalid.chunk_ge hchunk) hmod
      rw [← hgrow, hall, List.append_assoc, joinFree_append hpacked.allocated] at hcells
      cases rest with
      | none => exact ⟨_, rfl, hcells⟩
      | some d =>
        refine ⟨⟨d.offset, d.size + count, false⟩, rfl, hcells.trans ?_⟩
        simp [joinFree, joinCons, hrest d rfl]
  obtain ⟨d, hd, hcells⟩ := hbehind
  rw [hcells] at hc
  obtain rfl : c = d := by
    rcases List.mem_append.1 hc with hc | hc
    · have halloc := hpacked.allocated c hc
      rw [hfree] at halloc
      cases halloc
    · exact List.mem_singleton.1 hc
  exact ⟨c, hcells, hoff, hfree, hfit⟩

/-- The run is listed by address. -/
theorem WellFormed.pairwise_packed (h : m.WellFormed) (hpacked : Packed m.cells full) :
    (full.map Cell.offset).Pairwise (· < ·) := by
  obtain ⟨rest, -, hcells⟩ := hpacked.cells_eq
  have hrow := h.row
  rw [hcells] at hrow
  obtain ⟨q, hfull, -⟩ := hrow.of_append
  exact hfull.pairwise

/-- The last block makes way at the end of the row. -/
theorem WellFormed.cells_carve_last (h : m.WellFormed) (hcells : m.cells = full ++ [c]) :
    (m.carve c.offset size).cells = full ++ pieces c size := by
  have hc : c ∈ m.cells := by simp [hcells]
  have hrow := h.row
  rw [hcells] at hrow
  obtain ⟨q, hfull, hoff, -⟩ := hrow.of_append
  have hbefore : ∀ d ∈ full, d.offset < c.offset ∧ ¬ c.offset + c.size ≤ d.offset := by
    intro d hd
    have hdm := hfull.mem hd
    omega
  have hkept : full.filter (·.offset < c.offset) = full :=
    List.filter_eq_self.2 fun d hd => decide_eq_true (hbefore d hd).1
  have hgone : full.filter (c.offset + c.size ≤ ·.offset) = [] :=
    List.filter_eq_nil_iff.2 fun d hd => by simpa using (hbefore d hd).2
  have hpos : 0 < c.size := Nat.lt_of_lt_of_le (by decide) (h.mem hc).2.2.1
  rw [h.carve_eq hc, hcells, splice, List.filter_append, List.filter_append, hkept, hgone]
  simp [hpos]

/-- **A request that is met makes the run longer by one block.** -/
theorem WellFormed.packed_allocate (h : m.WellFormed) (hvalid : settings.Valid)
    (hpacked : Packed m.cells full) (hall : m.allocate settings n = (some p, m')) :
    ∃ c, c.offset = p ∧ Packed m'.cells (full ++ [c]) := by
  obtain ⟨size, m₁, hadj, hfind, rfl⟩ := allocate_eq_some_iff.1 hall
  obtain ⟨hwf, -⟩ := h.findBlock hvalid hfind
  obtain ⟨c, hcells, rfl, hfree, -⟩ := h.findBlock_packed hvalid hpacked hfind
  have hallocated : ∀ d ∈ full ++ [handed c size], d.allocated = true :=
    List.forall_mem_append.2 ⟨hpacked.allocated, by simp [handed]⟩
  refine ⟨handed c size, rfl, hallocated, ?_⟩
  rw [hwf.cells_carve_last hcells]
  unfold pieces handed
  split
  · exact ⟨some ⟨c.offset + size, c.size - size, false⟩, by simp, by simp⟩
  · exact ⟨none, by simp, by simp⟩

end BlockMap

/-! ## Requests, one after the other -/

namespace Heap

/-- What cannot be met once is not met again. -/
theorem Models.allocateMany_refused (h : heap.Models m)
    (hnone : (m.allocate heap.settings n).1 = none) (count : Nat) :
    ∃ next, (heap.allocateMany n count).result = .ok ([], next) ∧ next.Models m ∧
      next.settings = heap.settings := by
  induction count generalizing heap with
  | zero => exact ⟨heap, rfl, h, rfl⟩
  | succ count ih =>
    obtain ⟨mid, hmid, hsettings, hmodels, -⟩ := h.allocate_spec n
    have hsame : (m.allocate heap.settings n).2 = m := BlockMap.allocate_eq_none (Prod.ext hnone rfl)
    rw [hnone] at hmid
    rw [hsame] at hmodels
    obtain ⟨next, hnext, hmodels', hsettings'⟩ := ih hmodels (hsettings.symm ▸ hnone)
    exact ⟨next, allocateMany_succ hmid hnext, hmodels', hsettings'.trans hsettings⟩

/-- What each of `count` requests is answered on its turn: the first ones get these blocks, in this
order, and all others get none. -/
def Answers (heap : Heap) (n count : Nat) (ps : List Nat) : Prop :=
  ps.length ≤ count ∧ ∀ j < count, ∃ mid next, (heap.allocateMany n j).result = .ok (ps.take j, mid) ∧
    (mid.allocate n).result = .ok (ps[j]?, next)

theorem Models.answers_nil (h : heap.Models m) (hnone : (m.allocate heap.settings n).1 = none)
    (count : Nat) : heap.Answers n count [] := by
  refine ⟨Nat.zero_le count, ?_⟩
  intro j hj
  obtain ⟨mid, hmid, hmodels, hsettings⟩ := h.allocateMany_refused hnone j
  obtain ⟨next, hnext, -⟩ := hmodels.allocate_spec n
  rw [hsettings, hnone] at hnext
  rw [List.take_nil]
  exact ⟨mid, next, hmid, hnext⟩

theorem Answers.cons {mid : Heap} {count : Nat} (h : mid.Answers n count ps)
    (hmet : (heap.allocate n).result = .ok (some p, mid)) :
    heap.Answers n (count + 1) (p :: ps) := by
  obtain ⟨hle, hcalls⟩ := h
  refine ⟨Nat.succ_le_succ hle, ?_⟩
  intro j hj
  cases j with
  | zero => exact ⟨heap, mid, rfl, hmet⟩
  | succ j =>
    obtain ⟨x, y, hx, hy⟩ := hcalls j (Nat.lt_of_succ_lt_succ hj)
    exact ⟨x, y, allocateMany_succ hmet hx, hy⟩

/-- **Requests of one size leave a packed row packed,** and the run is longer by the blocks that were
handed out. -/
theorem Models.allocateMany_packed (h : heap.Models m) (hpacked : Packed m.cells full) (count : Nat) :
    ∃ more next m', (heap.allocateMany n count).result = .ok (more.map Cell.offset, next) ∧
      next.Models m' ∧ m.brk ≤ m'.brk ∧ Packed m'.cells (full ++ more) ∧
      heap.Answers n count (more.map Cell.offset) := by
  -- The run that is there already grows with each request, so it is general in the induction.
  induction count generalizing heap m full with
  | zero =>
    refine ⟨[], heap, m, rfl, h, Nat.le_refl _, by rwa [List.append_nil], Nat.le_refl _, ?_⟩
    intro j hj
    exact absurd hj (Nat.not_lt_zero j)
  | succ count ih =>
    obtain ⟨mid, hmid, -, hmodels, -⟩ := h.allocate_spec n
    cases hall : m.allocate heap.settings n with
    | mk answer m₁ =>
    rw [hall] at hmid hmodels
    cases answer with
    | none =>
      have hnone : (m.allocate heap.settings n).1 = none := congrArg Prod.fst hall
      obtain ⟨next, hnext, hmodels', -⟩ := h.allocateMany_refused hnone (count + 1)
      exact ⟨[], next, m, hnext, hmodels', Nat.le_refl _, by rwa [List.append_nil],
        h.answers_nil hnone (count + 1)⟩
    | some p =>
      obtain ⟨c, rfl, hpacked₁⟩ := h.represents.wellFormed.packed_allocate h.valid hpacked hall
      have hbrk := (h.represents.wellFormed.allocate h.valid hall).2.1
      obtain ⟨more, next, m', hnext, hmodels', hbrk', hpacked', hanswers⟩ := ih hmodels hpacked₁
      rw [List.append_assoc] at hpacked'
      exact ⟨c :: more, next, m', allocateMany_succ hmid hnext, hmodels', Nat.le_trans hbrk hbrk',
        hpacked', hanswers.cons hmid⟩

end Heap

/-! ## Every other block -/

/-- The first, and then every other one. -/
def everyOther : List Nat → List Nat
  | [] => []
  | [p] => [p]
  | p :: _ :: rest => p :: everyOther rest

/-- The row with the first block free, and then every other one. -/
def thinned : List Cell → List Cell
  | [] => []
  | [c] => [c.freed]
  | c :: d :: rest => c.freed :: d :: thinned rest

theorem everyOther_sublist (ps : List Nat) : (everyOther ps).Sublist ps := by
  induction ps using everyOther.induct with
  | case1 => exact List.Sublist.refl _
  | case2 p => exact List.Sublist.refl _
  | case3 p q rest ih => exact (ih.cons q).cons_cons p

theorem marked_nil (cells : List Cell) : marked [] cells = cells := by
  simp [marked]

theorem marked_cons_of_not_mem (hp : p ∉ xs.map Cell.offset) :
    marked (p :: ps) xs = marked ps xs := by
  refine List.map_congr_left fun c hc => ?_
  have hne : c.offset ≠ p := fun heq => hp (heq ▸ List.mem_map_of_mem hc)
  simp only [List.mem_cons, hne, false_or]

/-- To mark every other block of a run is to thin it. What is behind the run stays. -/
theorem marked_everyOther (hnodup : ((full ++ tail).map Cell.offset).Nodup) :
    marked (everyOther (full.map Cell.offset)) (full ++ tail) = thinned full ++ tail := by
  induction full using thinned.induct with
  | case1 => exact marked_nil tail
  | case2 c =>
    have hout : c.offset ∉ tail.map Cell.offset := (List.nodup_cons.1 hnodup).1
    show (if c.offset ∈ [c.offset] then c.freed else c) :: marked [c.offset] tail = c.freed :: tail
    rw [if_pos (List.mem_singleton_self _), marked_cons_of_not_mem hout, marked_nil]
  | case3 c d rest ih =>
    obtain ⟨hc, hrest⟩ := List.nodup_cons.1 hnodup
    obtain ⟨hd, hnodup'⟩ := List.nodup_cons.1 hrest
    obtain ⟨hcd, hc'⟩ : c.offset ≠ d.offset ∧ c.offset ∉ (rest ++ tail).map Cell.offset :=
      not_or.1 fun hmem => hc (List.mem_cons.2 hmem)
    have hfirst : c.offset ∈ everyOther ((c :: d :: rest).map Cell.offset) := List.mem_cons_self
    have hsecond : d.offset ∉ everyOther ((c :: d :: rest).map Cell.offset) := by
      intro hmem
      rcases List.mem_cons.1 hmem with heq | hmem
      · exact hcd heq.symm
      · have hlater := (everyOther_sublist _).subset hmem
        have hin : d.offset ∈ (rest ++ tail).map Cell.offset := by
          rw [List.map_append]
          exact List.mem_append_left _ hlater
        exact hd hin
    show (if c.offset ∈ _ then c.freed else c) :: (if d.offset ∈ _ then d.freed else d) ::
      marked (c.offset :: everyOther (rest.map Cell.offset)) (rest ++ tail) =
        c.freed :: d :: (thinned rest ++ tail)
    rw [if_pos hfirst, if_neg hsecond, marked_cons_of_not_mem hc', ih hnodup']

/-- **A run with every other block free,** and at most one free block behind it: free and allocated
blocks take turns, a free one first, and half of the run is left, rounded down. -/
theorem joinFree_thinned {rest : Option Cell} (hfull : ∀ c ∈ full, c.allocated = true)
    (hrest : ∀ c ∈ rest, c.allocated = false) :
    ((joinFree (thinned full ++ rest.toList)).IsChain fun c d => c.allocated ≠ d.allocated) ∧
      (∀ c ∈ (joinFree (thinned full ++ rest.toList)).head?, c.allocated = false) ∧
      ((joinFree (thinned full ++ rest.toList)).filter (·.allocated)).length = full.length / 2 := by
  induction full using thinned.induct with
  | case1 => cases rest <;> simp_all [thinned, joinFree, joinCons]
  | case2 c => cases rest <;> simp_all [thinned, joinFree, joinCons, Cell.freed]
  | case3 c d more ih =>
    obtain ⟨-, hd, hmore⟩ : c.allocated = true ∧ d.allocated = true ∧
      ∀ e ∈ more, e.allocated = true := by simpa using hfull
    obtain ⟨hchain, hhead, hcount⟩ := ih hmore
    -- The block that stays keeps the two free blocks next to it apart.
    have hcells : joinFree (thinned (c :: d :: more) ++ rest.toList) =
        c.freed :: d :: joinFree (thinned more ++ rest.toList) := by
      show joinCons c.freed (joinCons d (joinFree (thinned more ++ rest.toList))) = _
      rw [joinCons_of_allocated hd, joinCons, hd, Bool.or_true]
      rfl
    rw [hcells]
    refine ⟨List.isChain_cons_cons.2 ⟨?_, List.isChain_cons.2 ⟨?_, hchain⟩⟩, ?_, ?_⟩
    · simp [Cell.freed, hd]
    · intro e he
      simp [hd, hhead e he]
    · simp [Cell.freed]
    · have hstep : ((c.freed :: d :: joinFree (thinned more ++ rest.toList)).filter
          (·.allocated)).length = more.length / 2 + 1 := by simp [Cell.freed, hd, hcount]
      exact hstep.trans (Nat.add_div_right more.length (by decide)).symm

namespace Heap

theorem result_releaseAlternate (heap : Heap) (ps : List Nat) :
    (heap.releaseAlternate ps).result = (heap.releaseAll (everyOther ps)).result := by
  induction ps using everyOther.induct generalizing heap with
  | case1 => rfl
  | case2 p =>
    rw [everyOther, result_releaseAll_cons]
    show (heap.releaseBlock p).result = (heap.releaseBlock p).result >>= Except.ok
    cases (heap.releaseBlock p).result <;> rfl
  | case3 p q rest ih =>
    rw [everyOther, result_releaseAll_cons, releaseAlternate, Traced.result_bind]
    show _ = (heap.releaseBlock p).result >>= _
    simp only [ih]

/-- Free blocks and allocated ones take turns, from a free block at the first offset on, and the audit
finds nothing. -/
structure Alternates (heap : Heap) (count : Nat) : Prop where
  valid : ∃ stats, heap.validate = .ok (.ok stats)
  blocks_eq : ∃ first rest, heap.blocks = .ok (first :: rest) ∧ first.payload = 48 ∧
    first.tag.isFree = true ∧
    ((first :: rest).IsChain fun b c => b.tag.allocated ≠ c.tag.allocated) ∧
    ((first :: rest).filter fun b => b.tag.allocated).length = count

/-- **To release every other block of a packed row leaves a row that alternates.** -/
theorem Models.releaseAlternate_packed (h : heap.Models m) (hpacked : Packed m.cells full)
    (hlt : 48 < m.brk) : ∃ next, (heap.releaseAlternate (full.map Cell.offset)).result = .ok next ∧
      next.Alternates (full.length / 2) := by
  have hwf := h.represents.wellFormed
  obtain ⟨rest, hrest, hcells⟩ := hpacked.cells_eq
  have hnodup : (m.cells.map Cell.offset).Nodup := hwf.row.pairwise.imp Nat.ne_of_lt
  rw [hcells] at hnodup
  have hsub := everyOther_sublist (full.map Cell.offset)
  have hnodup' : (everyOther (full.map Cell.offset)).Nodup :=
    ((hwf.pairwise_packed hpacked).imp Nat.ne_of_lt).sublist hsub
  have hlive : ∀ p ∈ everyOther (full.map Cell.offset), m.Live p := by
    intro p hp
    obtain ⟨c, hc, rfl⟩ := List.mem_map.1 (hsub.subset hp)
    exact ⟨c, hcells ▸ List.mem_append_left _ hc, rfl, hpacked.allocated c hc⟩
  obtain ⟨next, hnext, hmodels, -⟩ := h.releaseAll_spec hnodup' hlive
  obtain ⟨hwf', hbrk, -⟩ := hwf.releaseAll hnodup' hlive
  have hleft := hwf.cells_releaseAll hnodup' hlive
  rw [hcells, marked_everyOther hnodup] at hleft
  obtain ⟨hchain, hhead, hcount⟩ := joinFree_thinned hpacked.allocated hrest
  rw [← hleft] at hchain hhead hcount
  obtain ⟨blocks, hsound, hblocks⟩ := hmodels.represents.sound
  have hrow := hwf'.row
  rw [← hblocks] at hrow hchain hhead hcount
  refine ⟨next, (heap.result_releaseAlternate _).trans hnext, ?_, ?_⟩
  · exact ⟨_, validate_of_clean (hsound.inspect_spec false)⟩
  · cases blocks with
    | nil =>
      have hstop : 48 = (m.releaseAll (everyOther (full.map Cell.offset))).brk := hrow
      omega
    | cons b blocks =>
      refine ⟨b, blocks, hsound.blocks_eq, hrow.1, ?_, (List.isChain_map Block.cell).1 hchain, ?_⟩
      · have hfree : b.tag.allocated = false := hhead _ rfl
        rw [Tag.isFree, hfree]
        rfl
      · rw [List.filter_map, List.length_map] at hcount
        exact hcount

/-! ## The heap for measurements -/

/-- A new heap after `count` requests of `size` bytes: those that were met come first, and were handed
one block each, from the first offset up without a gap. All else is free. -/
structure Filled (fresh : Heap) (size count : Nat) (ps : List Nat) (full : Heap) : Prop where
  done : (fresh.allocateMany size count).result = .ok (ps, full)
  answers : fresh.Answers size count ps
  increasing : ps.Pairwise (· < ·)
  contiguous : ∃ row rest stop, full.blocks = .ok (row ++ rest) ∧ row.map Block.payload = ps ∧
    full.arena.Tiles firstPayload row stop ∧ (∀ b ∈ row, b.tag.allocated = true) ∧
    ∀ b ∈ rest, b.tag.allocated = false

theorem Models.tiles_packed (h : heap.Models m) (hpacked : Packed m.cells full) :
    ∃ row rest stop, heap.blocks = .ok (row ++ rest) ∧
      row.map Block.payload = full.map Cell.offset ∧ heap.arena.Tiles firstPayload row stop ∧
      (∀ b ∈ row, b.tag.allocated = true) ∧ ∀ b ∈ rest, b.tag.allocated = false := by
  obtain ⟨blocks, hsound, hmap⟩ := h.represents.sound
  obtain ⟨behind, hbehind, hcells⟩ := hpacked.cells_eq
  obtain ⟨row, rest, rfl, hrow, hrest⟩ := List.map_eq_append_iff.1 (hmap.trans hcells)
  obtain ⟨stop, htiles, -⟩ := hsound.tiles.of_append
  refine ⟨row, rest, stop, hsound.blocks_eq, ?_, htiles, ?_, ?_⟩
  · rw [← hrow, List.map_map]
    rfl
  · intro b hb
    exact hpacked.allocated b.cell (hrow ▸ List.mem_map_of_mem hb)
  · intro b hb
    have hmem : b.cell ∈ behind.toList := hrest ▸ List.mem_map_of_mem hb
    exact hbehind b.cell (Option.mem_toList.1 hmem)

/-- **A fragmented heap alternates,** whatever is asked for: no blocks, blocks of no bytes, of more bytes
than there are, or of a size that leaves a chunk with an end too short to stand alone. -/
theorem createFragmented_alternates (count size : Nat) : ∃ fresh ps full heap,
    (create { reserved := 64 * 1024 * 1024 }).result = .ok (.ok fresh) ∧
      fresh.Filled size count ps full ∧ (full.releaseAlternate ps).result = .ok heap ∧
      (createFragmented count size).result = .ok (.ok heap) ∧ heap.Alternates (ps.length / 2) := by
  have hvalid : Settings.Valid { reserved := 64 * 1024 * 1024 } := by constructor <;> decide
  obtain ⟨a, ha, hmodels⟩ := create_spec hvalid (by decide) (by decide)
  have hpacked : Packed (BlockMap.fresh { reserved := 64 * 1024 * 1024 }).cells [] :=
    ⟨by simp, some ⟨48, 4096, false⟩, by simp, rfl⟩
  obtain ⟨row, full, m', hfull, hmodels', hbrk, hpacked', hanswers⟩ :=
    hmodels.allocateMany_packed (n := size) hpacked count
  have hlt : 48 < m'.brk := Nat.lt_of_lt_of_le (by decide) hbrk
  obtain ⟨heap, hheap, halternates⟩ := hmodels'.releaseAlternate_packed hpacked' hlt
  rw [List.nil_append] at hheap halternates hpacked'
  have hincreasing := hmodels'.represents.wellFormed.pairwise_packed hpacked'
  refine ⟨_, _, full, heap, ha,
    ⟨hfull, hanswers, hincreasing, hmodels'.tiles_packed hpacked'⟩, hheap, ?_, ?_⟩
  · simp only [createFragmented, Traced.result_bind, ha, hfull, hheap, ok_bind]
    rfl
  · rwa [List.length_map]

end Heap
end BoundaryHeap
