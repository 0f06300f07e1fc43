import BoundaryHeap.Proofs.Rows
import Mathlib.Data.List.Nodup

/-!
# Well-formed block maps

What every block map of a used heap has: its blocks are a row from the first payload to the mark,
no two free ones touch, and the search order lists the free ones, each once. **Every operation of
the map keeps it,** and the allocated blocks afterwards are the ones before with one taken out or
one put in. There are only two edits below the operations, `free` and `carve`; each of them puts
new blocks where an uncut span of old ones was.
-/

set_option autoImplicit false

namespace BoundaryHeap
namespace BlockMap

structure WellFormed (m : BlockMap) : Prop where
  row : Row firstPayload m.cells m.brk
  merged : ∀ c ∈ m.cells, ∀ d ∈ m.cells, c.offset + c.size = d.offset →
    c.allocated = true ∨ d.allocated = true
  nodup : m.ring.Nodup
  mem_ring : ∀ p, p ∈ m.ring ↔ ∃ c ∈ m.cells, c.offset = p ∧ c.allocated = false

variable {m : BlockMap} {p q lo hi size count stop : Nat} {c d e : Cell} {cells new : List Cell}

theorem brk_eq (h : Row firstPayload m.cells stop) : m.brk = stop := h.last

theorem WellFormed.of_row (stop : Nat) (hrow : Row firstPayload m.cells stop)
    (hmerged : ∀ c ∈ m.cells, ∀ d ∈ m.cells, c.offset + c.size = d.offset →
      c.allocated = true ∨ d.allocated = true)
    (hnodup : m.ring.Nodup)
    (hmem : ∀ p, p ∈ m.ring ↔ ∃ c ∈ m.cells, c.offset = p ∧ c.allocated = false) :
    m.WellFormed :=
  ⟨by rw [brk_eq hrow]; exact hrow, hmerged, hnodup, hmem⟩

/-- Blocks at different offsets do not overlap. -/
theorem WellFormed.apart_of_ne (h : m.WellFormed) (hc : c ∈ m.cells) (hd : d ∈ m.cells)
    (hne : c.offset ≠ d.offset) : c.offset + c.size ≤ d.offset ∨ d.offset + d.size ≤ c.offset := by
  apply (h.row.apart hc hd).resolve_left
  rintro rfl
  exact hne rfl

/-- An allocated block and a free one do not overlap. -/
theorem WellFormed.apart_free (h : m.WellFormed) (hc : c ∈ m.cells) (halloc : c.allocated = true)
    (hd : d ∈ m.cells) (hfree : d.allocated = false) :
    c.offset + c.size ≤ d.offset ∨ d.offset + d.size ≤ c.offset := by
  apply (h.row.apart hc hd).resolve_left
  rintro rfl
  rw [hfree] at halloc
  cases halloc

/-- No free block starts where an allocated one does. -/
theorem WellFormed.offset_ne (h : m.WellFormed) (hc : c ∈ m.cells) (halloc : c.allocated = true)
    (hd : d ∈ m.cells) (hfree : d.allocated = false) : d.offset ≠ c.offset := by
  intro hoff
  obtain rfl := h.row.eq_of_offset hd hc hoff
  rw [hfree] at halloc
  cases halloc

theorem WellFormed.mem (h : m.WellFormed) (hc : c ∈ m.cells) :
    48 ≤ c.offset ∧ c.offset + c.size ≤ m.brk ∧ 32 ≤ c.size ∧ c.size % 16 = 0 ∧ c.offset % 16 = 0 :=
  h.row.mem hc

/-- A node has room for its links and a footer behind it. -/
theorem WellFormed.node_bounds (h : m.WellFormed) (hq : q ∈ m.ring) : 48 ≤ q ∧ q + 32 ≤ m.brk := by
  obtain ⟨d, hd, rfl, -⟩ := (h.mem_ring q).1 hq
  have := h.mem hd
  omega

theorem WellFormed.brk_ge (h : m.WellFormed) : 48 ≤ m.brk := h.row.le

theorem WellFormed.brk_mod (h : m.WellFormed) : m.brk % 16 = 0 := h.row.stop_mod

/-! ## Looking blocks up -/

theorem find?_of_unique {f : Cell → Bool} (hc : c ∈ cells) (hf : f c = true)
    (huniq : ∀ d ∈ cells, f d = true → d = c) : cells.find? f = some c := by
  cases hfind : cells.find? f with
  | none => exact absurd hf (by simpa using List.find?_eq_none.1 hfind c hc)
  | some d =>
    have hd := huniq d (List.mem_of_find?_eq_some hfind) (List.find?_some hfind)
    exact congrArg some hd

theorem WellFormed.sizeAt_eq (h : m.WellFormed) (hc : c ∈ m.cells) :
    m.sizeAt c.offset = c.size := by
  have hfind : m.cells.find? (·.offset == c.offset) = some c :=
    find?_of_unique hc (by simp) fun d hd he => h.row.eq_of_offset hd hc (by simpa using he)
  simp only [sizeAt, cellAt?, hfind]
  rfl

def freeBefore (m : BlockMap) (p : Nat) : Option Cell :=
  m.cells.find? fun c => c.stop == p && !c.allocated

def freeAfter (m : BlockMap) (p : Nat) : Option Cell :=
  m.cells.find? fun c => c.offset == p && !c.allocated

theorem startBefore_eq (m : BlockMap) (p : Nat) :
    m.startBefore p = ((m.freeBefore p).map Cell.offset).getD p := rfl

theorem stopAfter_eq (m : BlockMap) (p : Nat) :
    m.stopAfter p = ((m.freeAfter p).map Cell.stop).getD p := rfl

theorem startBefore_of_none (h : m.freeBefore p = none) : m.startBefore p = p := by
  rw [startBefore_eq, h]
  rfl

theorem startBefore_of_some (h : m.freeBefore p = some d) : m.startBefore p = d.offset := by
  rw [startBefore_eq, h]
  rfl

theorem stopAfter_of_none (h : m.freeAfter p = none) : m.stopAfter p = p := by
  rw [stopAfter_eq, h]
  rfl

theorem stopAfter_of_some (h : m.freeAfter p = some d) : m.stopAfter p = d.offset + d.size := by
  rw [stopAfter_eq, h]
  rfl

theorem freeBefore_eq_some (h : m.freeBefore p = some d) :
    d ∈ m.cells ∧ d.offset + d.size = p ∧ d.allocated = false := by
  have hd := List.find?_some h
  simp only [Bool.and_eq_true, beq_iff_eq, Bool.not_eq_true'] at hd
  exact ⟨List.mem_of_find?_eq_some h, hd⟩

theorem freeAfter_eq_some (h : m.freeAfter p = some d) :
    d ∈ m.cells ∧ d.offset = p ∧ d.allocated = false := by
  have hd := List.find?_some h
  simp only [Bool.and_eq_true, beq_iff_eq, Bool.not_eq_true'] at hd
  exact ⟨List.mem_of_find?_eq_some h, hd⟩

theorem freeBefore_eq_none (h : m.freeBefore p = none) (hc : c ∈ m.cells)
    (hstop : c.offset + c.size = p) : c.allocated = true := by
  have hnot := List.find?_eq_none.1 h c hc
  simp only [Cell.stop, hstop] at hnot
  simpa using hnot

theorem freeAfter_eq_none (h : m.freeAfter p = none) (hc : c ∈ m.cells) (hoff : c.offset = p) :
    c.allocated = true := by
  have hnot := List.find?_eq_none.1 h c hc
  simp only [hoff] at hnot
  simpa using hnot

theorem WellFormed.freeBefore_stop (h : m.WellFormed) (hd : d ∈ m.cells) :
    m.freeBefore (d.offset + d.size) = if d.allocated then none else some d := by
  split
  · next halloc =>
    refine List.find?_eq_none.2 fun c hc hfound => ?_
    simp only [Bool.and_eq_true, beq_iff_eq, Bool.not_eq_true', Cell.stop] at hfound
    obtain rfl := h.row.eq_of_stop hc hd hfound.1
    simp [halloc] at hfound
  · next hfree =>
    refine find?_of_unique hd (by simp [Cell.stop, hfree]) fun c hc hfound => ?_
    simp only [Bool.and_eq_true, beq_iff_eq, Cell.stop] at hfound
    exact h.row.eq_of_stop hc hd hfound.1

theorem WellFormed.freeAfter_offset (h : m.WellFormed) (hd : d ∈ m.cells) :
    m.freeAfter d.offset = if d.allocated then none else some d := by
  split
  · next halloc =>
    refine List.find?_eq_none.2 fun c hc hfound => ?_
    simp only [Bool.and_eq_true, beq_iff_eq, Bool.not_eq_true'] at hfound
    obtain rfl := h.row.eq_of_offset hc hd hfound.1
    simp [halloc] at hfound
  · next hfree =>
    refine find?_of_unique hd (by simp [hfree]) fun c hc hfound => ?_
    simp only [Bool.and_eq_true, beq_iff_eq] at hfound
    exact h.row.eq_of_offset hc hd hfound.1

theorem WellFormed.freeBefore_first (h : m.WellFormed) : m.freeBefore 48 = none := by
  cases hfind : m.freeBefore 48 with
  | none => rfl
  | some d =>
    obtain ⟨hd, hstop, -⟩ := freeBefore_eq_some hfind
    have := h.mem hd
    omega

theorem WellFormed.freeAfter_end (h : m.WellFormed) (hp : m.brk ≤ p) : m.freeAfter p = none := by
  cases hfind : m.freeAfter p with
  | none => rfl
  | some d =>
    obtain ⟨hd, hoff, -⟩ := freeAfter_eq_some hfind
    have := h.mem hd
    omega

/-! ## Putting new blocks in place of old ones -/

theorem mem_splice :
    c ∈ splice cells lo hi new ↔
      (c ∈ cells ∧ c.offset < lo) ∨ c ∈ new ∨ (c ∈ cells ∧ hi ≤ c.offset) := by
  simp only [splice, List.mem_append, List.mem_filter, decide_eq_true_eq, or_assoc]

theorem row_splice {p : Nat} (h : Row p cells stop) (hlo : p ≤ lo) (hin : lo ≤ stop)
    (hcut : Uncut cells lo) (hcut' : Uncut cells hi) (hnew : Row lo new hi) :
    Row p (splice cells lo hi new) (max stop hi) := by
  have hfront := (h.split hlo hin hcut).1
  have hmid := hfront.append hnew
  by_cases hend : hi ≤ stop
  · rw [Nat.max_eq_left hend]
    exact hmid.append (h.split (Nat.le_trans hlo hnew.le) hend hcut').2
  · have hback : cells.filter (hi ≤ ·.offset) = [] := List.filter_eq_nil_iff.2 fun c hc => by
      have := h.mem hc
      simp
      omega
    rw [Nat.max_eq_right (by omega), splice, hback, List.append_nil]
    exact hmid

/-! ## One free block for a span -/

theorem mem_free_ring (m : BlockMap) :
    p ∈ (m.free lo hi).ring ↔ p = lo ∨ p ∈ m.ring ∧ (p < lo ∨ hi ≤ p) := by
  simp only [free, List.mem_cons, List.mem_filter, Bool.or_eq_true, decide_eq_true_eq]

theorem mem_free_cells (m : BlockMap) :
    c ∈ (m.free lo hi).cells ↔
      (c ∈ m.cells ∧ c.offset < lo) ∨ c = ⟨lo, hi - lo, false⟩ ∨ (c ∈ m.cells ∧ hi ≤ c.offset) := by
  simp only [free, mem_splice, List.mem_singleton]

/-- An offset where a block may start: a multiple of 16 above the sentinels that no block
straddles. -/
structure Seam (m : BlockMap) (q : Nat) : Prop where
  low : 48 ≤ q
  aligned : q % 16 = 0
  uncut : Uncut m.cells q

theorem WellFormed.seam_offset (h : m.WellFormed) (hc : c ∈ m.cells) : m.Seam c.offset :=
  ⟨(h.mem hc).1, (h.mem hc).2.2.2.2, h.row.uncut_offset hc⟩

theorem WellFormed.seam_stop (h : m.WellFormed) (hc : c ∈ m.cells) :
    m.Seam (c.offset + c.size) := by
  have := h.mem hc
  exact ⟨by omega, by omega, h.row.uncut_stop hc⟩

/-- A block ends at every seam but the first. -/
theorem WellFormed.ends (h : m.WellFormed) (hp : m.Seam p) (hin : p ≤ m.brk) :
    p = 48 ∨ ∃ d ∈ m.cells, d.offset + d.size = p := by
  have hfront := (h.row.split hp.low hin hp.uncut).1
  rcases hfront.ends with heq | ⟨d, hd, hstop⟩
  · exact .inl heq.symm
  · exact .inr ⟨d, (List.mem_filter.1 hd).1, hstop⟩

/-- A block starts at every seam but the last. -/
theorem WellFormed.starts (h : m.WellFormed) (hp : m.Seam p) (hin : p ≤ m.brk) :
    p = m.brk ∨ ∃ d ∈ m.cells, d.offset = p := by
  have hback := (h.row.split hp.low hin hp.uncut).2
  rcases hback.starts with heq | ⟨d, hd, hoff⟩
  · exact .inl heq
  · exact .inr ⟨d, (List.mem_filter.1 hd).1, hoff⟩

/-- The links of a node outside a span do not reach into its tags. -/
theorem WellFormed.node_outside (h : m.WellFormed) (hlo : m.Seam lo) (hq : q ∈ m.ring)
    (hout : q < lo ∨ hi ≤ q) : 48 ≤ q ∧ (q + 32 ≤ lo ∨ hi ≤ q) := by
  obtain ⟨d, hd, rfl, -⟩ := (h.mem_ring q).1 hq
  have := h.mem hd
  have := hlo.uncut d hd
  omega

theorem WellFormed.row_free (h : m.WellFormed) (hlo : m.Seam lo) (hhi : m.Seam hi)
    (hin : lo ≤ m.brk) (hlen : lo + 32 ≤ hi) :
    Row firstPayload (m.free lo hi).cells (max m.brk hi) := by
  have := hlo.aligned
  have := hhi.aligned
  refine row_splice h.row hlo.low hin hlo.uncut hhi.uncut ⟨rfl, ?_, ?_, ?_⟩
  · simp only
    omega
  · simp only
    omega
  · simp only [Row]
    omega

/-- **Freeing a span** keeps the map well formed if no free block touches the span from outside. -/
theorem WellFormed.free (h : m.WellFormed) (hlo : m.Seam lo) (hhi : m.Seam hi) (hin : lo ≤ m.brk)
    (hlen : lo + 32 ≤ hi)
    (hbefore : ∀ c ∈ m.cells, c.offset + c.size = lo → c.allocated = true)
    (hafter : ∀ c ∈ m.cells, c.offset = hi → c.allocated = true) : (m.free lo hi).WellFormed := by
  refine WellFormed.of_row _ (h.row_free hlo hhi hin hlen) ?_ ?_ ?_
  · intro c hc d hd hcd
    -- Below, in or above the span, for either block. Old blocks did not merge before, and the new
    -- one meets nothing but the allocated blocks on its two sides.
    rcases m.mem_free_cells.1 hc with ⟨hc, hlt⟩ | rfl | ⟨hc, hge⟩ <;>
      rcases m.mem_free_cells.1 hd with ⟨hd, hlt'⟩ | rfl | ⟨hd, hge'⟩
    · exact h.merged c hc d hd hcd
    · exact .inl (hbefore c hc hcd)
    · exact h.merged c hc d hd hcd
    · simp only at hcd
      omega
    · simp only at hcd
      omega
    · refine .inr (hafter d hd ?_)
      simp only at hcd
      omega
    · exact h.merged c hc d hd hcd
    · have := h.mem hc
      simp only at hcd
      omega
    · exact h.merged c hc d hd hcd
  · refine List.nodup_cons.2 ⟨?_, h.nodup.filter _⟩
    intro hmem
    have := (List.mem_filter.1 hmem).2
    simp at this
    omega
  · intro q
    rw [m.mem_free_ring]
    constructor
    · rintro (rfl | ⟨hq, hout⟩)
      · exact ⟨_, m.mem_free_cells.2 (.inr (.inl rfl)), rfl, rfl⟩
      · obtain ⟨c, hc, rfl, hfree⟩ := (h.mem_ring q).1 hq
        refine ⟨c, m.mem_free_cells.2 ?_, rfl, hfree⟩
        exact hout.imp (fun hlt => ⟨hc, hlt⟩) fun hge => .inr ⟨hc, hge⟩
    · rintro ⟨c, hc, rfl, hfree⟩
      rcases m.mem_free_cells.1 hc with ⟨hc, hlt⟩ | rfl | ⟨hc, hge⟩
      · exact .inr ⟨(h.mem_ring _).2 ⟨c, hc, rfl, hfree⟩, .inl hlt⟩
      · exact .inl rfl
      · exact .inr ⟨(h.mem_ring _).2 ⟨c, hc, rfl, hfree⟩, .inr hge⟩

theorem WellFormed.brk_free (h : m.WellFormed) (hlo : m.Seam lo) (hhi : m.Seam hi)
    (hin : lo ≤ m.brk) (hlen : lo + 32 ≤ hi) : (m.free lo hi).brk = max m.brk hi :=
  brk_eq (h.row_free hlo hhi hin hlen)

/-! ## Merging with the neighbours -/

/-- Where the merged block starts: no free block ends there, and what lies between is free. -/
theorem WellFormed.startBefore_spec (h : m.WellFormed) (hp : m.Seam p) :
    m.Seam (m.startBefore p) ∧ m.startBefore p ≤ p ∧
      (∀ c ∈ m.cells, c.offset + c.size = m.startBefore p → c.allocated = true) ∧
      ∀ c ∈ m.cells, c.allocated = true → m.startBefore p ≤ c.offset → p ≤ c.offset := by
  rw [startBefore_eq]
  cases hbefore : m.freeBefore p with
  | none =>
    exact ⟨hp, Nat.le_refl _, fun c hc hstop => freeBefore_eq_none hbefore hc hstop,
      fun _ _ _ hle => hle⟩
  | some d =>
    obtain ⟨hd, rfl, hfree⟩ := freeBefore_eq_some hbefore
    refine ⟨h.seam_offset hd, Nat.le_add_right _ _, ?_, ?_⟩
    · intro c hc hstop
      exact (h.merged c hc d hd hstop).resolve_right (by simp [hfree])
    · intro c hc halloc hle
      have := h.mem hc
      simp only [Option.map_some, Option.getD_some] at hle
      have hfar := h.apart_free hc halloc hd hfree
      omega

/-- Where the merged block ends: no free block starts there, and what lies between is free. -/
theorem WellFormed.stopAfter_spec (h : m.WellFormed) (hp : m.Seam p) :
    m.Seam (m.stopAfter p) ∧ p ≤ m.stopAfter p ∧ m.stopAfter p ≤ max m.brk p ∧
      (∀ c ∈ m.cells, c.offset = m.stopAfter p → c.allocated = true) ∧
      ∀ c ∈ m.cells, c.allocated = true → c.offset < m.stopAfter p → c.offset < p := by
  rw [stopAfter_eq]
  cases hafter : m.freeAfter p with
  | none =>
    exact ⟨hp, Nat.le_refl _, Nat.le_max_right _ _,
      fun c hc hoff => freeAfter_eq_none hafter hc hoff, fun _ _ _ hlt => hlt⟩
  | some d =>
    obtain ⟨hd, rfl, hfree⟩ := freeAfter_eq_some hafter
    refine ⟨h.seam_stop hd, Nat.le_add_right _ _,
      Nat.le_trans (h.mem hd).2.1 (Nat.le_max_left _ _), ?_, ?_⟩
    · intro c hc hoff
      exact (h.merged d hd c hc hoff.symm).resolve_left (by simp [hfree])
    · intro c hc halloc hlt
      have := h.mem hc
      simp only [Option.map_some, Option.getD_some, Cell.stop] at hlt
      have hfar := h.apart_free hc halloc hd hfree
      omega

theorem WellFormed.stopAfter_end (h : m.WellFormed) (hp : m.brk ≤ p) : m.stopAfter p = p := by
  rw [stopAfter_eq, h.freeAfter_end hp]
  rfl

/-! ## The nodes that merging takes out -/

theorem WellFormed.before_iff (h : m.WellFormed) (hq : q ∈ m.ring) (hlt : q < p) :
    some q ≠ (m.freeBefore p).map Cell.offset ↔ q < m.startBefore p := by
  rw [startBefore_eq]
  cases hbefore : m.freeBefore p with
  | none => simpa using hlt
  | some d =>
    obtain ⟨hd, rfl, -⟩ := freeBefore_eq_some hbefore
    obtain ⟨e, he, rfl, -⟩ := (h.mem_ring q).1 hq
    have := h.mem he
    simp only [Option.map_some, Option.getD_some, ne_eq, Option.some.injEq]
    rcases h.row.apart he hd with rfl | hfar | hfar <;> omega

theorem WellFormed.after_iff (h : m.WellFormed) (hq : q ∈ m.ring) (hle : p ≤ q) :
    some q ≠ (m.freeAfter p).map Cell.offset ↔ m.stopAfter p ≤ q := by
  rw [stopAfter_eq]
  cases hafter : m.freeAfter p with
  | none => simpa using hle
  | some d =>
    obtain ⟨hd, rfl, -⟩ := freeAfter_eq_some hafter
    obtain ⟨e, he, rfl, -⟩ := (h.mem_ring q).1 hq
    have := h.mem hd
    simp only [Option.map_some, Option.getD_some, ne_eq, Option.some.injEq, Cell.stop]
    rcases h.row.apart he hd with rfl | hfar | hfar
    · omega
    · have := h.mem he
      omega
    · omega

/-- The nodes in the merged span are the neighbours. -/
theorem WellFormed.ring_outside (h : m.WellFormed) (hp : m.Seam p) (hstop : m.Seam stop)
    (hle : p ≤ stop) (hin : ∀ q ∈ m.ring, q < p ∨ stop ≤ q) :
    m.ring.filter (fun q => q < m.startBefore p || m.stopAfter stop ≤ q) =
      (m.ring.filter (some · ≠ (m.freeBefore p).map Cell.offset)).filter
        (some · ≠ (m.freeAfter stop).map Cell.offset) := by
  have hlo := (h.startBefore_spec hp).2.1
  have hhi := (h.stopAfter_spec hstop).2.1
  rw [List.filter_filter]
  apply List.filter_congr
  intro q hq
  rw [Bool.eq_iff_iff]
  simp only [Bool.or_eq_true, Bool.and_eq_true, decide_eq_true_eq]
  -- A node lies on one side of the gap, and there only the neighbour on that side matters.
  rcases hin q hq with hlt | hge
  · have hafter : some q ≠ (m.freeAfter stop).map Cell.offset := fun heq => by
      obtain ⟨d, hd, hoff⟩ := Option.map_eq_some_iff.1 heq.symm
      have := (freeAfter_eq_some hd).2.1
      omega
    rw [h.before_iff hq hlt]
    refine ⟨fun hor => ⟨hafter, hor.resolve_right (by omega)⟩, fun hand => .inl hand.2⟩
  · have hbefore : some q ≠ (m.freeBefore p).map Cell.offset := fun heq => by
      obtain ⟨d, hd, hoff⟩ := Option.map_eq_some_iff.1 heq.symm
      have hdm := freeBefore_eq_some hd
      have := h.mem hdm.1
      omega
    rw [h.after_iff hq hge]
    refine ⟨fun hor => ⟨hor.resolve_left (by omega), hbefore⟩, fun hand => .inr hand.1⟩

/-! ## Releasing -/

/-- The span that a released block is merged into. -/
theorem WellFormed.span (h : m.WellFormed) (hc : c ∈ m.cells) :
    m.release c.offset = m.free (m.startBefore c.offset) (m.stopAfter (c.offset + c.size)) ∧
      m.Seam (m.startBefore c.offset) ∧ m.Seam (m.stopAfter (c.offset + c.size)) ∧
      m.startBefore c.offset ≤ c.offset ∧ c.offset + c.size ≤ m.stopAfter (c.offset + c.size) ∧
      m.stopAfter (c.offset + c.size) ≤ m.brk := by
  obtain ⟨hlo, hle, -⟩ := h.startBefore_spec (h.seam_offset hc)
  obtain ⟨hhi, hge, hbrk, -⟩ := h.stopAfter_spec (h.seam_stop hc)
  rw [Nat.max_eq_left (h.mem hc).2.1] at hbrk
  exact ⟨by rw [release, h.sizeAt_eq hc], hlo, hhi, hle, hge, hbrk⟩

theorem WellFormed.release (h : m.WellFormed) (hc : c ∈ m.cells) :
    (m.release c.offset).WellFormed ∧ (m.release c.offset).brk = m.brk := by
  obtain ⟨heq, hlo, hhi, hle, hge, hbrk⟩ := h.span hc
  have := h.mem hc
  rw [heq]
  refine ⟨h.free hlo hhi (by omega) (by omega) (h.startBefore_spec (h.seam_offset hc)).2.2.1
    (h.stopAfter_spec (h.seam_stop hc)).2.2.2.1, ?_⟩
  rw [h.brk_free hlo hhi (by omega) (by omega)]
  exact Nat.max_eq_left hbrk

/-- A merged span has no other allocated block in it. -/
theorem WellFormed.span_apart (h : m.WellFormed) (hc : c ∈ m.cells) (hd : d ∈ m.cells)
    (halloc : d.allocated = true) (hne : d.offset ≠ c.offset) :
    d.offset + d.size ≤ m.startBefore c.offset ∨ m.stopAfter (c.offset + c.size) ≤ d.offset := by
  have hdm := h.mem hd
  obtain ⟨hlo, -, -, hstart⟩ := h.startBefore_spec (h.seam_offset hc)
  obtain ⟨hhi, -, -, -, hstop⟩ := h.stopAfter_spec (h.seam_stop hc)
  rcases hlo.uncut d hd with hbelow | habove
  · exact .inl hbelow
  · refine .inr (Nat.le_of_not_lt ?_)
    intro hlt
    have hge := hstart d hd halloc habove
    have hlt' := hstop d hd halloc hlt
    have hfar := h.apart_of_ne hd hc hne
    omega

theorem WellFormed.allocated_release (h : m.WellFormed) (hc : c ∈ m.cells) :
    (d ∈ (m.release c.offset).cells ∧ d.allocated = true) ↔
      (d ∈ m.cells ∧ d.allocated = true) ∧ d.offset ≠ c.offset := by
  obtain ⟨heq, -, -, hle, hge, -⟩ := h.span hc
  have hcm := h.mem hc
  rw [heq, mem_free_cells]
  constructor
  · rintro ⟨⟨hd, hlt⟩ | rfl | ⟨hd, hlt⟩, halloc⟩
    · exact ⟨⟨hd, halloc⟩, by omega⟩
    · cases halloc
    · exact ⟨⟨hd, halloc⟩, by omega⟩
  · rintro ⟨⟨hd, halloc⟩, hne⟩
    have hdm := h.mem hd
    rcases h.span_apart hc hd halloc hne with hbelow | habove
    · exact ⟨.inl ⟨hd, by omega⟩, halloc⟩
    · exact ⟨.inr (.inr ⟨hd, habove⟩), halloc⟩

/-! ## Growing -/

theorem WellFormed.seam_end (h : m.WellFormed) (hq : m.brk ≤ p) (hmod : p % 16 = 0) : m.Seam p := by
  refine ⟨Nat.le_trans h.brk_ge hq, hmod, fun c hc => .inl ?_⟩
  exact Nat.le_trans (h.mem hc).2.1 hq

theorem WellFormed.grow (h : m.WellFormed) (hcount : 32 ≤ count) (hmod : count % 16 = 0) :
    (m.grow count).2.WellFormed ∧ (m.grow count).2.brk = m.brk + count ∧
      (∃ c ∈ (m.grow count).2.cells, c.offset = (m.grow count).1 ∧ c.allocated = false ∧
        count ≤ c.size) ∧
      ∀ d, (d ∈ (m.grow count).2.cells ∧ d.allocated = true) ↔
        d ∈ m.cells ∧ d.allocated = true := by
  have hbrk := h.brk_mod
  obtain ⟨hlo, hle, hbefore, hinner⟩ := h.startBefore_spec (h.seam_end (Nat.le_refl _) hbrk)
  have hhi : m.Seam (m.brk + count) := h.seam_end (Nat.le_add_right _ _) (by omega)
  simp only [BlockMap.grow]
  refine ⟨h.free hlo hhi hle (by omega) hbefore ?_, ?_, ?_, ?_⟩
  · intro c hc hoff
    have := h.mem hc
    omega
  · rw [h.brk_free hlo hhi hle (by omega)]
    omega
  · exact ⟨_, m.mem_free_cells.2 (.inr (.inl rfl)), rfl, rfl, by simp only; omega⟩
  · intro d
    rw [mem_free_cells]
    constructor
    · rintro ⟨⟨hd, -⟩ | rfl | ⟨hd, -⟩, halloc⟩
      · exact ⟨hd, halloc⟩
      · cases halloc
      · exact ⟨hd, halloc⟩
    · rintro ⟨hd, halloc⟩
      refine ⟨.inl ⟨hd, Nat.lt_of_not_le ?_⟩, halloc⟩
      intro hge
      have := hinner d hd halloc hge
      have := h.mem hd
      omega

/-- A new heap is what the map without blocks grows to. -/
theorem grow_empty (settings : Settings) :
    grow ⟨[], []⟩ settings.chunk = (48, fresh settings) := by
  simp [BlockMap.grow, BlockMap.free, fresh, startBefore, brk, splice]

/-! ## Handing out -/

/-- The blocks that a free block gives way to when some of its bytes are handed out. -/
def pieces (c : Cell) (size : Nat) : List Cell :=
  if size + 32 ≤ c.size then
    [⟨c.offset, size, true⟩, ⟨c.offset + size, c.size - size, false⟩]
  else [⟨c.offset, c.size, true⟩]

theorem row_pieces (hc : 32 ≤ c.size ∧ c.size % 16 = 0) (hmin : 32 ≤ size) (hmod : size % 16 = 0) :
    Row c.offset (pieces c size) (c.offset + c.size) := by
  unfold pieces
  split
  · refine ⟨rfl, hmin, hmod, rfl, ?_, ?_, ?_⟩ <;> simp only [Row] <;> omega
  · exact ⟨rfl, hc.1, hc.2, rfl⟩

theorem mem_pieces (hd : d ∈ pieces c size) :
    (d.offset = c.offset ∧ d.allocated = true ∧ (d.size = size ∨ d.size = c.size)) ∨
      (size + 32 ≤ c.size ∧ d = ⟨c.offset + size, c.size - size, false⟩) := by
  unfold pieces at hd
  split at hd
  · rcases List.mem_pair.1 hd with rfl | rfl
    · exact .inl ⟨rfl, rfl, .inl rfl⟩
    · exact .inr ⟨‹_›, rfl⟩
  · obtain rfl := List.mem_singleton.1 hd
    exact .inl ⟨rfl, rfl, .inr rfl⟩

theorem WellFormed.carve_eq (h : m.WellFormed) (hc : c ∈ m.cells) :
    m.carve c.offset size =
      ⟨splice m.cells c.offset (c.offset + c.size) (pieces c size),
        if size + 32 ≤ c.size then m.ring.map fun q => if q = c.offset then c.offset + size else q
        else m.ring.filter (· ≠ c.offset)⟩ := by
  simp only [carve, h.sizeAt_eq hc, minBlockSize, alignment, pieces]
  split <;> rfl

/-- Blocks in place of a free one merge with nothing, as its neighbours are allocated. -/
theorem WellFormed.merged_splice (h : m.WellFormed) (hc : c ∈ m.cells) (hfree : c.allocated = false)
    (hrow : Row c.offset new (c.offset + c.size))
    (hnew : ∀ d ∈ new, ∀ e ∈ new, d.offset + d.size = e.offset →
      d.allocated = true ∨ e.allocated = true) :
    ∀ d ∈ splice m.cells c.offset (c.offset + c.size) new,
      ∀ e ∈ splice m.cells c.offset (c.offset + c.size) new, d.offset + d.size = e.offset →
        d.allocated = true ∨ e.allocated = true := by
  have hcm := h.mem hc
  intro d hd e he hde
  -- The same nine cases as for a freed span.
  rcases mem_splice.1 hd with ⟨hd, hlt⟩ | hd | ⟨hd, hge⟩ <;>
    rcases mem_splice.1 he with ⟨he, hlt'⟩ | he | ⟨he, hge'⟩
  · exact h.merged d hd e he hde
  · -- The block before meets the first of the new ones where it met the old one.
    have hem := hrow.mem he
    have hstop : d.offset + d.size = c.offset := by
      rcases h.row.apart hd hc with rfl | hfar | hfar
      · omega
      · omega
      · have := h.mem hd
        omega
    exact .inl ((h.merged d hd c hc hstop).resolve_right (by simp [hfree]))
  · exact h.merged d hd e he hde
  · have := hrow.mem hd
    omega
  · exact hnew d hd e he hde
  · have hdm := hrow.mem hd
    have hstop : c.offset + c.size = e.offset := by omega
    exact .inr ((h.merged c hc e he hstop).resolve_left (by simp [hfree]))
  · exact h.merged d hd e he hde
  · have := hrow.mem he
    have := h.mem hd
    omega
  · exact h.merged d hd e he hde

theorem WellFormed.outside (h : m.WellFormed) (hc : c ∈ m.cells) (hd : d ∈ m.cells)
    (hne : d.offset ≠ c.offset) : d.offset < c.offset ∨ c.offset + c.size ≤ d.offset := by
  have := h.mem hd
  have hfar := h.apart_of_ne hd hc hne
  omega

/-- No node lies in another block. -/
theorem WellFormed.other_node_outside (h : m.WellFormed) (hc : c ∈ m.cells) (hq : q ∈ m.ring)
    (hne : q ≠ c.offset) : q < c.offset ∨ c.offset + c.size ≤ q := by
  obtain ⟨d, hd, rfl, -⟩ := (h.mem_ring q).1 hq
  exact h.outside hc hd hne

/-- No node lies in an allocated block. -/
theorem WellFormed.nodes_outside (h : m.WellFormed) (hc : c ∈ m.cells)
    (halloc : c.allocated = true) (hq : q ∈ m.ring) : q < c.offset ∨ c.offset + c.size ≤ q := by
  obtain ⟨d, hd, rfl, hfree⟩ := (h.mem_ring q).1 hq
  exact h.outside hc hd (h.offset_ne hc halloc hd hfree)

/-- No node lies where the rest of a block starts. -/
theorem WellFormed.rest_not_mem (h : m.WellFormed) (hc : c ∈ m.cells) (hmin : 32 ≤ size)
    (hsplit : size + 32 ≤ c.size) : c.offset + size ∉ m.ring := by
  intro hmem
  have := h.other_node_outside hc hmem (by omega)
  omega

theorem WellFormed.nodup_carve (h : m.WellFormed) (hc : c ∈ m.cells) (hmin : 32 ≤ size) :
    (m.carve c.offset size).ring.Nodup := by
  rw [h.carve_eq hc]
  show (if size + 32 ≤ c.size then _ else _ : List Nat).Nodup
  split
  · next hsplit =>
    have hrest := h.rest_not_mem hc hmin hsplit
    refine List.Nodup.map_on ?_ h.nodup
    intro q hq r hr heq
    by_cases hqc : q = c.offset <;> by_cases hrc : r = c.offset
    · exact hqc.trans hrc.symm
    · rw [if_pos hqc, if_neg hrc] at heq
      exact absurd (heq ▸ hr) hrest
    · rw [if_neg hqc, if_pos hrc] at heq
      exact absurd (heq ▸ hq) hrest
    · rwa [if_neg hqc, if_neg hrc] at heq
  · exact h.nodup.filter _

/-- The other nodes stay, and the rest is one if there is a rest. -/
theorem WellFormed.mem_ring_carve (h : m.WellFormed) (hc : c ∈ m.cells)
    (hfree : c.allocated = false) :
    p ∈ (m.carve c.offset size).ring ↔
      (p ∈ m.ring ∧ p ≠ c.offset) ∨ (size + 32 ≤ c.size ∧ p = c.offset + size) := by
  have hnode : c.offset ∈ m.ring := (h.mem_ring _).2 ⟨c, hc, rfl, hfree⟩
  rw [h.carve_eq hc]
  show p ∈ (if size + 32 ≤ c.size then _ else _ : List Nat) ↔ _
  split
  · next hsplit =>
    rw [List.mem_map]
    constructor
    · rintro ⟨q, hq, rfl⟩
      by_cases heq : q = c.offset
      · rw [if_pos heq]
        exact .inr ⟨hsplit, rfl⟩
      · rw [if_neg heq]
        exact .inl ⟨hq, heq⟩
    · rintro (⟨hp, hne⟩ | ⟨-, rfl⟩)
      · exact ⟨p, hp, if_neg hne⟩
      · exact ⟨c.offset, hnode, if_pos rfl⟩
  · next hwhole =>
    rw [List.mem_filter, decide_eq_true_iff]
    constructor
    · exact .inl
    · rintro (hp | ⟨hsplit, -⟩)
      · exact hp
      · exact absurd hsplit hwhole

/-- **Carving** keeps the map well formed. -/
theorem WellFormed.carve (h : m.WellFormed) (hc : c ∈ m.cells) (hfree : c.allocated = false)
    (hmin : 32 ≤ size) (hmod : size % 16 = 0) :
    (m.carve c.offset size).WellFormed ∧ (m.carve c.offset size).brk = m.brk := by
  have hcm := h.mem hc
  have hpieces := row_pieces (c := c) ⟨hcm.2.2.1, hcm.2.2.2.1⟩ hmin hmod
  have hcells : (m.carve c.offset size).cells =
      splice m.cells c.offset (c.offset + c.size) (pieces c size) := by
    rw [h.carve_eq hc]
  have hrow :=
    row_splice h.row hcm.1 (by omega) (h.row.uncut_offset hc) (h.row.uncut_stop hc) hpieces
  rw [Nat.max_eq_left hcm.2.1, ← hcells] at hrow
  refine ⟨WellFormed.of_row _ hrow ?_ (h.nodup_carve hc hmin) ?_, brk_eq hrow⟩
  · rw [hcells]
    apply h.merged_splice hc hfree hpieces
    intro d hd e he hde
    rcases mem_pieces hd with ⟨-, halloc, -⟩ | ⟨hsplit, rfl⟩
    · exact .inl halloc
    · rcases mem_pieces he with ⟨-, halloc, -⟩ | ⟨-, rfl⟩
      · exact .inr halloc
      · simp only at hde
        omega
  · intro q
    rw [h.mem_ring_carve hc hfree, hcells]
    constructor
    · rintro (⟨hq, hne⟩ | ⟨hsplit, rfl⟩)
      · obtain ⟨d, hd, rfl, hdfree⟩ := (h.mem_ring q).1 hq
        rcases h.outside hc hd hne with hlt | hge
        · exact ⟨d, mem_splice.2 (.inl ⟨hd, hlt⟩), rfl, hdfree⟩
        · exact ⟨d, mem_splice.2 (.inr (.inr ⟨hd, hge⟩)), rfl, hdfree⟩
      · have hrest : ⟨c.offset + size, c.size - size, false⟩ ∈ pieces c size := by
          rw [pieces, if_pos hsplit]
          exact List.mem_pair.2 (.inr rfl)
        exact ⟨_, mem_splice.2 (.inr (.inl hrest)), rfl, rfl⟩
    · rintro ⟨d, hd, rfl, hdfree⟩
      have hold : d ∈ m.cells → d.offset ∈ m.ring := fun hd => (h.mem_ring _).2 ⟨d, hd, rfl, hdfree⟩
      rcases mem_splice.1 hd with ⟨hd, hlt⟩ | hd | ⟨hd, hge⟩
      · exact .inl ⟨hold hd, by omega⟩
      · rcases mem_pieces hd with ⟨-, halloc, -⟩ | ⟨hsplit, rfl⟩
        · rw [hdfree] at halloc
          cases halloc
        · exact .inr ⟨hsplit, rfl⟩
      · exact .inl ⟨hold hd, by omega⟩

/-- The block that carving hands out: as long as was asked for, or the whole block if the rest could
not stand alone. -/
def handed (c : Cell) (size : Nat) : Cell :=
  ⟨c.offset, if size + 32 ≤ c.size then size else c.size, true⟩

theorem handed_offset (c : Cell) (size : Nat) : (handed c size).offset = c.offset := rfl

theorem handed_mem_pieces (c : Cell) (size : Nat) : handed c size ∈ pieces c size := by
  unfold handed pieces
  split <;> simp

theorem eq_handed (hd : d ∈ pieces c size) (halloc : d.allocated = true) : d = handed c size := by
  unfold pieces at hd
  unfold handed
  split at hd
  · next hsplit =>
    rcases List.mem_pair.1 hd with rfl | rfl
    · rw [if_pos hsplit]
    · cases halloc
  · next hwhole =>
    rw [if_neg hwhole]
    exact List.mem_singleton.1 hd

theorem WellFormed.allocated_carve (h : m.WellFormed) (hc : c ∈ m.cells)
    (hfree : c.allocated = false) :
    (d ∈ (m.carve c.offset size).cells ∧ d.allocated = true) ↔
      (d ∈ m.cells ∧ d.allocated = true) ∨ d = handed c size := by
  rw [h.carve_eq hc, mem_splice]
  constructor
  · rintro ⟨⟨hd, -⟩ | hd | ⟨hd, -⟩, halloc⟩
    · exact .inl ⟨hd, halloc⟩
    · exact .inr (eq_handed hd halloc)
    · exact .inl ⟨hd, halloc⟩
  · rintro (⟨hd, halloc⟩ | rfl)
    · have hne : d.offset ≠ c.offset := (h.offset_ne hd halloc hc hfree).symm
      rcases h.outside hc hd hne with hlt | hge
      · exact ⟨.inl ⟨hd, hlt⟩, halloc⟩
      · exact ⟨.inr (.inr ⟨hd, hge⟩), halloc⟩
    · exact ⟨.inr (.inl (handed_mem_pieces c size)), rfl⟩

theorem WellFormed.handed_mem (h : m.WellFormed) (hc : c ∈ m.cells) (hfree : c.allocated = false) :
    handed c size ∈ (m.carve c.offset size).cells :=
  ((h.allocated_carve hc hfree).2 (.inr rfl)).1

/-! ## Finding a block -/

theorem WellFormed.firstFit_eq_some (h : m.WellFormed) (hfit : m.firstFit size = some p) :
    ∃ c ∈ m.cells, c.offset = p ∧ c.allocated = false ∧ size ≤ c.size := by
  obtain ⟨c, hc, rfl, hfree⟩ := (h.mem_ring p).1 (List.mem_of_find?_eq_some hfit)
  have hle := List.find?_some hfit
  rw [h.sizeAt_eq hc] at hle
  exact ⟨c, hc, rfl, hfree, by simpa using hle⟩

theorem extensionSize_eq_some {adjusted chunk : Nat}
    (h : extensionSize adjusted chunk = some count) :
    adjusted ≤ count ∧ chunk ≤ count ∧ count % 16 = 0 ∧ count < 0x10000000000000000 := by
  obtain ⟨hlt, rfl⟩ := alignUp_eq_some_iff.1 h
  omega

theorem adjustedSize_bounds {n : Nat} (h : adjustedSize n = some size) :
    32 ≤ size ∧ size % 16 = 0 ∧ size < 0x10000000000000000 ∧ n + 16 ≤ size := by
  obtain ⟨hpos, hlt, rfl⟩ := adjustedSize_eq_some_iff.1 h
  omega

/-- A block that is found is free, long enough, and part of a map that has no other allocated blocks
than the map it was asked of. -/
theorem WellFormed.findBlock (h : m.WellFormed) {settings : Settings} {m' : BlockMap}
    (hvalid : settings.Valid) (hfind : m.findBlock settings size = some (p, m')) :
    m'.WellFormed ∧ m.brk ≤ m'.brk ∧
      (∃ c ∈ m'.cells, c.offset = p ∧ c.allocated = false ∧ size ≤ c.size) ∧
      ∀ d, (d ∈ m'.cells ∧ d.allocated = true) ↔ d ∈ m.cells ∧ d.allocated = true := by
  unfold BlockMap.findBlock at hfind
  cases hfit : m.firstFit size with
  | some q =>
    simp only [hfit, Option.some.injEq, Prod.mk.injEq] at hfind
    obtain ⟨rfl, rfl⟩ := hfind
    exact ⟨h, Nat.le_refl _, h.firstFit_eq_some hfit, fun _ => Iff.rfl⟩
  | none =>
    simp only [hfit, Option.bind_eq_some_iff] at hfind
    obtain ⟨count, hext, hfind⟩ := hfind
    obtain ⟨hsize, hchunk, hmod, -⟩ := extensionSize_eq_some hext
    split at hfind
    · have hge := hvalid.chunk_ge
      obtain ⟨hwf, hbrk, ⟨c, hc, hoff, hfree, hle⟩, halloc⟩ := h.grow (Nat.le_trans hge hchunk) hmod
      simp only [Option.some.injEq] at hfind
      rw [hfind] at hwf hbrk hc hoff halloc
      simp only at hbrk
      exact ⟨hwf, by omega, ⟨c, hc, hoff, hfree, by omega⟩, halloc⟩
    · cases hfind

/-! ## Requests -/

/-- An allocated block starts there. -/
def Live (m : BlockMap) (p : Nat) : Prop :=
  ∃ c ∈ m.cells, c.offset = p ∧ c.allocated = true

/-- A request that gets nothing changes nothing. -/
theorem allocate_eq_none {settings : Settings} {n : Nat} {m' : BlockMap}
    (h : m.allocate settings n = (none, m')) : m' = m := by
  unfold BlockMap.allocate at h
  cases hadj : adjustedSize n with
  | none =>
    rw [hadj] at h
    exact (Prod.mk.inj h).2.symm
  | some size =>
    simp only [hadj] at h
    cases hfind : m.findBlock settings size with
    | none =>
      rw [hfind] at h
      exact (Prod.mk.inj h).2.symm
    | some found =>
      rw [hfind] at h
      cases (Prod.mk.inj h).1

theorem allocate_eq_some_iff {settings : Settings} {n : Nat} {m' : BlockMap} :
    m.allocate settings n = (some p, m') ↔ ∃ size m₁, adjustedSize n = some size ∧
      m.findBlock settings size = some (p, m₁) ∧ m' = m₁.carve p size := by
  unfold BlockMap.allocate
  cases hadj : adjustedSize n with
  | none => simp
  | some size =>
    cases hfind : m.findBlock settings size with
    | none => simp [hfind]
    | some found =>
      obtain ⟨q, m₁⟩ := found
      simp only [hfind, Prod.mk.injEq, Option.some.injEq, exists_and_left, exists_eq_left']
      constructor
      · rintro ⟨rfl, rfl⟩
        exact ⟨m₁, ⟨rfl, rfl⟩, rfl⟩
      · rintro ⟨m₂, ⟨rfl, rfl⟩, rfl⟩
        exact ⟨rfl, rfl⟩

/-- A request that gets a block gets one that nobody had, and nobody loses any. -/
theorem WellFormed.allocate (h : m.WellFormed) {settings : Settings} {n : Nat} {m' : BlockMap}
    (hvalid : settings.Valid) (hall : m.allocate settings n = (some q, m')) :
    m'.WellFormed ∧ m.brk ≤ m'.brk ∧ ¬ m.Live q ∧ 0 < n ∧
      ∃ e, e.offset = q ∧ e.allocated = true ∧ n + 16 ≤ e.size ∧
        ∀ d, (d ∈ m'.cells ∧ d.allocated = true) ↔ (d ∈ m.cells ∧ d.allocated = true) ∨ d = e := by
  obtain ⟨size, m₁, hadj, hfind, rfl⟩ := allocate_eq_some_iff.1 hall
  obtain ⟨hmin, hmod, -, hlen⟩ := adjustedSize_bounds hadj
  obtain ⟨hwf, hbrk, ⟨c, hc, rfl, hfree, hfit⟩, halloc⟩ := h.findBlock hvalid hfind
  obtain ⟨hwf', hbrk'⟩ := hwf.carve hc hfree hmin hmod
  have hpos := (adjustedSize_eq_some_iff.1 hadj).1
  refine ⟨hwf', by omega, ?_, hpos, handed c size, rfl, rfl, ?_, ?_⟩
  · rintro ⟨d, hd, hoff, hda⟩
    exact hwf.offset_ne ((halloc d).2 ⟨hd, hda⟩).1 hda hc hfree hoff.symm
  · unfold handed
    simp only
    split <;> omega
  · intro d
    rw [hwf.allocated_carve hc hfree, halloc d]

end BlockMap
end BoundaryHeap
