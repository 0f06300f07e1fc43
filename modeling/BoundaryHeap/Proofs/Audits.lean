import BoundaryHeap.Heap.Access
import BoundaryHeap.Proofs.Rings
import BoundaryHeap.Proofs.Tilings

/-!
# The audit of a sound heap

An audit trusts nothing and so takes every branch that a broken heap could need. On a sound heap it
takes one: the walk over the blocks visits the tiles (`InOrder.blockWalk_eq`), the walk round the ring
visits the nodes (`IsRing.ringWalk_eq`), each with nothing to find, and the two counts agree. **A
sound heap passes** (`Sound.inspect_spec`), and what is tallied on the way is bounded by the heap.
-/

set_option autoImplicit false

namespace BoundaryHeap

variable {a : Arena} {blocks : List Block} {ring xs row : List Nat} {p q stop : Nat} {b c : Block}
  {s : HeapStats} {v : Visit} {w : BlockWalk} {freeBefore : Option Nat}

/-! ## The walk over the blocks -/

/-- The block as a walk meets it when both of its tags are the same. -/
def Block.visit (b : Block) : Visit :=
  ⟨b.payload, b.tag, b.tag⟩

namespace Arena

theorem blockWalkFrom_of_tiles {last : Tag} (h : a.Tiles p blocks stop) (hin : stop ≤ a.brk)
    (hlast : a.header stop = .ok last) (hempty : last.size = 0) :
    a.blockWalkFrom p = .ok ⟨blocks.map Block.visit, .emptyBlock stop last⟩ := by
  induction blocks generalizing p with
  | nil =>
    obtain rfl : p = stop := h
    rw [blockWalkFrom, if_neg (by omega), hlast]
    simp [hempty]
  | cons b rest ih =>
    obtain ⟨rfl, hpos, hheader, hfooter, hrest⟩ := h
    have hle := hrest.le
    rw [blockWalkFrom, if_neg (by omega), hheader]
    simp only [wordSize]
    rw [if_neg (by omega), if_pos (by omega), hfooter, ih hrest]
    rfl

end Arena

theorem misalignment_eq_nil_iff : misalignment p = [] ↔ p % 16 = 0 := by
  simp [misalignment]

/-- A block is in order by itself and next to the one before it. -/
theorem violations_eq_nil_iff : v.violations freeBefore = [] ↔
    v.payload % 16 = 0 ∧ v.footer = v.header ∧
      (freeBefore.isSome = true → v.header.allocated = true) := by
  simp only [Visit.violations, List.append_eq_nil_iff, misalignment_eq_nil_iff, and_assoc]
  apply and_congr_right
  intro _
  apply and_congr
  · simp
  · cases freeBefore <;> simp [Tag.isFree]

/-- Nothing is wrong with aligned blocks of which no two in a row are free. -/
theorem visitViolations_eq_nil (hmod : ∀ b ∈ blocks, b.payload % 16 = 0)
    (hmerged : Merged blocks)
    (hfirst : freeBefore.isSome = true → ∀ b ∈ blocks.head?, b.tag.allocated = true) :
    visitViolations freeBefore (blocks.map Block.visit) = [] := by
  -- What the walk remembers is the block before it, if that one was free.
  induction blocks generalizing freeBefore with
  | nil => rfl
  | cons b rest ih =>
    have hrest : visitViolations (if b.tag.isFree then some b.payload else none)
        (rest.map Block.visit) = [] := ih
      (fun c hc => hmod c (List.mem_cons_of_mem _ hc)) hmerged.tail (fun hfree c hc => by
        cases rest with
        | nil => cases hc
        | cons d rest =>
          obtain rfl := Option.some.inj hc
          apply ((List.isChain_cons_cons.1 hmerged).1).resolve_left
          intro halloc
          simp [Tag.isFree, halloc] at hfree)
    have hown : b.visit.violations freeBefore = [] :=
      violations_eq_nil_iff.2 ⟨hmod b List.mem_cons_self, rfl, fun hsome => hfirst hsome b rfl⟩
    rw [List.map_cons, visitViolations, hown]
    exact hrest

namespace Arena

/-- Nothing is wrong with a walk over tiles from the prologue to the epilogue at the mark. -/
theorem Tiles.walk_violations (h : a.Tiles firstPayload blocks stop) (hmerged : Merged blocks) :
    BlockWalk.violations stop ⟨blocks.map Block.visit, .emptyBlock stop Tag.epilogue⟩ = [] := by
  have hvisits : visitViolations none (blocks.map Block.visit) = [] :=
    visitViolations_eq_nil (fun b hb => (h.mem hb).2.2.1) hmerged (fun hsome => by cases hsome)
  simp only [BlockWalk.violations, hvisits, WalkEnd.violations, Tag.epilogue]
  simp

theorem prologueViolations_eq_nil_iff {header footer : Tag} :
    prologueViolations header footer = [] ↔ header = Tag.sentinel ∧ footer = Tag.sentinel := by
  simp [prologueViolations]

theorem InOrder.blockWalk_eq (h : a.InOrder blocks) :
    a.blockWalk = .ok ⟨blocks.map Block.visit, .emptyBlock a.brk Tag.epilogue⟩ :=
  blockWalkFrom_of_tiles h.tiles (Nat.le_refl _) h.epilogue rfl

theorem InOrder.freeCount_eq (h : a.InOrder blocks) (hwalk : a.blockWalk = .ok w) :
    w.freeCount = (blocks.filter fun b => b.tag.isFree).length := by
  obtain rfl := Except.ok.inj (hwalk.symm.trans h.blockWalk_eq)
  rw [BlockWalk.freeCount, List.countP_map, List.countP_eq_length_filter]
  rfl

/-! ## The walk round the ring -/

theorem linkInBounds_eq (hmod : q % 16 = 0) (hlow : 16 ≤ q) (hfit : q + 16 ≤ a.brk) :
    a.linkInBounds q = .ok true := by
  have hlt := a.brk_lt
  have hsum : addOffset q 16 = .ok (q + 16) := addOffset_of_lt (by omega)
  have hguard : q % alignment = 0 ∧ prologue ≤ q := ⟨hmod, hlow⟩
  unfold linkInBounds
  rw [if_pos hguard]
  show (addOffset q 16).map _ = _
  rw [hsum]
  exact congrArg Except.ok (decide_eq_true hfit)

theorem IsRing.inBounds (h : a.IsRing ring) (hq : q = prologue ∨ q ∈ ring) :
    a.linkInBounds q = .ok true :=
  linkInBounds_eq (h.node hq).1 (h.node hq).2.1 (h.node hq).2.2

theorem IsRing.destination_eq (h : a.IsRing ring) (hq : q ∈ ring) :
    a.destination q = .ok .node := by
  have hne : q ≠ prologue := fun heq => h.prologue_not_mem (heq ▸ hq)
  rw [destination, h.inBounds (.inr hq)]
  simp only [Except.map, Bool.not_true, Bool.false_eq_true, if_false, hne]

theorem IsRing.destination_prologue (h : a.IsRing ring) :
    a.destination prologue = .ok .sentinel := by
  rw [destination, h.inBounds (.inl rfl)]
  rfl

theorem IsRing.leadsBack_next (h : a.IsRing ring) (hq : q = prologue ∨ q ∈ ring)
    (hback : a.prevLink q = .ok p) :
    a.leadsBack q Links.prev p = .ok true := by
  obtain ⟨links, hlinks, hprev, -⟩ := links_ok (h.node hq).2.2
  have hp : links.prev = p := Except.ok.inj (hprev.symm.trans hback)
  simp only [leadsBack, h.inBounds hq, hlinks, ok_bind, if_true, hp, beq_self_eq_true]
  rfl

theorem IsRing.leadsBack_prev (h : a.IsRing ring) (hq : q = prologue ∨ q ∈ ring)
    (hback : a.nextLink q = .ok p) :
    a.leadsBack q Links.next p = .ok true := by
  obtain ⟨links, hlinks, -, hnext⟩ := links_ok (h.node hq).2.2
  have hp : links.next = p := Except.ok.inj (hnext.symm.trans hback)
  simp only [leadsBack, h.inBounds hq, hlinks, ok_bind, if_true, hp, beq_self_eq_true]
  rfl

theorem IsRing.nodeViolations_eq (h : a.IsRing (xs ++ [p] ++ row))
    (hnode : a.isNode p = .ok true) :
    a.nodeViolations p ⟨xs.getLastD prologue, row.headD prologue⟩ = .ok [] := by
  obtain ⟨hin, hout⟩ := h.adjacent
  simp only [nodeViolations, hnode, h.leadsBack_next (headD_mem xs [p] row) hout.2,
    h.leadsBack_prev (getLastD_mem xs [p] row) hin.1, ok_bind]
  rfl

/-- From any node on, the walk meets the rest of the ring and finds nothing. -/
theorem IsRing.ringWalkFrom_eq {source budget : Nat} (h : a.IsRing (xs ++ row))
    (hnode : ∀ q ∈ row, a.isNode q = .ok true) (hbudget : row.length ≤ budget) :
    a.ringWalkFrom source (row.headD prologue) budget = .ok ⟨row, []⟩ := by
  -- The nodes that were met already move from `row` to `xs`, so the ring stays the same one.
  induction row generalizing xs source budget with
  | nil =>
    have hstop := h.destination_prologue
    cases budget <;> simp only [ringWalkFrom, List.headD_nil, hstop, ok_bind] <;> rfl
  | cons q rest ih =>
    obtain ⟨n, rfl⟩ : ∃ n, budget = n + 1 := ⟨budget - 1, by simp at hbudget; omega⟩
    have hin : q ∈ xs ++ q :: rest := by simp
    have hdest := h.destination_eq hin
    rw [← List.singleton_append, ← List.append_assoc] at h
    have hrest : a.ringWalkFrom q (rest.headD prologue) n = .ok ⟨rest, []⟩ := ih h
      (fun r hr => hnode r (List.mem_cons_of_mem _ hr)) (by simpa using hbudget)
    simp only [ringWalkFrom, List.headD_cons, hdest, h.links_eq,
      h.nodeViolations_eq (hnode q List.mem_cons_self), hrest, ok_bind]
    rfl

theorem Sound.isNode_eq (h : a.Sound blocks ring) (hq : q ∈ ring) : a.isNode q = .ok true := by
  obtain ⟨b, hb, rfl, hfree⟩ := (h.mem_ring q).1 hq
  have hheader := (h.tiles.mem hb).2.2.2
  unfold isNode
  split
  · rfl
  · rw [hheader]
    exact congrArg Except.ok hfree

theorem mem_payloads {f : Block → Bool} :
    p ∈ (blocks.filter f).map Block.payload ↔ ∃ b ∈ blocks, b.payload = p ∧ f b = true := by
  rw [List.mem_map]
  constructor
  · rintro ⟨b, hb, hoff⟩
    exact ⟨b, (List.mem_filter.1 hb).1, hoff, (List.mem_filter.1 hb).2⟩
  · rintro ⟨b, hb, hoff, hfree⟩
    exact ⟨b, List.mem_filter.2 ⟨hb, hfree⟩, hoff⟩

/-- Offsets that are listed once each are as many as the blocks there. -/
theorem Tiles.length_eq {f : Block → Bool} {ps : List Nat} (h : a.Tiles p blocks stop)
    (hnodup : ps.Nodup) (hmem : ∀ q, q ∈ ps ↔ ∃ b ∈ blocks, b.payload = q ∧ f b = true) :
    ps.length = (blocks.filter f).length := by
  have hnodup' : ((blocks.filter f).map Block.payload).Nodup :=
    h.nodup.sublist (List.filter_sublist.map _)
  have hperm : ps.Perm ((blocks.filter f).map Block.payload) := by
    apply (List.perm_ext_iff_of_nodup hnodup hnodup').2
    intro q
    rw [hmem, mem_payloads]
  rw [hperm.length_eq, List.length_map]

/-- The ring has as many nodes as there are free blocks. -/
theorem Sound.length_ring (h : a.Sound blocks ring) :
    ring.length = (blocks.filter fun b => b.tag.isFree).length :=
  h.tiles.length_eq h.isRing.nodup h.mem_ring

theorem Tiles.length_le (h : a.Tiles p blocks stop) (hsizes : ∀ b ∈ blocks, 32 ≤ b.tag.size) :
    p + 32 * blocks.length ≤ stop := by
  induction blocks generalizing p with
  | nil => exact Nat.le_of_eq h
  | cons b rest ih =>
    obtain ⟨rfl, -, -, -, hrest⟩ := h
    have hsize := hsizes b List.mem_cons_self
    have := ih hrest fun c hc => hsizes c (List.mem_cons_of_mem _ hc)
    simp only [List.length_cons]
    omega

theorem Sound.ringWalk_eq (h : a.Sound blocks ring) : a.ringWalk = .ok ⟨ring, []⟩ := by
  have hge := h.overhead_le_brk
  have hlen : ring.length ≤ blocks.length := h.length_ring ▸ List.length_filter_le _ _
  have hroom := h.tiles.length_le h.sizes
  have hempty : a.IsRing ([] ++ ring) := h.isRing
  have hwalk : a.ringWalkFrom prologue (ring.headD prologue) a.ringLimit = .ok ⟨ring, []⟩ := by
    apply hempty.ringWalkFrom_eq (fun q hq => h.isNode_eq hq)
    simp only [ringLimit, minBlockSize, alignment]
    omega
  obtain ⟨links, hlinks, -, hnext⟩ :=
    links_ok (a := a) (q := prologue) (by simp only [prologue, wordSize]; omega)
  have hhead : links.next = ring.headD prologue :=
    Except.ok.inj (hnext.symm.trans h.isRing.nextLink_prologue)
  simp only [ringWalk, hlinks, hhead, ok_bind]
  exact hwalk

/-! ## The report -/

theorem dumpBlock_ok (p : Nat) (header footer : Tag) :
    ∃ line, a.dumpBlock p header footer = .ok line := by
  unfold dumpBlock
  split
  · next hshown =>
    obtain ⟨links, hlinks, -⟩ := links_ok (a := a) (q := p) hshown.2
    rw [hlinks]
    exact ⟨_, rfl⟩
  · exact ⟨_, rfl⟩

theorem dumpWalk_ok (w : BlockWalk) : ∃ lines, a.dumpWalk w = .ok lines := by
  have hlines : ∀ visits : List Visit,
      ∃ lines, (visits.mapM fun v => a.dumpBlock v.payload v.header v.footer) = .ok lines := by
    intro visits
    induction visits with
    | nil => exact ⟨[], rfl⟩
    | cons v rest ih =>
      obtain ⟨lines, hlines⟩ := ih
      obtain ⟨line, hline⟩ := dumpBlock_ok (a := a) v.payload v.header v.footer
      exact ⟨line :: lines, by rw [List.mapM_cons, hline, hlines]; rfl⟩
  obtain ⟨lines, hlines⟩ := hlines w.visits
  simp only [dumpWalk, hlines, ok_bind]
  cases w.ending <;> exact ⟨_, rfl⟩

/-- Dumped or not, an audit does no more than walk round the ring and tally, once the prologue and the
walk over the blocks are read. -/
theorem inspect_eq_bind {header footer : Tag} {walk : BlockWalk} (verbose : Bool)
    (htags : a.prologueTags = .ok (header, footer)) (hwalk : a.blockWalk = .ok walk) :
    (a.inspect verbose).result =
      a.ringWalk >>= fun ring => a.stats >>= fun stats => .ok
        { stats
          ringLength := ring.nodes.length
          violations := prologueViolations header footer ++ walk.violations a.brk ++
            ring.violations ++ countViolations walk.freeCount ring.nodes.length } := by
  obtain ⟨line, hline⟩ := dumpBlock_ok (a := a) prologue header footer
  obtain ⟨lines, hlines⟩ := dumpWalk_ok (a := a) walk
  cases verbose with
  | false =>
    simp only [inspect, htags, hwalk, Bool.false_eq_true, if_false, Traced.result_bind,
      Traced.result_lift, Traced.result_pure, ok_bind]
  | true =>
    simp only [inspect, htags, hwalk, hline, hlines, if_true, Traced.result_bind,
      Traced.result_lift, Traced.result_emit, Traced.result_emitAll, Traced.result_pure, ok_bind]

/-- What an audit finds is what the two walks and the tally find. -/
theorem inspect_eq {header footer : Tag} {walk : BlockWalk} {found : RingWalk} {stats : HeapStats}
    (verbose : Bool) (htags : a.prologueTags = .ok (header, footer))
    (hwalk : a.blockWalk = .ok walk) (hring : a.ringWalk = .ok found)
    (hstats : a.stats = .ok stats) :
    (a.inspect verbose).result = .ok
      { stats
        ringLength := found.nodes.length
        violations := prologueViolations header footer ++ walk.violations a.brk ++
          found.violations ++ countViolations walk.freeCount found.nodes.length } := by
  rw [inspect_eq_bind verbose htags hwalk, hring, ok_bind, hstats, ok_bind]

/-- A heap with its blocks in order passes as soon as the walk round the ring finds nothing and meets
as many nodes as there are free blocks. -/
theorem InOrder.inspect_spec (h : a.InOrder blocks) (hring : a.ringWalk = .ok ⟨ring, []⟩)
    (hcount : ring.length = (blocks.filter fun b => b.tag.isFree).length) (verbose : Bool) :
    (a.inspect verbose).result = .ok ⟨HeapStats.ofBlocks a.brk blocks, ring.length, []⟩ := by
  have htags := prologueTags_eq_ok_iff.2 ⟨h.prologueHeader, h.prologueFooter⟩
  rw [inspect_eq verbose htags h.blockWalk_eq hring h.stats_eq, h.tiles.walk_violations h.merged,
    h.freeCount_eq h.blockWalk_eq, ← hcount]
  simp [prologueViolations, countViolations]

/-- **A sound heap passes its audit,** with as many nodes on the ring as it has free blocks. -/
theorem Sound.inspect_spec (h : a.Sound blocks ring) (verbose : Bool) :
    (a.inspect verbose).result =
      .ok ⟨HeapStats.ofBlocks a.brk blocks, ring.length, []⟩ :=
  h.inOrder.inspect_spec h.ringWalk_eq h.length_ring verbose

end Arena

end BoundaryHeap
