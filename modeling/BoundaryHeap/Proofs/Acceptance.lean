import BoundaryHeap.Proofs.CleanReports
import BoundaryHeap.Proofs.Safety

/-!
# What an audit accepts

The two audits of the addresses, of the prologue and of the blocks, are exact. What they accept can be
said without a walk: both words of the prologue are those of the sentinel, and blocks whose tags
agree stand one after the other from the first payload to the mark, no two free ones in a row, with
the epilogue behind the last (`Arena.InOrder`). **They find nothing wrong if and only if there are
such blocks** (`address_checks_exact`), and then everything that is counted is counted over these
blocks. The counts are said block by block and not as a fold (`HeapStats.Counts`).

With a ring that has exactly the free blocks as nodes, nothing else is looked at: **the whole report
is clean** (`no_false_alarm`). The walk round the ring is cut off at some length and asks for bounds
of its own, but no heap whose blocks are in order has room for a ring that long, or for a node out of
these bounds.
-/

set_option autoImplicit false

namespace BoundaryHeap

variable {a : Arena} {p stop size : Nat} {blocks : List Block} {b : Block} {ring : List Nat}
  {s : HeapStats} {freeBefore : Option Nat} {visits : List Visit} {v : Visit} {w : BlockWalk}

/-! ## Walks with nothing wrong -/

/-- Visits without violations are blocks whose two tags agree, no two free ones in a row. -/
theorem of_visitViolations_eq_nil (h : visitViolations freeBefore visits = []) :
    (∀ v ∈ visits, v.footer = v.header) ∧ Merged (visits.map Visit.block) ∧
      (freeBefore.isSome = true → ∀ v ∈ visits.head?, v.header.allocated = true) := by
  induction visits generalizing freeBefore with
  | nil =>
    refine ⟨?_, List.IsChain.nil, ?_⟩
    · intro v hv
      cases hv
    · intro _ v hv
      cases hv
  | cons v rest ih =>
    obtain ⟨hown, hrest⟩ := List.append_eq_nil_iff.1 h
    obtain ⟨-, htags, hbefore⟩ := violations_eq_nil_iff.1 hown
    obtain ⟨hfooters, hmerged, hnext⟩ := ih hrest
    refine ⟨List.forall_mem_cons.2 ⟨htags, hfooters⟩, ?_, ?_⟩
    · cases rest with
      | nil => exact List.IsChain.singleton _
      | cons u rest =>
        refine List.isChain_cons_cons.2 ⟨?_, hmerged⟩
        -- The walk remembers a block exactly if it was free.
        cases hfree : v.header.allocated with
        | true => exact .inl hfree
        | false =>
          apply Or.inr
          apply hnext _ u rfl
          simp [Tag.isFree, hfree]
    · intro hsome u hu
      obtain rfl := Option.some.inj hu
      exact hbefore hsome

namespace Arena

/-- A walk ends well only at the epilogue, and only if that is at the mark. -/
theorem Ends.of_violations_eq_nil {ending : WalkEnd} (h : a.Ends p ending)
    (hclean : ending.violations a.brk = []) : p = a.brk ∧ a.header p = .ok Tag.epilogue := by
  cases ending with
  | aboveMark q => cases hclean
  | tooLong q size =>
    have hnone := (List.append_eq_nil_iff.1 hclean).2
    cases hnone
  | emptyBlock q tag =>
    obtain ⟨rfl, -, hheader, hempty⟩ := h
    simp only [WalkEnd.violations] at hclean
    split at hclean
    · next hgood =>
      obtain ⟨halloc, hmark⟩ := Bool.and_eq_true_iff.1 hgood
      obtain rfl : tag = Tag.epilogue := Tag.ext' hempty halloc
      exact ⟨beq_iff_eq.1 hmark, hheader⟩
    · cases hclean

/-- What the walk keeps as a footer is the footer of the block. -/
theorem footer_of_mem_visits (hwalk : a.blockWalkFrom p = .ok w) :
    ∀ v ∈ w.visits, a.footer v.payload = .ok v.footer := by
  fun_induction a.blockWalkFrom p generalizing w with
  | case1 p habove =>
    obtain rfl := Except.ok.inj hwalk
    intro v hv
    cases hv
  | case2 p hin f hheader => cases hwalk
  | case3 p hin tag hheader hempty =>
    obtain rfl := Except.ok.inj hwalk
    intro v hv
    cases hv
  | case4 p hin tag hheader hpos hfit f hfooter => cases hwalk
  | case5 p hin tag hheader hpos hfit footer hfooter ih =>
    obtain ⟨rest, hrest, rfl⟩ := map_eq_ok_iff.1 hwalk
    exact List.forall_mem_cons.2 ⟨hfooter, ih hrest⟩
  | case6 p hin tag hheader hpos hlong =>
    obtain rfl := Except.ok.inj hwalk
    intro v hv
    cases hv

/-- Blocks that headers lead along are tiles if their footers agree. -/
theorem Headed.tiles (h : a.Headed p blocks stop)
    (hfooters : ∀ b ∈ blocks, a.footer b.payload = .ok b.tag) : a.Tiles p blocks stop := by
  induction blocks generalizing p with
  | nil => exact h
  | cons b rest ih =>
    obtain ⟨rfl, hpos, hheader, -, hrest⟩ := h
    obtain ⟨hown, hlater⟩ := List.forall_mem_cons.1 hfooters
    exact ⟨rfl, hpos, hheader, hown, ih hrest hlater⟩

theorem Tiles.stop_mod (h : a.Tiles p blocks stop) : stop % 16 = p % 16 := by
  induction blocks generalizing p with
  | nil => exact congrArg (· % 16) (Eq.symm h)
  | cons b rest ih =>
    obtain ⟨rfl, -, -, -, hrest⟩ := h
    have hmod := b.tag.size_mod
    have := ih hrest
    omega

theorem Tiles.eq_nil_iff (h : a.Tiles p blocks stop) : blocks = [] ↔ p = stop := by
  constructor
  · rintro rfl
    exact h
  · rintro rfl
    cases blocks with
    | nil => rfl
    | cons b rest =>
      obtain ⟨-, hpos, -, -, hrest⟩ := h
      exact absurd hrest.le (Nat.not_le_of_lt (Nat.lt_add_of_pos_right hpos))

/-! ## Blocks in order -/

/-- Of a walk without violations, the visits are tiles up to the mark. -/
theorem tiles_of_walk_violations (hwalk : a.blockWalk = .ok w) (hclean : w.violations a.brk = []) :
    a.Tiles firstPayload (w.visits.map Visit.block) a.brk ∧ Merged (w.visits.map Visit.block) ∧
      a.header a.brk = .ok Tag.epilogue := by
  obtain ⟨hvisits, hending⟩ := List.append_eq_nil_iff.1 hclean
  obtain ⟨hagree, hmerged, -⟩ := of_visitViolations_eq_nil hvisits
  obtain ⟨w', stop, hwalk', -, hheaded, hends⟩ := blockWalkFrom_spec (a := a) (p := firstPayload)
    (by decide)
  obtain rfl : w = w' := Except.ok.inj (hwalk.symm.trans hwalk')
  obtain ⟨rfl, hlast⟩ := hends.of_violations_eq_nil hending
  refine ⟨hheaded.tiles ?_, hmerged, hlast⟩
  intro b hb
  obtain ⟨v, hv, rfl⟩ := List.mem_map.1 hb
  show a.footer v.payload = .ok v.header
  rw [footer_of_mem_visits hwalk v hv, hagree v hv]

/-- **The audits of the prologue and of the blocks find nothing exactly if the blocks are in
order.** -/
theorem address_violations_eq_nil_iff {header footer : Tag}
    (htags : a.prologueTags = .ok (header, footer)) (hwalk : a.blockWalk = .ok w) :
    prologueViolations header footer ++ w.violations a.brk = [] ↔ ∃ blocks, a.InOrder blocks := by
  obtain ⟨hhead, hfoot⟩ := prologueTags_eq_ok_iff.1 htags
  constructor
  · intro hclean
    obtain ⟨hprologue, hblocks⟩ := List.append_eq_nil_iff.1 hclean
    obtain ⟨rfl, rfl⟩ := prologueViolations_eq_nil_iff.1 hprologue
    obtain ⟨htiles, hmerged, hlast⟩ := tiles_of_walk_violations hwalk hblocks
    exact ⟨_, hhead, hfoot, htiles, hmerged, hlast⟩
  · rintro ⟨blocks, horder⟩
    obtain rfl := Except.ok.inj (hhead.symm.trans horder.prologueHeader)
    obtain rfl := Except.ok.inj (hfoot.symm.trans horder.prologueFooter)
    obtain rfl := Except.ok.inj (hwalk.symm.trans horder.blockWalk_eq)
    rw [horder.tiles.walk_violations horder.merged]
    rfl

end Arena

/-! ## Tallies, block by block -/

/-- The sum of a number over some blocks. -/
def sumOver (f : Block → Nat) : List Block → Nat
  | [] => 0
  | b :: rest => f b + sumOver f rest

theorem sumOver_concat (f : Block → Nat) (blocks : List Block) (b : Block) :
    sumOver f (blocks ++ [b]) = sumOver f blocks + f b := by
  induction blocks with
  | nil => simp [sumOver]
  | cons c rest ih => rw [List.cons_append, sumOver, ih, sumOver, Nat.add_assoc]

/-- The record says of a heap of `size` bytes with these blocks what there is to be said. -/
structure HeapStats.Counts (s : HeapStats) (size : Nat) (blocks : List Block) : Prop where
  heapSize_eq : s.heapSize = size
  overheadBytes_eq : s.overheadBytes = 48
  blockCount_eq : s.blockCount = blocks.length
  allocatedBlocks_eq : s.allocatedBlocks = (blocks.filter fun b => b.tag.allocated).length
  allocatedBytes_eq :
    s.allocatedBytes = sumOver (fun b => b.tag.size) (blocks.filter fun b => b.tag.allocated)
  payloadBytes_eq :
    s.payloadBytes = sumOver Block.usableSize (blocks.filter fun b => b.tag.allocated)
  freeBlocks_eq : s.freeBlocks = (blocks.filter fun b => b.tag.isFree).length
  freeBytes_eq :
    s.freeBytes = sumOver (fun b => b.tag.size) (blocks.filter fun b => b.tag.isFree)
  largestFree_ge : ∀ b ∈ blocks, b.tag.isFree = true → b.tag.size ≤ s.largestFree
  largestFree_eq : s.largestFree = 0 ∨
    ∃ b ∈ blocks, b.tag.isFree = true ∧ b.tag.size = s.largestFree

namespace HeapStats

theorem Counts.concat_allocated (h : s.Counts size blocks) {b : Block}
    (halloc : b.tag.allocated = true) : (s.count b).Counts size (blocks ++ [b]) := by
  obtain ⟨hheap, hover, hcount, hallocs, hallocBytes, hpayload, hfrees, hfreeBytes, hge, heq⟩ := h
  have hfilter : (blocks ++ [b]).filter (fun b => b.tag.allocated) =
      blocks.filter (fun b => b.tag.allocated) ++ [b] := by
    simp [List.filter_append, halloc]
  have hfilter' : (blocks ++ [b]).filter (fun b => b.tag.isFree) =
      blocks.filter (fun b => b.tag.isFree) := by
    simp [List.filter_append, Tag.isFree, halloc]
  rw [HeapStats.count, if_pos halloc]
  refine ⟨hheap, hover, ?_, ?_, ?_, ?_, ?_, ?_, ?_, ?_⟩
  · rw [List.length_append, hcount, List.length_singleton]
  · rw [hfilter, List.length_append, hallocs, List.length_singleton]
  · rw [hfilter, sumOver_concat, hallocBytes]
  · rw [hfilter, sumOver_concat, hpayload]
  · rw [hfilter', hfrees]
  · rw [hfilter', hfreeBytes]
  · intro c hc hfree
    rcases List.mem_append.1 hc with hc | hc
    · exact hge c hc hfree
    · obtain rfl := List.mem_singleton.1 hc
      simp [Tag.isFree, halloc] at hfree
  · apply heq.imp_right
    rintro ⟨c, hc, hfacts⟩
    exact ⟨c, List.mem_append_left _ hc, hfacts⟩

theorem Counts.concat_free (h : s.Counts size blocks) {b : Block}
    (halloc : b.tag.allocated = false) : (s.count b).Counts size (blocks ++ [b]) := by
  obtain ⟨hheap, hover, hcount, hallocs, hallocBytes, hpayload, hfrees, hfreeBytes, hge, heq⟩ := h
  have hfree : b.tag.isFree = true := by simp [Tag.isFree, halloc]
  have hfilter : (blocks ++ [b]).filter (fun b => b.tag.allocated) =
      blocks.filter (fun b => b.tag.allocated) := by
    simp [List.filter_append, halloc]
  have hfilter' : (blocks ++ [b]).filter (fun b => b.tag.isFree) =
      blocks.filter (fun b => b.tag.isFree) ++ [b] := by
    simp [List.filter_append, hfree]
  rw [HeapStats.count, if_neg (by simp [halloc])]
  refine ⟨hheap, hover, ?_, ?_, ?_, ?_, ?_, ?_, ?_, ?_⟩
  · rw [List.length_append, hcount, List.length_singleton]
  · rw [hfilter, hallocs]
  · rw [hfilter, hallocBytes]
  · rw [hfilter, hpayload]
  · rw [hfilter', List.length_append, hfrees, List.length_singleton]
  · rw [hfilter', sumOver_concat, hfreeBytes]
  · intro c hc hcfree
    rcases List.mem_append.1 hc with hc | hc
    · exact Nat.le_trans (hge c hc hcfree) (Nat.le_max_left _ _)
    · obtain rfl := List.mem_singleton.1 hc
      exact Nat.le_max_right _ _
  · -- The new largest is the old one, or the block at hand.
    show max s.largestFree b.tag.size = 0 ∨ _
    by_cases hle : s.largestFree ≤ b.tag.size
    · right
      exact ⟨b, by simp, hfree, (Nat.max_eq_right hle).symm⟩
    · have hmax : max s.largestFree b.tag.size = s.largestFree :=
        Nat.max_eq_left (Nat.le_of_not_le hle)
      rcases heq with hzero | ⟨c, hc, hcfree, hsize⟩
      · exact .inl (hmax.trans hzero)
      · exact .inr ⟨c, List.mem_append_left _ hc, hcfree, hsize.trans hmax.symm⟩

theorem Counts.concat (h : s.Counts size blocks) (b : Block) :
    (s.count b).Counts size (blocks ++ [b]) := by
  cases halloc : b.tag.allocated with
  | true => exact h.concat_allocated halloc
  | false => exact h.concat_free halloc

theorem counts_ofBlocks (size : Nat) (blocks : List Block) :
    (ofBlocks size blocks).Counts size blocks := by
  induction blocks using List.reverseRecOn with
  | nil =>
    refine ⟨rfl, rfl, rfl, rfl, rfl, rfl, rfl, rfl, ?_, .inl rfl⟩
    intro b hb
    cases hb
  | append_singleton blocks b ih =>
    rw [ofBlocks, List.foldl_append]
    exact ih.concat b

theorem isBalanced_eq_ok_true (hsum : s.freeBytes + s.allocatedBytes + s.overheadBytes = s.heapSize)
    (hword : s.heapSize < wordLimit) : s.isBalanced = .ok true := by
  have hword' : s.freeBytes + s.allocatedBytes + s.overheadBytes < wordLimit := hsum ▸ hword
  have hblocks : addOffset s.freeBytes s.allocatedBytes = .ok (s.freeBytes + s.allocatedBytes) :=
    addOffset_of_lt (Nat.lt_of_le_of_lt (Nat.le_add_right _ _) hword')
  have htotal : addOffset (s.freeBytes + s.allocatedBytes) s.overheadBytes = .ok s.heapSize :=
    (addOffset_of_lt hword').trans (congrArg Except.ok hsum)
  simp only [isBalanced, hblocks, htotal, ok_bind, beq_self_eq_true]
  rfl

end HeapStats

/-! ## Exactness -/

namespace Arena

/-- The blocks and the sentinels are all there is. -/
theorem InOrder.bytes_eq (h : a.InOrder blocks) :
    (HeapStats.ofBlocks a.brk blocks).freeBytes + (HeapStats.ofBlocks a.brk blocks).allocatedBytes +
      48 = a.brk := by
  rw [(HeapStats.takes_of_inOrder h).bytes_eq]
  exact Nat.sub_add_cancel h.tiles.le

/-- **The address checks are exact.** Whatever the bytes say, they are answered, and they find nothing
if and only if there are blocks in order from the prologue to the mark. There is one such row at most,
it has no blocks exactly in a heap of 48 bytes, and the walk counts its free blocks, the listing lists
it, and the tallies are those of its blocks, which with the sentinels make up the heap. -/
theorem address_checks_exact (hroom : 48 ≤ a.brk) : ∃ header footer walk,
    a.prologueTags = .ok (header, footer) ∧ a.blockWalk = .ok walk ∧
      (prologueViolations header footer ++ walk.violations a.brk = [] ↔
        ∃ blocks, a.InOrder blocks) ∧
      ∀ blocks, a.InOrder blocks → (blocks = [] ↔ a.brk = 48) ∧
        walk.freeCount = (blocks.filter fun b => b.tag.isFree).length ∧
        a.blocks = .ok blocks ∧ ∃ stats, a.stats = .ok stats ∧ stats.Counts a.brk blocks ∧
          stats.isBalanced = .ok true ∧ stats.freeBytes + stats.allocatedBytes + 48 = a.brk := by
  obtain ⟨header, footer, walk, htags, -, hwalk, -⟩ := inspect_result hroom
  refine ⟨header, footer, walk, htags, hwalk, address_violations_eq_nil_iff htags hwalk, ?_⟩
  intro blocks h
  have hcounts := HeapStats.counts_ofBlocks a.brk blocks
  refine ⟨h.tiles.eq_nil_iff.trans eq_comm, h.freeCount_eq hwalk, h.blocks_eq, _, h.stats_eq, hcounts,
    ?_, h.bytes_eq⟩
  apply HeapStats.isBalanced_eq_ok_true
  · rw [hcounts.overheadBytes_eq, hcounts.heapSize_eq]
    exact h.bytes_eq
  · rw [hcounts.heapSize_eq]
    exact Nat.lt_trans a.brk_lt (by decide)

/-- Two of three blocks are free. -/
theorem address_checks_exact_twoFree : 48 ≤ twoFree.brk ∧ ∃ header footer walk,
    twoFree.prologueTags = .ok (header, footer) ∧ twoFree.blockWalk = .ok walk ∧
      prologueViolations header footer ++ walk.violations twoFree.brk = [] ∧ walk.freeCount = 2 ∧
        ∃ stats, twoFree.stats = .ok stats ∧ stats.isBalanced = .ok true ∧ stats.freeBlocks = 2 := by
  have hroom : 48 ≤ twoFree.brk := twoFree_sound.overhead_le_brk
  obtain ⟨header, footer, walk, htags, hwalk, hexact, hall⟩ := address_checks_exact hroom
  obtain ⟨-, hcount, -, stats, hstats, hcounts, hbalanced, -⟩ := hall _ twoFree_sound.inOrder
  exact ⟨hroom, header, footer, walk, htags, hwalk, hexact.2 ⟨_, twoFree_sound.inOrder⟩, hcount, stats,
    hstats, hbalanced, hcounts.freeBlocks_eq⟩

/-! ## No false alarm -/

/-- A heap in order whose free ring is a circle through the sentinel, the links back and forth inverse
to each other, with exactly the free blocks as nodes, each once. -/
structure Formed (a : Arena) (blocks : List Block) (ring : List Nat) : Prop where
  inOrder : a.InOrder blocks
  sizes : ∀ b ∈ blocks, 32 ≤ b.tag.size
  linked : a.Linked (prologue :: ring ++ [prologue])
  nodup : ring.Nodup
  listsFree : ListsFree blocks ring

/-- Nodes that are blocks are places for nodes, and the mark is as aligned as the blocks are. -/
theorem Formed.sound (h : a.Formed blocks ring) : a.Sound blocks ring := by
  obtain ⟨horder, hsizes, hlinked, hnodup, hlists⟩ := h
  refine ⟨horder.tiles.stop_mod,
    prologueTags_eq_ok_iff.2 ⟨horder.prologueHeader, horder.prologueFooter⟩, horder.tiles, hsizes,
    horder.epilogue, horder.merged, ⟨hlinked, hnodup, ?_⟩, hlists⟩
  intro q hq
  obtain ⟨b, hb, rfl, -⟩ := (hlists q).1 hq
  obtain ⟨hlow, hfit, haligned, -⟩ := horder.tiles.mem hb
  have hsize := hsizes b hb
  refine ⟨haligned, Nat.le_trans (by decide) hlow, ?_⟩
  omega

theorem Sound.formed (h : a.Sound blocks ring) : a.Formed blocks ring := by
  exact ⟨h.inOrder, h.sizes, h.isRing.linked, h.isRing.nodup, h.mem_ring⟩

end Arena

/-- **The audit raises no false alarm.** Whatever else the bytes say, and however many free blocks
there are in whatever order, the report of a well-formed heap is clean, dumped or not, and both of its
counts are the number of free blocks. So it is after every legal run: no audit stops at a violation,
in strict mode neither, and validation gives the tallies. -/
theorem no_false_alarm :
    (∀ (a : Arena) (blocks : List Block) (ring : List Nat), a.Formed blocks ring → ∀ verbose,
      ∃ report, (a.inspect verbose).result = .ok report ∧ report.violations = [] ∧
        report.ringLength = (blocks.filter fun b => b.tag.isFree).length ∧
        report.stats.freeBlocks = (blocks.filter fun b => b.tag.isFree).length) ∧
    ∀ (settings : Settings) (history : List Turn) (heap : Heap) (live : List Nat),
      Heap.Reached settings history heap live →
        (∀ mode verbose, ∃ report,
          (Heap.check ⟨heap.arena, { heap.settings with mode }, heap.counters⟩ verbose).result =
            .ok report ∧ report.violations = []) ∧
        ∃ stats, heap.validate = .ok (.ok stats) := by
  constructor
  · intro a blocks ring h verbose
    refine ⟨_, h.sound.inspect_spec verbose, rfl, h.sound.length_ring, ?_⟩
    exact (HeapStats.counts_ofBlocks a.brk blocks).freeBlocks_eq
  · intro settings history heap live reached
    obtain ⟨-, -, htracks⟩ := reached.tracks
    obtain ⟨blocks, hsound, -⟩ := htracks.models.represents.sound
    have hclean := hsound.inspect_spec
    refine ⟨?_, _, Heap.validate_of_clean (hclean false)⟩
    intro mode verbose
    exact ⟨_, Heap.check_of_clean (hclean verbose) mode, rfl⟩

/-- Two free blocks, the upper one first on the ring; and a heap that has no room left. -/
theorem no_false_alarm_twoFree :
    (∃ report, (Arena.twoFree.inspect true).result = .ok report ∧ report.violations = [] ∧
      report.ringLength = 2) ∧
    ∃ history heap, Heap.Reached ⟨128, 80, .strict⟩ history heap [48] ∧
      ∃ stats, heap.validate = .ok (.ok stats) := by
  obtain ⟨harena, hrun⟩ := no_false_alarm
  constructor
  · obtain ⟨report, hreport, hclean, hlength, -⟩ :=
      harena _ _ _ Arena.twoFree_sound.formed true
    exact ⟨report, hreport, hclean, hlength⟩
  · obtain ⟨history, heap, -, hreached⟩ :=
      Heap.exists_reached ⟨128, 80, .strict⟩ (by constructor <;> decide) (by decide)
        (by decide) [.allocate 64] (by decide)
    exact ⟨history, heap, hreached, (hrun _ _ _ _ hreached).2⟩

end BoundaryHeap
