import BoundaryHeap.Proofs.Audits

/-!
# Walks over any bytes

An audit is made for heaps that somebody broke, so the walks over the blocks may rely on nothing
that stands in the arena. A walk from an offset that has room for a tag below it ends whatever it
reads (`blockWalkFrom_spec`): each step either goes up inside the arena or is the last, and the
first header that says nothing usable is where it ends. So **the blocks that are listed are in
order, inside the heap, and no tally of them outgrows it.**

The listing asks the header of the prologue where to start, and does not check that sum. It is
answered for every size but one (`blocks_robust`): the last multiple of 16 in a word takes the start
out of the range of a word, and then the listing, the tallies and the audit all fault.
-/

set_option autoImplicit false

namespace BoundaryHeap

variable {a : Arena} {p stop mid : Nat} {blocks front back : List Block} {b : Block}
  {s : HeapStats} {size bytes : Nat}

/-! ## Arenas, written out -/

namespace Arena

/-- The bytes of some words, one behind the other. -/
def wordBytes (words : List Nat) : ByteArray :=
  (words.flatMap (Window.digits wordSize)).toByteArray

theorem size_wordBytes (words : List Nat) : (wordBytes words).size = 8 * words.length := by
  rw [wordBytes, List.size_toByteArray]
  induction words with
  | nil => rfl
  | cons w rest ih =>
    rw [List.flatMap_cons, List.length_append, Window.length_digits, ih, List.length_cons]
    simp only [wordSize]
    omega

/-- The arena that holds the given words and has no room for more. -/
def ofWords (words : List Nat) (small : words.length < 0x1000000000000000) : Arena where
  bytes := wordBytes words
  reserved := 8 * words.length
  size_le_reserved := by rw [size_wordBytes]
  reserved_lt := by omega

/-! ## What headers tell -/

theorem header_ok (hlow : 8 ≤ p) (hfit : p ≤ a.brk) : ∃ tag, a.header p = .ok tag := by
  obtain ⟨w, hw⟩ := readWord_ok (a := a) (o := p - 8) (by omega)
  refine ⟨Tag.decode w, ?_⟩
  rw [header_eq hlow, tagAt, hw]
  rfl

/-- Wherever a block ends at most one word above the mark, its footer ends below the mark. -/
theorem footer_ok {tag : Tag} (hlow : 16 ≤ p) (hheader : a.header p = .ok tag)
    (hfit : p + tag.size ≤ a.brk + 8) : ∃ footer, a.footer p = .ok footer := by
  have hlt := a.brk_lt
  obtain ⟨w, hw⟩ := readWord_ok (a := a) (o := p + tag.size - 16) (by omega)
  refine ⟨Tag.decode w, ?_⟩
  rw [footer_eq hheader (by omega) (by omega), tagAt, hw]
  rfl

/-- Headers lead from one payload offset up to another by way of the given blocks, of which none
reaches past the mark by more than a word. Their footers may be anything. -/
def Headed (a : Arena) : Nat → List Block → Nat → Prop
  | p, [], stop => p = stop
  | p, b :: rest, stop =>
    b.payload = p ∧ 0 < b.tag.size ∧ a.header p = .ok b.tag ∧ p + b.tag.size ≤ a.brk + wordSize ∧
      a.Headed (p + b.tag.size) rest stop

/-- Why no block is listed at an offset: the offset is above the mark, or its header tells of no
bytes, or of more than there are. -/
def Ends (a : Arena) (p : Nat) : WalkEnd → Prop
  | .aboveMark q => q = p ∧ a.brk < p
  | .emptyBlock q tag => q = p ∧ p ≤ a.brk ∧ a.header p = .ok tag ∧ tag.size = 0
  | .tooLong q size =>
    q = p ∧ p ≤ a.brk ∧ a.brk + wordSize < p + size ∧ ∃ tag, a.header p = .ok tag ∧ tag.size = size

theorem Headed.le (h : a.Headed p blocks stop) : p ≤ stop := by
  induction blocks generalizing p with
  | nil => exact Nat.le_of_eq h
  | cons b rest ih => exact Nat.le_trans (Nat.le_add_right _ _) (ih h.2.2.2.2)

theorem Tiles.headed (h : a.Tiles p blocks stop) (hin : stop ≤ a.brk) : a.Headed p blocks stop := by
  induction blocks generalizing p with
  | nil => exact h
  | cons b rest ih =>
    obtain ⟨rfl, hpos, hheader, -, hrest⟩ := h
    have hle := hrest.le
    refine ⟨rfl, hpos, hheader, ?_, ih hrest⟩
    exact Nat.le_trans hle (Nat.le_trans hin (Nat.le_add_right _ _))

theorem Headed.mem (h : a.Headed p blocks stop) (hb : b ∈ blocks) :
    p ≤ b.payload ∧ 0 < b.tag.size ∧ a.header b.payload = .ok b.tag ∧
      b.payload + b.tag.size ≤ a.brk + wordSize := by
  induction blocks generalizing p with
  | nil => cases hb
  | cons c rest ih =>
    obtain ⟨rfl, hpos, hheader, hfit, hrest⟩ := h
    rcases List.mem_cons.1 hb with rfl | hb
    · exact ⟨Nat.le_refl _, hpos, hheader, hfit⟩
    · obtain ⟨hle, hfacts⟩ := ih hrest hb
      exact ⟨Nat.le_trans (Nat.le_add_right _ _) hle, hfacts⟩

/-- Each block starts where one before it ended, or higher. -/
theorem Headed.pairwise (h : a.Headed p blocks stop) :
    blocks.Pairwise fun b c => b.payload < c.payload := by
  induction blocks generalizing p with
  | nil => exact List.Pairwise.nil
  | cons b rest ih =>
    obtain ⟨rfl, hpos, -, -, hrest⟩ := h
    refine List.pairwise_cons.2 ⟨?_, ih hrest⟩
    intro c hc
    exact Nat.lt_of_lt_of_le (Nat.lt_add_of_pos_right hpos) (hrest.mem hc).1

theorem Headed.split (h : a.Headed p (front ++ back) stop) :
    ∃ mid, a.Headed p front mid ∧ a.Headed mid back stop := by
  induction front generalizing p with
  | nil => exact ⟨p, rfl, h⟩
  | cons b rest ih =>
    obtain ⟨hpayload, hpos, hheader, hfit, hrest⟩ := h
    obtain ⟨mid, hfront, hback⟩ := ih hrest
    exact ⟨mid, ⟨hpayload, hpos, hheader, hfit, hfront⟩, hback⟩

/-- Blocks that are there at all end at most one word above the mark. -/
theorem Headed.stop_le (h : a.Headed p blocks stop) : stop = p ∨ stop ≤ a.brk + wordSize := by
  induction blocks generalizing p with
  | nil => exact .inl (Eq.symm h)
  | cons b rest ih =>
    obtain ⟨-, -, -, hfit, hrest⟩ := h
    rcases ih hrest with rfl | hle
    · exact .inr hfit
    · exact .inr hle

end Arena

/-! ## The walks -/

/-- What a walk saw of a block, its footer left out. -/
def Visit.block (v : Visit) : Block :=
  ⟨v.payload, v.header⟩

namespace Arena

/-- **The walks end, whatever the bytes say.** The walk of the audit and the listing meet the same
blocks and end at the same place. -/
theorem blockWalkFrom_spec (hlow : 16 ≤ p) :
    ∃ w stop, a.blockWalkFrom p = .ok w ∧ a.blocksFrom p = .ok (w.visits.map Visit.block) ∧
      a.Headed p (w.visits.map Visit.block) stop ∧ a.Ends stop w.ending := by
  -- As the recursion goes: up, by the size that the header tells.
  fun_induction a.blockWalkFrom p with
  | case1 p habove =>
    refine ⟨_, p, rfl, ?_, rfl, rfl, habove⟩
    rw [blocksFrom, if_pos habove]
    rfl
  | case2 p hin f hheader =>
    obtain ⟨tag, htag⟩ := header_ok (a := a) (p := p) (by omega) (by omega)
    rw [hheader] at htag
    cases htag
  | case3 p hin tag hheader hempty =>
    refine ⟨_, p, rfl, ?_, rfl, rfl, by omega, hheader, hempty⟩
    rw [blocksFrom, if_neg hin, hheader]
    simp [hempty]
  | case4 p hin tag hheader hpos hfit f hfooter =>
    obtain ⟨footer, hok⟩ := footer_ok hlow hheader hfit
    rw [hfooter] at hok
    cases hok
  | case5 p hin tag hheader hpos hfit footer hfooter ih =>
    obtain ⟨w, stop, hwalk, hlist, hheaded, hends⟩ := ih (by omega)
    refine ⟨w.cons ⟨p, tag, footer⟩, stop, ?_, ?_, ?_, hends⟩
    · rw [hwalk]
      rfl
    · rw [blocksFrom, if_neg hin, hheader]
      simp only
      rw [if_neg hpos, if_pos hfit, hlist]
      rfl
    · exact ⟨rfl, Nat.pos_of_ne_zero hpos, hheader, hfit, hheaded⟩
  | case6 p hin tag hheader hpos hlong =>
    refine ⟨_, p, rfl, ?_, rfl, rfl, by omega, by omega, tag, hheader, rfl⟩
    rw [blocksFrom, if_neg hin, hheader]
    simp only
    rw [if_neg hpos, if_neg hlong]
    rfl

/-- Behind a prologue that says it has the bytes it has to have, the listing starts where the walk of
the audit starts, and so has the blocks that are visited. -/
theorem blocks_eq_visits {tag : Tag} (hheader : a.header prologue = .ok tag)
    (hsize : tag.size = prologueSize) : ∃ walk stop, a.blockWalk = .ok walk ∧
      a.blocks = .ok (walk.visits.map Visit.block) ∧
      a.Headed firstPayload (walk.visits.map Visit.block) stop ∧ a.Ends stop walk.ending := by
  have hfirst : prologue + tag.size = firstPayload := congrArg (prologue + ·) hsize
  have hstart : a.nextBlock prologue = .ok firstPayload :=
    hfirst ▸ nextBlock_eq hheader (by rw [hfirst]; decide)
  obtain ⟨walk, stop, hwalk, hlist, hheaded, hends⟩ := blockWalkFrom_spec (a := a)
    (p := firstPayload) (by decide)
  refine ⟨walk, stop, hwalk, ?_, hheaded, hends⟩
  simp only [Arena.blocks, hstart, ok_bind, hlist]

/-- The tags of the prologue can be read, whatever they are. -/
theorem prologueTags_ok (hroom : 48 ≤ a.brk) : ∃ header footer,
    a.prologueTags = .ok (header, footer) ∧ a.header prologue = .ok header := by
  obtain ⟨header, hheader⟩ := header_ok (a := a) (p := prologue) (by decide)
    (by simp only [prologue, wordSize]; omega)
  obtain ⟨w, hw⟩ := readWord_ok (a := a) (o := prologue + prologueSize - tagOverhead)
    (by simp only [prologue, wordSize, prologueSize, minBlockSize, alignment, tagOverhead]; omega)
  refine ⟨header, Tag.decode w, ?_, hheader⟩
  simp only [prologueTags, hheader, hw, ok_bind]
  rfl

/-- Looking at the prologue and at the blocks never stops an audit: whether there is a report hangs
on the walk round the ring and on the tallies. -/
theorem inspect_result (hroom : 48 ≤ a.brk) : ∃ header footer walk,
    a.prologueTags = .ok (header, footer) ∧ a.header prologue = .ok header ∧
      a.blockWalk = .ok walk ∧ ∀ verbose, (a.inspect verbose).result =
        a.ringWalk >>= fun ring => a.stats >>= fun stats => .ok
          { stats
            ringLength := ring.nodes.length
            violations := prologueViolations header footer ++ walk.violations a.brk ++
              ring.violations ++ countViolations walk.freeCount ring.nodes.length } := by
  obtain ⟨header, footer, htags, hheader⟩ := prologueTags_ok hroom
  obtain ⟨walk, -, hwalk, -⟩ := blockWalkFrom_spec (a := a) (p := firstPayload) (by decide)
  exact ⟨header, footer, walk, htags, hheader, hwalk,
    fun verbose => inspect_eq_bind verbose htags hwalk⟩

end Arena

/-! ## Tallies -/

namespace HeapStats

/-- All tallies of the record. -/
def tallies (s : HeapStats) : List Nat :=
  [s.heapSize, s.blockCount, s.allocatedBlocks, s.allocatedBytes, s.payloadBytes, s.freeBlocks,
    s.freeBytes, s.largestFree, s.overheadBytes]

/-- The tallies after counting blocks of some bytes in all, in a heap of `size` bytes. -/
structure Takes (s : HeapStats) (size bytes : Nat) : Prop where
  heapSize_eq : s.heapSize = size
  overheadBytes_eq : s.overheadBytes = 48
  bytes_eq : s.freeBytes + s.allocatedBytes = bytes
  blockCount_eq : s.allocatedBlocks + s.freeBlocks = s.blockCount
  blockCount_le : s.blockCount ≤ bytes
  payloadBytes_le : s.payloadBytes ≤ s.allocatedBytes
  largestFree_le : s.largestFree ≤ s.freeBytes

theorem Takes.count (h : s.Takes size bytes) (hpos : 0 < b.tag.size) :
    (s.count b).Takes size (bytes + b.tag.size) := by
  obtain ⟨hheap, hover, hbytes, hcount, hle, hpayload, hlargest⟩ := h
  unfold HeapStats.count
  split
  · refine ⟨hheap, hover, ?_, ?_, ?_, ?_, hlargest⟩ <;>
      simp only [Block.usableSize, usableSize] <;> omega
  · refine ⟨hheap, hover, ?_, ?_, ?_, hpayload, ?_⟩ <;> simp only <;> omega

theorem Takes.countAll (h : s.Takes size bytes) (hheaded : a.Headed p blocks stop) :
    (blocks.foldl HeapStats.count s).Takes size (bytes + (stop - p)) := by
  induction blocks generalizing p bytes s with
  | nil =>
    obtain rfl : p = stop := hheaded
    rw [Nat.sub_self]
    exact h
  | cons b rest ih =>
    obtain ⟨-, hpos, -, -, hrest⟩ := hheaded
    have hle := hrest.le
    have hall := ih (h.count hpos) hrest
    have hsum : bytes + b.tag.size + (stop - (p + b.tag.size)) = bytes + (stop - p) := by omega
    rw [hsum] at hall
    exact hall

/-- The tallies of listed blocks add up to the bytes between the first and the last, and so does
every tally on the way. -/
theorem takes_ofBlocks (hheaded : a.Headed p blocks stop) :
    (ofBlocks size blocks).Takes size (stop - p) := by
  have hstart : Takes { heapSize := size, overheadBytes := sentinelOverhead } size 0 :=
    ⟨rfl, rfl, rfl, rfl, Nat.le_refl _, Nat.le_refl _, Nat.le_refl _⟩
  have hall := hstart.countAll hheaded
  rw [Nat.zero_add] at hall
  exact hall

theorem tallies_le_of_headed (hroom : 48 ≤ a.brk) (hheaded : a.Headed p blocks stop) :
    ∀ t ∈ (ofBlocks a.brk blocks).tallies, t ≤ a.brk + wordSize := by
  have htakes : (ofBlocks a.brk blocks).Takes a.brk (stop - p) := takes_ofBlocks hheaded
  obtain ⟨hheap, hover, hbytes, hcount, hle, hpayload, hlargest⟩ := htakes
  have hstop := hheaded.stop_le
  intro t ht
  simp only [tallies, List.mem_cons, List.not_mem_nil, or_false] at ht
  simp only [wordSize] at hstop ⊢
  omega

theorem takes_of_inOrder (h : a.InOrder blocks) :
    (ofBlocks a.brk blocks).Takes a.brk (a.brk - firstPayload) :=
  takes_ofBlocks (h.tiles.headed (Nat.le_refl _))

/-- No tally of a sound heap is larger than the heap, so each fits into a word. -/
theorem tallies_le {ring : List Nat} (h : a.Sound blocks ring) :
    ∀ t ∈ (ofBlocks a.brk blocks).tallies, t ≤ a.brk := by
  obtain ⟨hheap, hover, hbytes, hcount, hle, hpayload, hlargest⟩ := takes_of_inOrder h.inOrder
  have hge : 48 ≤ a.brk := h.overhead_le_brk
  have hfirst : firstPayload = 48 := rfl
  intro t ht
  simp only [tallies, List.mem_cons, List.not_mem_nil, or_false] at ht
  omega

end HeapStats

/-! ## Robustness -/

namespace Arena

/-- **Every walk over the blocks is answered, whatever the bytes of the arena say**, but for one
size in the header of the prologue. The prologue can be looked at and dumped, and the walk of the
audit ends. The listing and the tallies end as well, unless the first block would start outside the
range of a word: then they fault. The listed blocks lead in order from the prologue's end to the
first header that leads no further; none reaches past the mark by more than a word, and no tally,
not even on the way, is larger than that. -/
theorem blocks_robust (hroom : 48 ≤ a.brk) :
    (∃ header footer line, a.prologueTags = .ok (header, footer) ∧
      a.dumpBlock prologue header footer = .ok line) ∧
    (∃ w stop lines, a.blockWalk = .ok w ∧ a.dumpWalk w = .ok lines ∧
      a.Headed firstPayload (w.visits.map Visit.block) stop ∧ a.Ends stop w.ending) ∧
    ∃ tag, a.header prologue = .ok tag ∧
      (prologue + tag.size < wordLimit → ∃ blocks stop ending,
        a.blocks = .ok blocks ∧ a.stats = .ok (HeapStats.ofBlocks a.brk blocks) ∧
        a.Headed (prologue + tag.size) blocks stop ∧ a.Ends stop ending ∧
        (blocks.map Block.payload).Pairwise (· < ·) ∧
        (∀ b ∈ blocks, b.payload + b.tag.size ≤ a.brk + wordSize) ∧
        ∀ count, ∀ t ∈ (HeapStats.ofBlocks a.brk (blocks.take count)).tallies,
          t ≤ a.brk + wordSize) ∧
      (wordLimit ≤ prologue + tag.size →
        a.blocks = .error .arithmetic ∧ a.stats = .error .arithmetic) := by
  obtain ⟨header, footer, htags, hheader⟩ := prologueTags_ok hroom
  obtain ⟨line, hline⟩ := dumpBlock_ok (a := a) prologue header footer
  obtain ⟨w, wstop, hwalk, -, hheaded, hends⟩ := blockWalkFrom_spec (a := a) (p := firstPayload)
    (by decide)
  obtain ⟨lines, hlines⟩ := dumpWalk_ok (a := a) w
  refine ⟨⟨header, footer, line, htags, hline⟩, ⟨w, wstop, lines, hwalk, hlines, hheaded, hends⟩,
    header, hheader, ?_, ?_⟩
  · intro hsum
    have hstart : a.nextBlock prologue = .ok (prologue + header.size) := nextBlock_eq hheader hsum
    obtain ⟨v, stop, -, hlist, hheaded, hends⟩ := blockWalkFrom_spec (a := a)
      (p := prologue + header.size) (Nat.le_add_right _ _)
    have hblocks : a.blocks = .ok (v.visits.map Visit.block) := by
      simp only [Arena.blocks, hstart, ok_bind, hlist]
    refine ⟨_, stop, v.ending, hblocks, ?_, hheaded, hends, ?_, ?_, ?_⟩
    · simp only [Arena.stats, hblocks, ok_bind]
      rfl
    · exact List.pairwise_map.2 hheaded.pairwise
    · intro b hb
      exact (hheaded.mem hb).2.2.2
    · intro count
      rw [← List.take_append_drop count (v.visits.map Visit.block)] at hheaded
      obtain ⟨mid, hfront, -⟩ := hheaded.split
      exact HeapStats.tallies_le_of_headed hroom hfront
  · intro hsum
    have hstart : a.nextBlock prologue = .error .arithmetic := by
      simp only [nextBlock, hheader, ok_bind]
      exact if_neg (Nat.not_lt.2 hsum)
    have hblocks : a.blocks = .error .arithmetic := by
      simp only [Arena.blocks, hstart]
      rfl
    refine ⟨hblocks, ?_⟩
    simp only [Arena.stats, hblocks]
    rfl

/-- A first block that says it goes on far past the mark, behind one whose footer is nonsense. -/
def wildSized : Arena :=
  ofWords [0, 33, 16, 16, 33, 33, 7, 7, 7, 0xFFFFFFFFFFFFFFF0, 7, 7] (by decide)

theorem blocks_robust_wildSized : 48 ≤ wildSized.brk ∧
    ∃ blocks stop, wildSized.blocks = .ok blocks ∧ wildSized.Headed firstPayload blocks stop ∧
      wildSized.stats = .ok (HeapStats.ofBlocks 96 blocks) ∧
      ∀ t ∈ (HeapStats.ofBlocks 96 (blocks.take 1)).tallies, t ≤ 104 := by
  have hheader : wildSized.header prologue = .ok Tag.sentinel := rfl
  have hroom : 48 ≤ wildSized.brk := by decide
  obtain ⟨-, -, tag, htag, hanswered, -⟩ := blocks_robust hroom
  obtain rfl : Tag.sentinel = tag := Except.ok.inj (hheader.symm.trans htag)
  obtain ⟨blocks, stop, ending, hblocks, hstats, hheaded, -, -, -, htallies⟩ :=
    hanswered (by decide)
  exact ⟨hroom, blocks, stop, hblocks, hheaded, hstats, htallies 1⟩

/-- Only the sentinels, and a prologue that says it has as many bytes as a tag can say. -/
def topSized : Arena :=
  ofWords [0, 0xFFFFFFFFFFFFFFF1, 16, 16, 33, 1] (by decide)

/-- The listing, the tallies and the audit of such a prologue fault, where they should have ended
early or reported it. -/
theorem topSized_faults : topSized.brk = 48 ∧ topSized.blocks = .error .arithmetic ∧
    topSized.stats = .error .arithmetic ∧
      ∀ verbose, (topSized.inspect verbose).result = .error .arithmetic := by
  have hblocks : topSized.blocks = .error .arithmetic := rfl
  have hstats : topSized.stats = .error .arithmetic := rfl
  have hring : topSized.ringWalk = .ok ⟨[], []⟩ := rfl
  refine ⟨rfl, hblocks, hstats, fun verbose => ?_⟩
  obtain ⟨header, footer, walk, -, -, -, hresult⟩ := inspect_result (a := topSized) (by decide)
  rw [hresult, hring, hstats]
  rfl

end Arena
end BoundaryHeap
