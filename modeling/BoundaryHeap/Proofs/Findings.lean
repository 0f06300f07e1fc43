import BoundaryHeap.Proofs.Acceptance

/-!
# What the findings name

The listing and the walk of the audit are two loops. One starts where the header of the prologue sends
it, the other where the first block has to be; the audit asks for footers besides, and remembers whether
the last block was free. **Behind a prologue of 32 bytes they meet the same blocks and end at the same
place, whatever the bytes say** (`Arena.listing_agrees`), so a report never contradicts the tallies that
stand in it: the count of free blocks that it compares is the one that it shows, and the blocks that it
names are listed, those whose tags disagree and those that should have been merged alike.

That is an iff for each of these findings. It needs that nothing else in a report looks like one of
them, which is said once for each place that findings come from (`Violation.Elsewhere`).
-/

set_option autoImplicit false

namespace BoundaryHeap

variable {a : Arena} {p q source link budget : Nat} {freeBefore : Option Nat} {h f : Tag}
  {visits : List Visit} {links : Links} {w : RingWalk} {walk : BlockWalk} {found : List Violation}
  {report : HeapReport} {verbose : Bool} {blocks : List Block}

/-! ## Findings at blocks -/

theorem Visit.tagMismatch_mem_iff {v : Visit} :
    Violation.tagMismatch p h f ∈ v.violations freeBefore ↔ v = ⟨p, h, f⟩ ∧ f ≠ h := by
  obtain ⟨p', h', f'⟩ := v
  simp only [Visit.violations, misalignment, List.mem_append]
  cases freeBefore <;> grind

theorem Visit.uncoalesced_mem_iff {v : Visit} :
    Violation.uncoalesced p q ∈ v.violations freeBefore ↔
      freeBefore = some p ∧ v.payload = q ∧ v.header.isFree = true := by
  simp only [Visit.violations, misalignment, List.mem_append]
  cases freeBefore <;> grind

theorem tagMismatch_mem_iff : Violation.tagMismatch p h f ∈ visitViolations freeBefore visits ↔
    ⟨p, h, f⟩ ∈ visits ∧ f ≠ h := by
  induction visits generalizing freeBefore with
  | nil => simp [visitViolations]
  | cons v rest ih =>
    rw [visitViolations, List.mem_append, ih, Visit.tagMismatch_mem_iff, List.mem_cons,
      or_and_right, eq_comm]

theorem pair_infix_cons_iff {α : Type} {x y z : α} {rest : List α} :
    [x, y] <:+: z :: rest ↔ x = z ∧ y ∈ rest.head? ∨ [x, y] <:+: rest := by
  rw [List.infix_cons_iff, List.cons_prefix_cons]
  cases rest with
  | nil => simp
  | cons z' rest =>
    rw [List.cons_prefix_cons, List.head?_cons, Option.mem_some_iff, eq_comm (a := y)]
    simp only [List.nil_prefix, and_true]

theorem pair_infix_map_iff {α β : Type} {g : α → β} {x y : β} {xs : List α} :
    [x, y] <:+: xs.map g ↔ ∃ u v, [u, v] <:+: xs ∧ g u = x ∧ g v = y := by
  rw [List.infix_map_iff]
  constructor
  · rintro ⟨pair, hpair, heq⟩
    obtain ⟨u, rest, rfl, hu, hrest⟩ := List.map_eq_cons_iff.1 heq.symm
    obtain ⟨v, none, rfl, hv, hnone⟩ := List.map_eq_cons_iff.1 hrest
    obtain rfl := List.map_eq_nil_iff.1 hnone
    exact ⟨u, v, hpair, hu, hv⟩
  · rintro ⟨u, v, hpair, rfl, rfl⟩
    exact ⟨[u, v], hpair, rfl⟩

/-- Free blocks side by side are found where the second is visited, which may be the first visit of
all if a free block came before. -/
theorem uncoalesced_mem_iff : Violation.uncoalesced p q ∈ visitViolations freeBefore visits ↔
    (freeBefore = some p ∧ ∃ v ∈ visits.head?, v.payload = q ∧ v.header.isFree = true) ∨
    ∃ u v, [u, v] <:+: visits ∧ (u.payload = p ∧ u.header.isFree = true) ∧
      v.payload = q ∧ v.header.isFree = true := by
  induction visits generalizing freeBefore with
  | nil => simp [visitViolations]
  | cons v rest ih =>
    have hremembered : (if v.header.isFree then some v.payload else none) = some p ↔
        v.payload = p ∧ v.header.isFree = true := by
      split <;> simp [*]
    have hnext : (∃ u w, (u = v ∧ w ∈ rest.head?) ∧ (u.payload = p ∧ u.header.isFree = true) ∧
        w.payload = q ∧ w.header.isFree = true) ↔
        (v.payload = p ∧ v.header.isFree = true) ∧
          ∃ w ∈ rest.head?, w.payload = q ∧ w.header.isFree = true := by
      constructor
      · rintro ⟨u, w, ⟨rfl, hw⟩, hu, hq⟩
        exact ⟨hu, w, hw, hq⟩
      · rintro ⟨hv, w, hw, hq⟩
        exact ⟨v, w, ⟨rfl, hw⟩, hv, hq⟩
    rw [visitViolations, List.mem_append, ih, Visit.uncoalesced_mem_iff, hremembered, ← hnext]
    simp only [pair_infix_cons_iff, or_and_right, exists_or, List.head?_cons,
      Option.mem_some_iff, exists_eq_left']

namespace Arena

/-- The footer of a visit is the block's, so the visits are those of the listed blocks. -/
theorem mem_visits_iff (hwalk : a.blockWalk = .ok walk) : ⟨p, h, f⟩ ∈ walk.visits ↔
    ⟨p, h⟩ ∈ walk.visits.map Visit.block ∧ a.footer p = .ok f := by
  have hfooters := footer_of_mem_visits hwalk
  rw [List.mem_map]
  constructor
  · intro hv
    exact ⟨⟨_, hv, rfl⟩, hfooters _ hv⟩
  · rintro ⟨⟨⟨p', h', f'⟩, hv, heq⟩, hfooter⟩
    cases heq
    obtain rfl := Except.ok.inj ((hfooters _ hv).symm.trans hfooter)
    exact hv

end Arena

theorem freeCountMismatch_not_mem {inHeap inList : Nat} :
    .freeCountMismatch inHeap inList ∉ visitViolations freeBefore visits := by
  induction visits generalizing freeBefore with
  | nil => simp [visitViolations]
  | cons v rest ih =>
    have hown : .freeCountMismatch inHeap inList ∉ v.violations freeBefore := by
      simp only [Visit.violations, misalignment, List.mem_append]
      cases freeBefore <;> grind
    exact List.not_mem_append hown ih

/-! ## Findings elsewhere -/

/-- What can be found where no block is visited and nothing is counted: at the prologue, at the end of
the walk over the blocks, and on the way round the ring. -/
def Violation.Elsewhere : Violation → Prop
  | tagMismatch _ _ _ | uncoalesced _ _ | freeCountMismatch _ _ => False
  | _ => True

theorem prologueViolations_elsewhere : ∀ x ∈ prologueViolations h f, x.Elsewhere := by
  unfold prologueViolations
  split <;> simp [Violation.Elsewhere]

theorem WalkEnd.violations_elsewhere (brk : Nat) (ending : WalkEnd) :
    ∀ x ∈ ending.violations brk, x.Elsewhere := by
  cases ending with
  | emptyBlock p tag =>
    rw [WalkEnd.violations]
    split <;> simp [Violation.Elsewhere]
  | aboveMark p => simp [WalkEnd.violations, Violation.Elsewhere]
  | tooLong p size =>
    rw [WalkEnd.violations, misalignment]
    split <;> simp [Violation.Elsewhere]

namespace Arena

theorem nodeViolations_elsewhere (hfound : a.nodeViolations p links = .ok found) :
    ∀ x ∈ found, x.Elsewhere := by
  simp only [nodeViolations, bind_eq_ok_iff] at hfound
  obtain ⟨node, -, nextOk, -, prevOk, -, heq⟩ := hfound
  obtain rfl := Except.ok.inj heq
  refine List.forall_mem_append.2 ⟨?_, ?_⟩ <;> split <;> simp [Violation.Elsewhere]

theorem ringWalkFrom_elsewhere (hwalk : a.ringWalkFrom source link budget = .ok w) :
    ∀ x ∈ w.violations, x.Elsewhere := by
  induction budget generalizing source link w with
  | zero =>
    simp only [ringWalkFrom, bind_eq_ok_iff] at hwalk
    obtain ⟨place, -, hplace⟩ := hwalk
    cases place <;> obtain rfl := Except.ok.inj hplace <;> simp [Violation.Elsewhere]
  | succ n ih =>
    simp only [ringWalkFrom, bind_eq_ok_iff] at hwalk
    obtain ⟨place, -, hplace⟩ := hwalk
    cases place with
    | outside =>
      obtain rfl := Except.ok.inj hplace
      simp [Violation.Elsewhere]
    | sentinel =>
      obtain rfl := Except.ok.inj hplace
      simp
    | node =>
      simp only [bind_eq_ok_iff] at hplace
      obtain ⟨links, -, found, hfound, rest, hrest, heq⟩ := hplace
      obtain rfl := Except.ok.inj heq
      exact List.forall_mem_append.2 ⟨nodeViolations_elsewhere hfound, ih hrest⟩

/-! ## Reports -/

theorem mem_countViolations_iff {x : Violation} {inHeap inList : Nat} :
    x ∈ countViolations inHeap inList ↔ x = .freeCountMismatch inHeap inList ∧ inHeap ≠ inList := by
  unfold countViolations
  split <;> simp [*]

/-- What is found nowhere else was found at a block, or is about the counts. -/
theorem mem_violations_iff {x : Violation} (hroom : 48 ≤ a.brk) (hwalk : a.blockWalk = .ok walk)
    (hreport : (a.inspect verbose).result = .ok report) (hx : ¬ x.Elsewhere) :
    x ∈ report.violations ↔ x ∈ visitViolations none walk.visits ∨
      x = .freeCountMismatch walk.freeCount report.ringLength ∧
        walk.freeCount ≠ report.ringLength := by
  obtain ⟨header, footer, walk', -, -, hwalk', hresult⟩ := inspect_result hroom
  obtain rfl : walk = walk' := Except.ok.inj (hwalk.symm.trans hwalk')
  simp only [hresult, bind_eq_ok_iff] at hreport
  obtain ⟨w, hring, stats, -, heq⟩ := hreport
  obtain rfl := Except.ok.inj heq
  obtain ⟨links, -, hround⟩ := bind_eq_ok_iff.1 hring
  have hfirst : x ∉ prologueViolations header footer := fun hmem =>
    hx (prologueViolations_elsewhere x hmem)
  have hlast : x ∉ walk.ending.violations a.brk := fun hmem =>
    hx (walk.ending.violations_elsewhere _ x hmem)
  have hnodes : x ∉ w.violations := fun hmem => hx (ringWalkFrom_elsewhere hround x hmem)
  simp only [BlockWalk.violations, List.mem_append, hfirst, hlast, hnodes, false_or, or_false,
    mem_countViolations_iff]

/-- The report speaks of these blocks: its tallies are theirs, the free blocks that it counts are
theirs, and it names those of them whose tags disagree or that should have been merged, and no
others. -/
structure Reports (a : Arena) (blocks : List Block) (report : HeapReport) : Prop where
  stats_eq : report.stats = HeapStats.ofBlocks a.brk blocks
  freeCount_iff : ∀ inHeap inList, .freeCountMismatch inHeap inList ∈ report.violations ↔
    inHeap = report.stats.freeBlocks ∧ inList = report.ringLength ∧ inHeap ≠ inList
  tags_iff : ∀ p header footer, .tagMismatch p header footer ∈ report.violations ↔
    ⟨p, header⟩ ∈ blocks ∧ a.footer p = .ok footer ∧ footer ≠ header
  neighbours_iff : ∀ p q, .uncoalesced p q ∈ report.violations ↔
    ∃ b c, [b, c] <:+: blocks ∧ (b.payload = p ∧ b.tag.isFree = true) ∧
      c.payload = q ∧ c.tag.isFree = true

/-- The count of the audit is the tally of the listing. -/
theorem freeBlocks_eq (size : Nat) (walk : BlockWalk) :
    (HeapStats.ofBlocks size (walk.visits.map Visit.block)).freeBlocks = walk.freeCount := by
  rw [freeCount_eq, (HeapStats.counts_ofBlocks _ _).freeBlocks_eq]

theorem reports_of_walk (hroom : 48 ≤ a.brk) (hwalk : a.blockWalk = .ok walk)
    (hblocks : a.blocks = .ok (walk.visits.map Visit.block))
    (hreport : (a.inspect verbose).result = .ok report) :
    a.Reports (walk.visits.map Visit.block) report := by
  have hstats : report.stats = HeapStats.ofBlocks a.brk (walk.visits.map Visit.block) := by
    obtain ⟨header, footer, walk', -, -, -, hresult⟩ := inspect_result hroom
    simp only [hresult, bind_eq_ok_iff] at hreport
    obtain ⟨w, -, stats, hstats, heq⟩ := hreport
    rw [Arena.stats, hblocks] at hstats
    obtain rfl := Except.ok.inj heq
    exact (Except.ok.inj hstats).symm
  have hfree : report.stats.freeBlocks = walk.freeCount := hstats ▸ freeBlocks_eq a.brk walk
  refine ⟨hstats, ?_, ?_, ?_⟩
  · intro inHeap inList
    rw [mem_violations_iff hroom hwalk hreport id, or_iff_right freeCountMismatch_not_mem,
      Violation.freeCountMismatch.injEq, and_assoc, hfree]
    refine and_congr_right fun hheap => and_congr_right fun hlist => ?_
    rw [hheap, hlist]
  · intro p header footer
    rw [mem_violations_iff hroom hwalk hreport id, tagMismatch_mem_iff, mem_visits_iff hwalk,
      and_assoc]
    simp only [reduceCtorEq, false_and, or_false]
  · intro p q
    rw [mem_violations_iff hroom hwalk hreport id, uncoalesced_mem_iff]
    simp only [reduceCtorEq, false_and, false_or, or_false]
    constructor
    · rintro ⟨u, v, hpair, hfacts⟩
      exact ⟨u.block, v.block, hpair.map Visit.block, hfacts⟩
    · rintro ⟨b, c, hpair, hfacts⟩
      obtain ⟨u, v, hvisits, rfl, rfl⟩ := pair_infix_map_iff.1 hpair
      exact ⟨u, v, hvisits, hfacts⟩

/-- **The two walks over the blocks agree on any bytes,** as long as the header of the prologue tells
32 bytes, which it does wherever the audit finds nothing wrong with the prologue. The listing has the
blocks that the audit visits, up to where the audit ends: at a block of no bytes, at one that is too
long, or above the mark. The tallies count the free blocks that the audit counts. A report is made
whenever the walk round the ring is answered, and it speaks of the listed blocks. -/
theorem listing_agrees (hroom : 48 ≤ a.brk) : ∃ header footer,
    a.prologueTags = .ok (header, footer) ∧ a.header prologue = .ok header ∧
      (prologueViolations header footer = [] → header.size = 32) ∧
      (header.size = 32 → ∃ walk stop stats, a.blockWalk = .ok walk ∧
        a.blocks = .ok (walk.visits.map Visit.block) ∧
        a.Headed firstPayload (walk.visits.map Visit.block) stop ∧ a.Ends stop walk.ending ∧
        a.stats = .ok stats ∧ stats.freeBlocks = walk.freeCount ∧
        ∀ verbose, ((∃ report, (a.inspect verbose).result = .ok report) ↔
            ∃ ring, a.ringWalk = .ok ring) ∧
          ∀ report, (a.inspect verbose).result = .ok report → report.stats = stats ∧
            a.Reports (walk.visits.map Visit.block) report) := by
  obtain ⟨header, footer, walk, htags, hheader, hwalk, hresult⟩ := inspect_result hroom
  refine ⟨header, footer, htags, hheader, ?_, ?_⟩
  · intro hnone
    rw [(prologueViolations_eq_nil_iff.1 hnone).1]
    rfl
  · intro hsize
    obtain ⟨walk', stop, hwalk', hblocks, hheaded, hends⟩ := blocks_eq_visits hheader hsize
    obtain rfl : walk = walk' := Except.ok.inj (hwalk.symm.trans hwalk')
    have hstats : a.stats = .ok (HeapStats.ofBlocks a.brk (walk.visits.map Visit.block)) := by
      rw [Arena.stats, hblocks]
      rfl
    refine ⟨walk, stop, _, hwalk, hblocks, hheaded, hends, hstats, freeBlocks_eq a.brk walk, ?_⟩
    intro verbose
    constructor
    · simp only [hresult, hstats, ok_bind, bind_eq_ok_iff]
      constructor
      · rintro ⟨report, ring, hring, -⟩
        exact ⟨ring, hring⟩
      · rintro ⟨ring, hring⟩
        exact ⟨_, ring, hring, rfl⟩
    · intro report hreport
      have hreports := reports_of_walk hroom hwalk hblocks hreport
      exact ⟨hreports.stats_eq, hreports⟩

/-- The listing ends where the next header is nonsense. -/
theorem wildSized_blocks : wildSized.blocks = .ok [⟨48, Tag.sentinel⟩] := by
  have hfirst : wildSized.header 48 = .ok Tag.sentinel := rfl
  have hlast : wildSized.header 80 = .ok (Tag.decode 0xFFFFFFFFFFFFFFF0) := rfl
  show wildSized.blocksFrom 48 = _
  rw [blocksFrom, hfirst, if_neg (by decide)]
  simp only
  rw [if_neg (by decide), if_pos (by decide)]
  show (wildSized.blocksFrom 80).map _ = _
  rw [blocksFrom, hlast, if_neg (by decide)]
  simp only
  rw [if_neg (by decide), if_neg (by decide)]
  rfl

/-- The block before it has a footer that is nonsense, and is named for that. -/
theorem listing_agrees_wildSized : 48 ≤ wildSized.brk ∧
    ∃ walk report, wildSized.blockWalk = .ok walk ∧
      wildSized.blocks = .ok (walk.visits.map Visit.block) ∧
      (wildSized.inspect true).result = .ok report ∧
      .tagMismatch 48 Tag.sentinel (Tag.decode 7) ∈ report.violations := by
  have hroom : 48 ≤ wildSized.brk := by decide
  have hheader : wildSized.header prologue = .ok Tag.sentinel := rfl
  obtain ⟨header, footer, -, hheader', -, hagree⟩ := listing_agrees hroom
  obtain rfl : Tag.sentinel = header := Except.ok.inj (hheader.symm.trans hheader')
  obtain ⟨walk, stop, stats, hwalk, hblocks, -, -, -, -, hinspect⟩ := hagree rfl
  obtain ⟨hanswered, hreports⟩ := hinspect true
  obtain ⟨report, hreport⟩ := hanswered.2 ⟨⟨[], []⟩, rfl⟩
  refine ⟨hroom, walk, report, hwalk, hblocks, hreport, ?_⟩
  rw [((hreports report hreport).2).tags_iff, Except.ok.inj (hblocks.symm.trans wildSized_blocks)]
  exact ⟨List.mem_singleton.2 rfl, rfl, by decide⟩

end Arena

end BoundaryHeap
