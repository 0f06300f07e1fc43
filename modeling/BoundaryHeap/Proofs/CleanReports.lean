import BoundaryHeap.Proofs.RingWalks

/-!
# What a clean report certifies

An audit that finds nothing wrong certifies less than that the heap is sound. At every node that the
walk round the ring meets it asks whether the header says free and whether both neighbours lead
back. So **the nodes of a clean report are different places that look free, and they lead to each
other both ways**, from the first node on to the sentinel. Two questions are not asked:

* whether a node is a block. The two walks compare how many free blocks they met, so a node may lie
  inside the payload of a block (`clean_report_members`);
* whether the first node leads back to the sentinel. Its link back may lead to any place that leads on
  to it, and in an empty ring the sentinel's own link back may be anything (`clean_report_links`).

Each is one condition, and with it what the report certifies is complete.
-/

set_option autoImplicit false

namespace BoundaryHeap

variable {a : Arena} {p q source link budget stop : Nat} {ps row : List Nat} {w : RingWalk}
  {blocks : List Block} {report : HeapReport} {verbose : Bool}

namespace Arena

/-! ## Rows that end at the sentinel -/

/-- A row with the sentinel behind it, and one more before it. -/
theorem isChain_cons_append_prologue {R : Nat → Nat → Prop} :
    (p :: (ps ++ [prologue])).IsChain R ↔ R p (ps.headD prologue) ∧ (ps ++ [prologue]).IsChain R := by
  cases ps <;> exact List.isChain_cons_cons

/-- A node has one link onward, so no node comes twice in a row that gets to the sentinel. -/
theorem nodup_of_linked (h : a.Linked (ps ++ [prologue])) (hinner : ∀ q ∈ ps, q ≠ prologue) :
    ps.Nodup := by
  induction ps with
  | nil => exact List.nodup_nil
  | cons p rest ih =>
    have htail : a.Linked (rest ++ [prologue]) := h.tail
    refine List.nodup_cons.2 ⟨?_, ih htail fun q hq => hinner q (List.mem_cons_of_mem _ hq)⟩
    intro hmem
    -- The walk from `p` would be the whole row, and also what is left of it after `p` comes again.
    obtain ⟨front, back, rfl⟩ := List.append_of_mem hmem
    have hagain : a.Linked (p :: back ++ [prologue]) := by
      have hsplit : a.Linked ((p :: front) ++ p :: (back ++ [prologue])) := by
        simpa using h
      exact (linked_append.1 hsplit).2
    have hlong := nodesFrom_of_linked h hinner (Nat.lt_succ_self _)
    have hshort : a.nodesFrom p ((front ++ p :: back).length + 1) = .ok (p :: back) := by
      apply nodesFrom_of_linked hagain
      · intro q hq
        exact hinner q (List.mem_cons_of_mem _ (List.mem_append_right _ hq))
      · simp only [List.length_append, List.length_cons]
        omega
    have hlength := congrArg List.length (Except.ok.inj (hlong.symm.trans hshort))
    simp only [List.length_append, List.length_cons] at hlength
    omega

/-! ## The ring of a clean report -/

/-- What the walk round the ring makes sure of at a node when it finds nothing there. -/
structure CleanNode (a : Arena) (p : Nat) : Prop where
  place : a.IsPlace p
  node : a.isNode p = .ok true
  back : ∃ q, a.prevLink p = .ok q ∧ a.InBounds q ∧ a.nextLink q = .ok p

/-- What it makes sure of in all. -/
structure CleanRing (a : Arena) (ps : List Nat) : Prop where
  head : a.nextLink prologue = .ok (ps.headD prologue)
  linked : a.Linked (ps ++ [prologue])
  length_le : ps.length ≤ a.ringLimit
  nodes : ∀ p ∈ ps, a.CleanNode p

/-- A walk that is not at a node ends there, and finds nothing only at the sentinel. -/
theorem ringWalkFrom_clean_of_not_place (hroom : 48 ≤ a.brk) (hnext : a.nextLink source = .ok link)
    (hplace : ¬ a.IsPlace link) (hwalk : a.ringWalkFrom source link budget = .ok w)
    (hclean : w.violations = []) : link = prologue ∧ w.nodes = [] := by
  rcases link_cases a link with rfl | ⟨htop, hout⟩ | rfl | hnode
  · rw [ringWalkFrom_topLink] at hwalk
    cases hwalk
  · rw [ringWalkFrom_outside (nextLink_lt hnext) htop hout] at hwalk
    cases hwalk
    cases hclean
  · rw [ringWalkFrom_sentinel hroom] at hwalk
    cases hwalk
    exact ⟨rfl, rfl⟩
  · exact absurd hnode hplace

theorem ringWalkFrom_clean (hroom : 48 ≤ a.brk) (hnext : a.nextLink source = .ok link)
    (hwalk : a.ringWalkFrom source link budget = .ok w) (hclean : w.violations = []) :
    link = w.nodes.headD prologue ∧ a.Linked (w.nodes ++ [prologue]) ∧ w.nodes.length ≤ budget ∧
      ∀ p ∈ w.nodes, a.CleanNode p := by
  induction budget generalizing source link w with
  | zero =>
    by_cases hplace : a.IsPlace link
    · rw [hplace.ringWalkFrom_spent] at hwalk
      cases hwalk
      cases hclean
    · obtain ⟨rfl, hnone⟩ := ringWalkFrom_clean_of_not_place hroom hnext hplace hwalk hclean
      rw [hnone]
      exact ⟨rfl, List.IsChain.singleton _, Nat.le_refl _, fun _ h => absurd h List.not_mem_nil⟩
  | succ n ih =>
    by_cases hplace : a.IsPlace link
    · obtain ⟨links, found, rest, hlinks, hfound, hrest, rfl⟩ := hplace.ringWalkFrom_inv hwalk
      obtain ⟨hnone, hlater⟩ := List.append_eq_nil_iff.1 hclean
      obtain ⟨hnode, hback, hin, honward⟩ :=
        hplace.of_nodeViolations_eq_nil hlinks (hnone ▸ hfound)
      obtain ⟨hprevLink, hnextLink⟩ := links_eq_ok_iff.1 hlinks
      obtain ⟨hhead, hlinked, hlen, hnodes⟩ := ih hnextLink hrest hlater
      have hown : a.CleanNode link := ⟨hplace, hnode, links.prev, hprevLink, hin, honward⟩
      refine ⟨rfl, ?_, Nat.succ_le_succ hlen, List.forall_mem_cons.2 ⟨hown, hnodes⟩⟩
      rw [hhead] at hnextLink hback
      exact isChain_cons_append_prologue.2 ⟨⟨hnextLink, hback⟩, hlinked⟩
    · obtain ⟨rfl, hnone⟩ := ringWalkFrom_clean_of_not_place hroom hnext hplace hwalk hclean
      rw [hnone]
      exact ⟨rfl, List.IsChain.singleton _, Nat.zero_le _, fun _ h => absurd h List.not_mem_nil⟩

theorem CleanNode.free (h : a.CleanNode p) : ∃ tag, a.header p = .ok tag ∧ tag.isFree = true := by
  have hnode := h.node
  rw [isNode, if_neg h.place.ne_prologue] at hnode
  exact map_eq_ok_iff.1 hnode

theorem CleanRing.ne_prologue (h : a.CleanRing ps) : ∀ q ∈ ps, q ≠ prologue :=
  fun q hq => (h.nodes q hq).place.ne_prologue

theorem CleanRing.nodup (h : a.CleanRing ps) : ps.Nodup :=
  nodup_of_linked h.linked h.ne_prologue

theorem ringLimit_le : a.ringLimit ≤ a.brk + 1 := by
  simp only [ringLimit, minBlockSize, alignment]
  omega

/-- The listing of the free ring is what the walk met. -/
theorem CleanRing.nodes_eq (h : a.CleanRing ps) : a.nodes = .ok ps := by
  simp only [Arena.nodes, h.head, ok_bind]
  cases ps with
  | nil => exact if_pos rfl
  | cons p rest =>
    exact nodesFrom_of_linked h.linked h.ne_prologue (Nat.le_trans h.length_le ringLimit_le)

/-- For a ring, all that is missing is the way back from the first node. -/
theorem CleanRing.isRing_iff (h : a.CleanRing ps) :
    a.IsRing ps ↔ a.prevLink (ps.headD prologue) = .ok prologue := by
  constructor
  · intro hring
    exact (isChain_cons_append_prologue.1 hring.linked).1.2
  · intro hback
    refine ⟨isChain_cons_append_prologue.2 ⟨⟨h.head, hback⟩, h.linked⟩, h.nodup, ?_⟩
    exact fun p hp => (h.nodes p hp).place

/-! ## The clean report -/

theorem countViolations_eq_nil {inHeap inList : Nat} (h : countViolations inHeap inList = []) :
    inHeap = inList := by
  unfold countViolations at h
  split at h
  · next heq => exact heq
  · cases h

theorem freeCount_eq (walk : BlockWalk) : walk.freeCount =
    ((walk.visits.map Visit.block).filter fun b => b.tag.isFree).length := by
  rw [BlockWalk.freeCount, ← List.countP_eq_length_filter, List.countP_map]
  rfl

/-- What a clean report tells of the two walks: the blocks that are listed follow the prologue, and
the nodes that the ring has are as many as the free ones among them. -/
theorem clean_walks (hroom : 48 ≤ a.brk) (hreport : (a.inspect verbose).result = .ok report)
    (hclean : report.violations = []) : ∃ blocks stop ps, a.blocks = .ok blocks ∧
      a.Headed firstPayload blocks stop ∧ a.CleanRing ps ∧ a.nodes = .ok ps ∧
      report.ringLength = ps.length ∧
      ps.length = (blocks.filter fun b => b.tag.isFree).length := by
  obtain ⟨header, footer, walk, -, hheader, hwalk, hresult⟩ := inspect_result hroom
  rw [hresult] at hreport
  obtain ⟨w, hring, hreport⟩ := bind_eq_ok_iff.1 hreport
  obtain ⟨stats, -, hreport⟩ := bind_eq_ok_iff.1 hreport
  obtain rfl := Except.ok.inj hreport
  obtain ⟨hbefore, hcounts⟩ := List.append_eq_nil_iff.1 hclean
  obtain ⟨hblocks, hfound⟩ := List.append_eq_nil_iff.1 hbefore
  obtain ⟨rfl, -⟩ := prologueViolations_eq_nil_iff.1 (List.append_eq_nil_iff.1 hblocks).1
  obtain ⟨walk', stop, hwalk', hlist, hheaded, -⟩ := blocks_eq_visits hheader rfl
  obtain rfl : walk = walk' := Except.ok.inj (hwalk.symm.trans hwalk')
  obtain ⟨link, hnext, hround⟩ := ringWalk_eq hroom
  obtain ⟨rfl, hlinked, hlen, hnodes⟩ := ringWalkFrom_clean hroom hnext
    (hround.symm.trans hring) hfound
  have hcleanRing : a.CleanRing w.nodes := ⟨hnext, hlinked, hlen, hnodes⟩
  refine ⟨_, stop, w.nodes, hlist, hheaded, hcleanRing, hcleanRing.nodes_eq, rfl, ?_⟩
  rw [← countViolations_eq_nil hcounts, freeCount_eq]

/-- Conversely, a heap whose blocks are in order has a clean report as soon as the walk round the
ring finds nothing and meets as many nodes as there are free blocks. -/
theorem inspect_of_tiles (htags : a.prologueTags = .ok (Tag.sentinel, Tag.sentinel))
    (htiles : a.Tiles firstPayload blocks a.brk) (hlast : a.header a.brk = .ok Tag.epilogue)
    (hmerged : Merged blocks) (hring : a.ringWalk = .ok ⟨ps, []⟩)
    (hcount : ps.length = (blocks.filter fun b => b.tag.isFree).length) :
    a.blocks = .ok blocks ∧ ∀ verbose,
      (a.inspect verbose).result = .ok ⟨HeapStats.ofBlocks a.brk blocks, ps.length, []⟩ := by
  obtain ⟨hhead, hfoot⟩ := prologueTags_eq_ok_iff.1 htags
  have horder : a.InOrder blocks := ⟨hhead, hfoot, htiles, hmerged, hlast⟩
  exact ⟨horder.blocks_eq, horder.inspect_spec hring hcount⟩

end Arena

/-! ## Which blocks are nodes -/

/-- The nodes are the free blocks. -/
def ListsFree (blocks : List Block) (ps : List Nat) : Prop :=
  ∀ p, p ∈ ps ↔ ∃ b ∈ blocks, b.payload = p ∧ b.tag.isFree = true

/-- Of two lists without repetitions that are equally long, neither can have only some members of the
other. -/
theorem mem_iff_of_subset_of_length_eq {xs ys : List Nat} (hxs : xs.Nodup)
    (hlen : xs.length = ys.length) (hsub : xs ⊆ ys) (q : Nat) : q ∈ xs ↔ q ∈ ys :=
  ((hxs.subperm hsub).perm_of_length_le hlen.ge).mem_iff

namespace Arena

/-- Where as many nodes as there are free blocks all are blocks, or where all of the free blocks are
nodes, the nodes are the free blocks. -/
theorem CleanRing.listsFree (h : a.CleanRing ps) (hheaded : a.Headed p blocks stop)
    (hlen : ps.length = (blocks.filter fun b => b.tag.isFree).length) :
    ((∀ q ∈ ps, ∃ b ∈ blocks, b.payload = q) ↔ ListsFree blocks ps) ∧
    ((∀ b ∈ blocks, b.tag.isFree = true → b.payload ∈ ps) ↔ ListsFree blocks ps) := by
  have hlen' : ps.length = ((blocks.filter fun b => b.tag.isFree).map Block.payload).length := by
    rw [List.length_map, hlen]
  have hnodup : ((blocks.filter fun b => b.tag.isFree).map Block.payload).Nodup :=
    (List.pairwise_map.2 (hheaded.pairwise.imp Nat.ne_of_lt)).sublist (List.filter_sublist.map _)
  constructor
  · constructor
    · intro hblocks q
      rw [← mem_payloads]
      refine mem_iff_of_subset_of_length_eq h.nodup hlen' ?_ q
      intro r hr
      obtain ⟨b, hb, rfl⟩ := hblocks r hr
      -- The node's header is the block's, and the walk found it free.
      obtain ⟨tag, htag, hfree⟩ := (h.nodes b.payload hr).free
      obtain rfl : b.tag = tag := Except.ok.inj ((hheaded.mem hb).2.2.1.symm.trans htag)
      exact mem_payloads.2 ⟨b, hb, rfl, hfree⟩
    · intro hlists q hq
      obtain ⟨b, hb, hoff, -⟩ := (hlists q).1 hq
      exact ⟨b, hb, hoff⟩
  · constructor
    · intro hfree q
      rw [← mem_payloads]
      refine (mem_iff_of_subset_of_length_eq hnodup hlen'.symm ?_ q).symm
      intro r hr
      obtain ⟨b, hb, rfl, hown⟩ := mem_payloads.1 hr
      exact hfree b hb hown
    · intro hlists b hb hfree
      exact (hlists b.payload).2 ⟨b, hb, rfl, hfree⟩

/-- **A clean report certifies that the ring has as many nodes as there are free blocks,** all of them
different, and each a place in the heap with a header below it that says free. It does not certify
that they are those blocks: for that it is enough that each node is a block of the walk, and
just as well that each free block of the walk is a node. -/
theorem clean_report_members (hroom : 48 ≤ a.brk)
    (hreport : (a.inspect verbose).result = .ok report) (hclean : report.violations = []) :
    ∃ blocks ps, a.blocks = .ok blocks ∧ a.nodes = .ok ps ∧ report.ringLength = ps.length ∧
      ps.length = (blocks.filter fun b => b.tag.isFree).length ∧ ps.Nodup ∧
      (∀ p ∈ ps, a.IsPlace p ∧ ∃ tag, a.header p = .ok tag ∧ tag.isFree = true) ∧
      ((∀ p ∈ ps, ∃ b ∈ blocks, b.payload = p) ↔ ListsFree blocks ps) ∧
      ((∀ b ∈ blocks, b.tag.isFree = true → b.payload ∈ ps) ↔ ListsFree blocks ps) := by
  obtain ⟨blocks, stop, ps, hblocks, hheaded, hring, hnodes, hringLength, hlen⟩ :=
    clean_walks hroom hreport hclean
  refine ⟨blocks, ps, hblocks, hnodes, hringLength, hlen, hring.nodup, ?_,
    hring.listsFree hheaded hlen⟩
  intro p hp
  exact ⟨(hring.nodes p hp).place, (hring.nodes p hp).free⟩

/-- Two free blocks with an allocated one between them, the upper one first on the ring. -/
def twoFree : Arena :=
  ofWords [0, 33, 48, 112, 33, 32, 112, 16, 32, 33, 0, 0, 33, 32, 16, 48, 32, 1] (by decide)

/-- The tag of a block of 32 bytes that is free. -/
def smallFree : Tag :=
  { Tag.sentinel with allocated := false }

set_option maxRecDepth 2000 in
theorem twoFree_sound :
    twoFree.Sound [⟨48, smallFree⟩, ⟨80, Tag.sentinel⟩, ⟨112, smallFree⟩] [112, 48] where
  brk_mod := rfl
  prologueTags := rfl
  tiles := ⟨rfl, by decide, rfl, rfl, rfl, by decide, rfl, rfl, rfl, by decide, rfl, rfl, rfl⟩
  sizes := by decide
  epilogue := rfl
  merged := by unfold Merged; decide
  isRing := by
    refine ⟨?_, by decide, ?_⟩
    · exact List.isChain_cons_cons.2 ⟨⟨rfl, rfl⟩, List.isChain_cons_cons.2 ⟨⟨rfl, rfl⟩,
        List.isChain_pair.2 ⟨rfl, rfl⟩⟩⟩
    · intro p hp
      rcases List.mem_pair.1 hp with rfl | rfl
      · exact ⟨rfl, by decide, by decide⟩
      · exact ⟨rfl, by decide, by decide⟩
  mem_ring := by
    intro p
    simp [smallFree, Tag.sentinel, Tag.isFree]
    omega

/-- Each node is a free block. -/
theorem clean_report_members_twoFree : 48 ≤ twoFree.brk ∧
    ∃ report, (twoFree.inspect false).result = .ok report ∧ report.violations = [] ∧
      ∃ blocks, twoFree.blocks = .ok blocks ∧ ListsFree blocks [112, 48] := by
  have hroom : 48 ≤ twoFree.brk := twoFree_sound.overhead_le_brk
  have hreport := twoFree_sound.inspect_spec false
  obtain ⟨blocks, ps, hblocks, hnodes, -, -, -, -, hmembers, -⟩ :=
    clean_report_members hroom hreport rfl
  obtain rfl := Except.ok.inj (twoFree_sound.blocks_eq.symm.trans hblocks)
  obtain rfl := Except.ok.inj (twoFree_sound.isRing.nodes_eq.symm.trans hnodes)
  refine ⟨hroom, _, hreport, rfl, _, hblocks, hmembers.1 ?_⟩
  decide

/-- One node, inside the payload of an allocated block, and one free block that is no node. -/
def strayListed : Arena :=
  ofWords [0, 33, 64, 64, 33, 49, 0, 32, 16, 16, 49, 32, 0, 0, 32, 1] (by decide)

set_option maxRecDepth 2000 in
/-- The report is clean, as there is one of each. -/
theorem strayListed_clean : strayListed.nodes = .ok [64] ∧
    ∃ blocks report, strayListed.blocks = .ok blocks ∧ blocks.map Block.payload = [48, 96] ∧
      (blocks.filter fun b => b.tag.isFree).map Block.payload = [96] ∧ ¬ ListsFree blocks [64] ∧
      (∀ verbose, (strayListed.inspect verbose).result = .ok report) ∧ report.violations = [] := by
  have htiles : strayListed.Tiles firstPayload
      [⟨48, ⟨48, true, rfl, by decide⟩⟩, ⟨96, smallFree⟩] strayListed.brk :=
    ⟨rfl, by decide, rfl, rfl, rfl, by decide, rfl, rfl, rfl⟩
  have hring : strayListed.ringWalk = .ok ⟨[64], []⟩ := rfl
  obtain ⟨hblocks, hreport⟩ := inspect_of_tiles rfl htiles rfl (by unfold Merged; decide) hring rfl
  refine ⟨rfl, _, _, hblocks, rfl, rfl, ?_, hreport, rfl⟩
  intro hlists
  obtain ⟨b, hb, hoff, -⟩ := (hlists 64).1 (List.mem_singleton.2 rfl)
  have hpayload : b.payload ∈ [48, 96] := List.mem_map_of_mem hb
  rw [hoff] at hpayload
  exact absurd hpayload (by decide)

/-! ## The way back -/

/-- The nodes from `p` on, by the links back. -/
def backNodesFrom (a : Arena) (p : Nat) : (budget : Nat) → Except Fault (List Nat)
  | 0 => if p = prologue then .ok [] else .error .endlessRing
  | budget + 1 =>
    if p = prologue then .ok []
    else match a.prevLink p with
      | .error f => .error f
      | .ok prev => (a.backNodesFrom prev budget).map (p :: ·)

/-- The ring the other way round. -/
def backNodes (a : Arena) : Except Fault (List Nat) := do
  let last ← a.prevLink prologue
  a.backNodesFrom last (a.brk + 1)

/-- Each in a row leads back to the one that comes after it. -/
def LinkedBack (a : Arena) (row : List Nat) : Prop :=
  row.IsChain fun p q => a.prevLink p = .ok q

theorem linkedBack_cons_iff : a.LinkedBack (p :: (row ++ [prologue])) ↔
    a.prevLink p = .ok (row.headD prologue) ∧ a.LinkedBack (row ++ [prologue]) :=
  isChain_cons_append_prologue

/-- What a walk back meets that starts with the link to `p`: the nodes of a row that leads back to
the sentinel and does not pass it. -/
structure BackRow (a : Arena) (p : Nat) (row : List Nat) : Prop where
  head : p = row.headD prologue
  linked : a.LinkedBack (row ++ [prologue])
  inner : ∀ q ∈ row, q ≠ prologue

theorem backRow_prologue_iff : a.BackRow prologue row ↔ row = [] := by
  constructor
  · rintro ⟨hhead, -, hinner⟩
    cases row with
    | nil => rfl
    | cons q rest => exact absurd hhead.symm (hinner q List.mem_cons_self)
  · rintro rfl
    exact ⟨rfl, List.IsChain.singleton _, fun _ hq => absurd hq List.not_mem_nil⟩

theorem backRow_cons_iff (hp : p ≠ prologue) : a.BackRow p row ↔
    ∃ prev rest, a.prevLink p = .ok prev ∧ a.BackRow prev rest ∧ row = p :: rest := by
  constructor
  · rintro ⟨hhead, hlinked, hinner⟩
    cases row with
    | nil => exact absurd hhead hp
    | cons q rest =>
      obtain rfl : p = q := hhead
      obtain ⟨hprev, hrest⟩ := linkedBack_cons_iff.1 hlinked
      exact ⟨_, rest, hprev, ⟨rfl, hrest, fun r hr => hinner r (List.mem_cons_of_mem _ hr)⟩, rfl⟩
  · rintro ⟨prev, rest, hprev, ⟨rfl, hlinked, hinner⟩, rfl⟩
    exact ⟨rfl, linkedBack_cons_iff.2 ⟨hprev, hlinked⟩, List.forall_mem_cons.2 ⟨hp, hinner⟩⟩

theorem backNodesFrom_prologue : a.backNodesFrom prologue budget = .ok [] := by
  cases budget <;> exact if_pos rfl

theorem backNodesFrom_succ_eq_ok_iff (hp : p ≠ prologue) :
    a.backNodesFrom p (budget + 1) = .ok row ↔
      ∃ prev rest, a.prevLink p = .ok prev ∧ a.backNodesFrom prev budget = .ok rest ∧
        row = p :: rest := by
  rw [backNodesFrom, if_neg hp]
  cases hprev : a.prevLink p with
  | error f => simp
  | ok prev =>
    cases hrest : a.backNodesFrom prev budget with
    | error f => simp [Except.map, hrest]
    | ok rest => simp [Except.map, hrest, eq_comm]

theorem backNodesFrom_eq_ok_iff (hlen : row.length ≤ budget) :
    a.backNodesFrom p budget = .ok row ↔ a.BackRow p row := by
  induction budget generalizing p row with
  | zero =>
    obtain rfl : row = [] := List.length_eq_zero_iff.1 (Nat.le_zero.1 hlen)
    by_cases hp : p = prologue
    · rw [hp, backNodesFrom_prologue]
      exact iff_of_true rfl (backRow_prologue_iff.2 rfl)
    · refine iff_of_false ?_ fun h => hp h.head
      rw [backNodesFrom, if_neg hp]
      nofun
  | succ n ih =>
    by_cases hp : p = prologue
    · rw [hp, backNodesFrom_prologue, backRow_prologue_iff, Except.ok.injEq, eq_comm]
    · rw [backNodesFrom_succ_eq_ok_iff hp, backRow_cons_iff hp]
      constructor
      · rintro ⟨prev, rest, hprev, hrest, rfl⟩
        exact ⟨prev, rest, hprev, (ih (Nat.le_of_succ_le_succ hlen)).1 hrest, rfl⟩
      · rintro ⟨prev, rest, hprev, hrest, rfl⟩
        exact ⟨prev, rest, hprev, (ih (Nat.le_of_succ_le_succ hlen)).2 hrest, rfl⟩

theorem backNodes_eq_ok_iff (hlen : row.length ≤ a.brk + 1) : a.backNodes = .ok row ↔
    a.LinkedBack (prologue :: (row ++ [prologue])) ∧ ∀ q ∈ row, q ≠ prologue := by
  rw [linkedBack_cons_iff]
  cases hlast : a.prevLink prologue with
  | error f =>
    refine iff_of_false ?_ fun h => by cases h.1.1
    simp only [backNodes, hlast]
    nofun
  | ok last =>
    simp only [backNodes, hlast, ok_bind, Except.ok.injEq]
    rw [backNodesFrom_eq_ok_iff hlen]
    constructor
    · rintro ⟨hhead, hlinked, hinner⟩
      exact ⟨⟨hhead, hlinked⟩, hinner⟩
    · rintro ⟨⟨hhead, hlinked⟩, hinner⟩
      exact ⟨hhead, hlinked, hinner⟩

/-- The way back is the reverse of some nodes if each of them, and the sentinel behind them, leads
back to the one before. -/
theorem backNodes_eq_reverse_iff (hlen : ps.length ≤ a.brk + 1) (hinner : ∀ q ∈ ps, q ≠ prologue) :
    a.backNodes = .ok ps.reverse ↔ a.prevLink (ps.headD prologue) = .ok prologue ∧
      (ps ++ [prologue]).IsChain fun p q => a.prevLink q = .ok p := by
  have hrow : prologue :: (ps.reverse ++ [prologue]) = (prologue :: (ps ++ [prologue])).reverse := by
    simp
  have hinner' : ∀ q ∈ ps.reverse, q ≠ prologue := fun q hq => hinner q (List.mem_reverse.1 hq)
  rw [backNodes_eq_ok_iff (by rwa [List.length_reverse]), hrow, LinkedBack, List.isChain_reverse,
    isChain_cons_append_prologue]
  exact and_iff_left hinner'

/-- On the way back the nodes of a clean report come in reverse, if only their first leads back to
the sentinel. -/
theorem CleanRing.backNodes_eq_iff (h : a.CleanRing ps) :
    a.backNodes = .ok ps.reverse ↔ a.prevLink (ps.headD prologue) = .ok prologue := by
  rw [backNodes_eq_reverse_iff (Nat.le_trans h.length_le ringLimit_le) h.ne_prologue]
  exact and_iff_left (h.linked.imp fun _ _ hpair => hpair.2)

/-- **A clean report certifies the ring both ways, but for one link.** Every node leads on to the next
and the last to the sentinel, and all of these lead back; where the ring has nodes, that is the
sentinel's own link back as well. What the first node leads back to is some place in bounds that
leads on to it. Whether that is the sentinel, and in an empty ring whether the sentinel leads back
to itself, is not certified: it is all that is missing, for the ring to be one and for the way back
to be the reverse. -/
theorem clean_report_links (hroom : 48 ≤ a.brk)
    (hreport : (a.inspect verbose).result = .ok report) (hclean : report.violations = []) :
    ∃ ps, a.nodes = .ok ps ∧ report.ringLength = ps.length ∧
      a.nextLink prologue = .ok (ps.headD prologue) ∧ a.Linked (ps ++ [prologue]) ∧
      (∀ p ∈ ps, ∃ q, a.prevLink p = .ok q ∧ a.InBounds q ∧ a.nextLink q = .ok p) ∧
      (a.IsRing ps ↔ a.prevLink (ps.headD prologue) = .ok prologue) ∧
      (a.backNodes = .ok ps.reverse ↔ a.prevLink (ps.headD prologue) = .ok prologue) := by
  obtain ⟨blocks, stop, ps, -, hheaded, hring, hnodes, hringLength, hcount⟩ :=
    clean_walks hroom hreport hclean
  refine ⟨ps, hnodes, hringLength, hring.head, hring.linked, fun p hp => (hring.nodes p hp).back,
    hring.isRing_iff, hring.backNodes_eq_iff⟩

/-- The reverse of its nodes. -/
theorem clean_report_links_twoFree : 48 ≤ twoFree.brk ∧
    ∃ report, (twoFree.inspect false).result = .ok report ∧ report.violations = [] ∧
      twoFree.nodes = .ok [112, 48] ∧ twoFree.backNodes = .ok [48, 112] := by
  have hroom : 48 ≤ twoFree.brk := twoFree_sound.overhead_le_brk
  have hreport := twoFree_sound.inspect_spec false
  obtain ⟨ps, hnodes, -, -, -, -, hisRing, hback⟩ := clean_report_links hroom hreport rfl
  obtain rfl := Except.ok.inj (twoFree_sound.isRing.nodes_eq.symm.trans hnodes)
  exact ⟨hroom, _, hreport, rfl, hnodes, hback.2 (hisRing.1 twoFree_sound.isRing)⟩

/-- A ring of one free block. Its link back leads into the payload of an allocated one, to a word
that looks like a link onward to it. -/
def lookAlike : Arena :=
  ofWords [0, 33, 48, 48, 33, 32, 80, 16, 32, 33, 0, 48, 33, 1] (by decide)

/-- An empty ring whose sentinel leads back to nowhere. -/
def looseSentinel : Arena :=
  ofWords [0, 33, 0, 16, 33, 1] (by decide)

/-- The reports of both are clean, and the way back is not the reverse of the way there. -/
theorem lookAlike_looseSentinel_clean :
    (lookAlike.nodes = .ok [48] ∧ lookAlike.prevLink 48 = .ok 80 ∧
      lookAlike.backNodes ≠ .ok [48] ∧ ∃ report,
        (∀ verbose, (lookAlike.inspect verbose).result = .ok report) ∧ report.violations = []) ∧
    (looseSentinel.nodes = .ok [] ∧ looseSentinel.prevLink prologue = .ok 0 ∧
      looseSentinel.backNodes ≠ .ok [] ∧ ∃ report,
        (∀ verbose, (looseSentinel.inspect verbose).result = .ok report) ∧
          report.violations = []) := by
  refine ⟨⟨rfl, rfl, ?_, ?_⟩, rfl, rfl, ?_, ?_⟩
  · intro hback
    have hreverse : lookAlike.backNodes = .ok [48].reverse := hback
    have hfirst := ((backNodes_eq_reverse_iff (by decide) (by decide)).1 hreverse).1
    have hlink : lookAlike.prevLink 48 = .ok 80 := rfl
    cases hlink.symm.trans hfirst
  · have htiles : lookAlike.Tiles firstPayload [⟨48, smallFree⟩, ⟨80, Tag.sentinel⟩] lookAlike.brk :=
      ⟨rfl, by decide, rfl, rfl, rfl, by decide, rfl, rfl, rfl⟩
    have hring : lookAlike.ringWalk = .ok ⟨[48], []⟩ := rfl
    obtain ⟨-, hreport⟩ := inspect_of_tiles rfl htiles rfl (by unfold Merged; decide) hring rfl
    exact ⟨_, hreport, rfl⟩
  · intro hback
    have hreverse : looseSentinel.backNodes = .ok [].reverse := hback
    have hfirst := ((backNodes_eq_reverse_iff (by decide) (by decide)).1 hreverse).1
    have hlink : looseSentinel.prevLink prologue = .ok 0 := rfl
    cases hlink.symm.trans hfirst
  · have htiles : looseSentinel.Tiles firstPayload [] looseSentinel.brk := rfl
    have hring : looseSentinel.ringWalk = .ok ⟨[], []⟩ := rfl
    obtain ⟨-, hreport⟩ := inspect_of_tiles rfl htiles rfl (by unfold Merged; decide) hring rfl
    exact ⟨_, hreport, rfl⟩

end Arena
end BoundaryHeap
