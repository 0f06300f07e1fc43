import BoundaryHeap.Proofs.BlockWalks

/-!
# Rounds over any bytes

The walk round the ring goes where links lead, and a link can be any word. It asks where a link
leads before it reads there, and it has a budget, so it comes to an end in every arena and **reads
links only where both lie inside the heap** (`ringWalk_robust`). What it may not follow it reports,
and what it reports hangs on nothing but the links it looked at (`ringWalkFrom_congr`).

The question itself adds two words to the link. That sum leaves the range of a word for one link
only, the last multiple of 16 that a word can hold: a walk that comes upon it faults.
-/

set_option autoImplicit false

namespace BoundaryHeap

/-- The last multiple of 16 that a word can hold, as a link. The end of its two words cannot be told
by a word. -/
def topLink : Nat := 0xFFFFFFFFFFFFFFF0

namespace Arena

variable {a b : Arena} {p q source link budget : Nat} {ps : List Nat} {links : Links}
  {back : Links → Nat} {w rest : RingWalk} {found : List Violation}

/-! ## Links -/

/-- A link that may be followed: it leads to a possible payload, the sentinel's included, and the two
links there lie inside the heap. -/
structure InBounds (a : Arena) (link : Nat) : Prop where
  aligned : link % 16 = 0
  above : 16 ≤ link
  below : link + 16 ≤ a.brk

theorem inBounds_prologue (hroom : 48 ≤ a.brk) : a.InBounds prologue :=
  ⟨rfl, Nat.le_refl _, Nat.le_trans (by decide) hroom⟩

theorem IsPlace.inBounds (h : a.IsPlace p) : a.InBounds p :=
  ⟨h.aligned, Nat.le_trans (by decide) h.above, h.below⟩

/-- A link in bounds that is not the sentinel leads to a place for a node. -/
theorem InBounds.place (h : a.InBounds p) (hne : p ≠ prologue) : a.IsPlace p := by
  obtain ⟨hmod, hlow, hfit⟩ := h
  refine ⟨hmod, ?_, hfit⟩
  simp only [prologue, wordSize] at hne
  omega

theorem readOffset_lt (h : a.readOffset p = .ok link) : link < wordLimit := by
  obtain ⟨w, -, rfl⟩ := map_eq_ok_iff.1 h
  exact w.toNat_lt

theorem nextLink_lt (h : a.nextLink p = .ok link) : link < wordLimit :=
  readOffset_lt h

theorem prevLink_lt (h : a.prevLink p = .ok link) : link < wordLimit :=
  readOffset_lt h

theorem links_eq_ok_iff :
    a.links p = .ok links ↔ a.prevLink p = .ok links.prev ∧ a.nextLink p = .ok links.next := by
  show (a.prevLink p >>= fun prev => a.nextLink p >>= fun next => .ok (Links.mk prev next)) = _ ↔ _
  simp only [bind_eq_ok_iff]
  constructor
  · intro h
    obtain ⟨prev, hprev, next, hnext, heq⟩ := h
    cases Except.ok.inj heq
    exact ⟨hprev, hnext⟩
  · intro h
    exact ⟨_, h.1, _, h.2, rfl⟩

theorem linkInBounds_topLink : a.linkInBounds topLink = .error .arithmetic := by
  unfold linkInBounds
  rw [if_pos (by decide)]
  rfl

theorem InBounds.linkInBounds (h : a.InBounds link) : a.linkInBounds link = .ok true :=
  linkInBounds_eq h.aligned h.above h.below

theorem linkInBounds_of_not (hword : link < wordLimit) (htop : link ≠ topLink)
    (hout : ¬ a.InBounds link) : a.linkInBounds link = .ok false := by
  unfold linkInBounds
  split
  · next hguard =>
    obtain ⟨hmod, hlow⟩ := hguard
    simp only [alignment, prologue, wordSize, wordLimit, topLink] at hmod hlow hword htop
    have hsum : addOffset link (2 * wordSize) = .ok (link + 16) :=
      addOffset_of_lt (by simp only [wordSize]; omega)
    have hfit : ¬ link + 16 ≤ a.brk := fun hfit => hout ⟨hmod, hlow, hfit⟩
    rw [hsum]
    exact congrArg Except.ok (decide_eq_false hfit)
  · rfl

theorem linkInBounds_congr (hbrk : b.brk = a.brk) : b.linkInBounds link = a.linkInBounds link := by
  simp only [Arena.linkInBounds, hbrk]

/-! ## Where a link leads -/

theorem destination_topLink : a.destination topLink = .error .arithmetic := by
  rw [destination, linkInBounds_topLink]
  rfl

theorem destination_outside (hword : link < wordLimit) (htop : link ≠ topLink)
    (hout : ¬ a.InBounds link) : a.destination link = .ok .outside := by
  rw [destination, linkInBounds_of_not hword htop hout]
  rfl

theorem destination_sentinel (hroom : 48 ≤ a.brk) : a.destination prologue = .ok .sentinel := by
  rw [destination, (inBounds_prologue hroom).linkInBounds]
  rfl

theorem IsPlace.ne_prologue (h : a.IsPlace p) : p ≠ prologue := by
  intro heq
  have hlow := h.above
  rw [heq] at hlow
  exact absurd hlow (by decide)

theorem IsPlace.congr (hbrk : b.brk = a.brk) (h : a.IsPlace p) : b.IsPlace p :=
  ⟨h.aligned, h.above, hbrk ▸ h.below⟩

theorem IsPlace.destination (h : a.IsPlace p) : a.destination p = .ok .node := by
  rw [Arena.destination, h.inBounds.linkInBounds]
  simp only [Except.map, Bool.not_true, Bool.false_eq_true, if_false, h.ne_prologue]

theorem destination_congr (hbrk : b.brk = a.brk) : b.destination link = a.destination link := by
  rw [destination, destination, linkInBounds_congr hbrk]

/-- What a link can be to the walk. -/
theorem link_cases (a : Arena) (link : Nat) :
    link = topLink ∨ (link ≠ topLink ∧ ¬ a.InBounds link) ∨ link = prologue ∨ a.IsPlace link := by
  by_cases htop : link = topLink
  · exact .inl htop
  · by_cases hin : a.InBounds link
    · by_cases hsentinel : link = prologue
      · exact .inr (.inr (.inl hsentinel))
      · exact .inr (.inr (.inr (hin.place hsentinel)))
    · exact .inr (.inl ⟨htop, hin⟩)

/-! ## Looking at a node -/

theorem leadsBack_topLink : a.leadsBack topLink back p = .error .arithmetic := by
  simp only [leadsBack, linkInBounds_topLink]
  rfl

/-- Whether a link has a link back: never, where it leads out of bounds. -/
theorem leadsBack_spec (back : Links → Nat) (hword : link < wordLimit) (htop : link ≠ topLink) :
    ∃ yes, a.leadsBack link back p = .ok yes ∧
      (yes = true ↔ a.InBounds link ∧ ∃ links, a.links link = .ok links ∧ back links = p) := by
  by_cases hin : a.InBounds link
  · obtain ⟨links, hlinks, -⟩ := links_ok (a := a) (q := link) hin.below
    refine ⟨back links == p, ?_, ?_⟩
    · simp only [leadsBack, hin.linkInBounds, hlinks, ok_bind, if_true]
      rfl
    · rw [beq_iff_eq]
      constructor
      · intro hback
        exact ⟨hin, links, hlinks, hback⟩
      · rintro ⟨-, links', hlinks', hback⟩
        rw [hlinks] at hlinks'
        cases hlinks'
        exact hback
  · refine ⟨false, ?_, ?_⟩
    · simp only [leadsBack, linkInBounds_of_not hword htop hin, ok_bind, Bool.false_eq_true,
        if_false]
      rfl
    · simp [hin]

theorem IsPlace.isNode_ok (h : a.IsPlace p) : ∃ yes, a.isNode p = .ok yes := by
  obtain ⟨hmod, hlow, hfit⟩ := h
  obtain ⟨tag, htag⟩ := header_ok (a := a) (p := p) (by omega) (by omega)
  unfold isNode
  split
  · exact ⟨true, rfl⟩
  · rw [htag]
    exact ⟨_, rfl⟩

theorem IsPlace.nodeViolations_topLink (h : a.IsPlace p) (hlinks : a.links p = .ok links)
    (htop : links.next = topLink ∨ links.prev = topLink) :
    a.nodeViolations p links = .error .arithmetic := by
  obtain ⟨node, hnode⟩ := h.isNode_ok
  by_cases hnext : links.next = topLink
  · simp only [nodeViolations, hnode, hnext, leadsBack_topLink, ok_bind]
    rfl
  · have hprev : links.prev = topLink := htop.resolve_left hnext
    obtain ⟨yes, hyes, -⟩ := leadsBack_spec (a := a) (p := p) Links.prev
      (nextLink_lt (links_eq_ok_iff.1 hlinks).2) hnext
    simp only [nodeViolations, hnode, hyes, hprev, leadsBack_topLink, ok_bind]
    rfl

/-- What is found at a node: a mismatch if one of its links leads out of bounds, and nothing only
if its header says free and both of its neighbours lead back to it. -/
theorem IsPlace.nodeViolations_spec (h : a.IsPlace p) (hlinks : a.links p = .ok links)
    (hnext : links.next ≠ topLink) (hprev : links.prev ≠ topLink) :
    ∃ found, a.nodeViolations p links = .ok found ∧
      (¬ a.InBounds links.next ∨ ¬ a.InBounds links.prev → .linkMismatch p ∈ found) ∧
      (found = [] → a.isNode p = .ok true ∧ a.prevLink links.next = .ok p ∧
        a.InBounds links.prev ∧ a.nextLink links.prev = .ok p) := by
  obtain ⟨hprevLink, hnextLink⟩ := links_eq_ok_iff.1 hlinks
  obtain ⟨node, hnode⟩ := h.isNode_ok
  obtain ⟨nextOk, hnextOk, hnextIff⟩ := leadsBack_spec (a := a) (p := p) Links.prev
    (nextLink_lt hnextLink) hnext
  obtain ⟨prevOk, hprevOk, hprevIff⟩ := leadsBack_spec (a := a) (p := p) Links.next
    (prevLink_lt hprevLink) hprev
  refine ⟨(if node then [] else [.listedBlockAllocated p]) ++
    (if nextOk && prevOk then [] else [.linkMismatch p]), ?_, ?_, ?_⟩
  · simp only [nodeViolations, hnode, hnextOk, hprevOk, ok_bind]
    rfl
  · intro hout
    have hfail : (nextOk && prevOk) = false := by
      apply Bool.eq_false_iff.2
      intro hboth
      obtain ⟨hn, hp⟩ := Bool.and_eq_true_iff.1 hboth
      rcases hout with hout | hout
      · exact hout (hnextIff.1 hn).1
      · exact hout (hprevIff.1 hp).1
    simp [hfail]
  · intro hnone
    obtain ⟨htag, hsides⟩ := List.append_eq_nil_iff.1 hnone
    have hfree : node = true := by
      by_contra hnot
      simp [hnot] at htag
    have hboth : (nextOk && prevOk) = true := by
      by_contra hnot
      simp [hnot] at hsides
    obtain ⟨hn, hp⟩ := Bool.and_eq_true_iff.1 hboth
    obtain ⟨-, ahead, hahead, hback⟩ := hnextIff.1 hn
    obtain ⟨hin, behind, hbehind, honward⟩ := hprevIff.1 hp
    refine ⟨by rw [hnode, hfree], ?_, hin, ?_⟩
    · rw [(links_eq_ok_iff.1 hahead).1, hback]
    · rw [(links_eq_ok_iff.1 hbehind).2, honward]

theorem IsPlace.of_nodeViolations_eq_nil (h : a.IsPlace p) (hlinks : a.links p = .ok links)
    (hnone : a.nodeViolations p links = .ok []) :
    a.isNode p = .ok true ∧ a.prevLink links.next = .ok p ∧ a.InBounds links.prev ∧
      a.nextLink links.prev = .ok p := by
  have htop : ¬ (links.next = topLink ∨ links.prev = topLink) := fun htop => by
    rw [h.nodeViolations_topLink hlinks htop] at hnone
    cases hnone
  obtain ⟨hnext, hprev⟩ := not_or.1 htop
  obtain ⟨found, hfound, -, hclean⟩ := h.nodeViolations_spec hlinks hnext hprev
  exact hclean (Except.ok.inj (hfound.symm.trans hnone))

/-! ## One step of a walk -/

theorem ringWalkFrom_topLink : a.ringWalkFrom source topLink budget = .error .arithmetic := by
  cases budget <;> simp only [ringWalkFrom, destination_topLink] <;> rfl

theorem ringWalkFrom_outside (hword : link < wordLimit) (htop : link ≠ topLink)
    (hout : ¬ a.InBounds link) :
    a.ringWalkFrom source link budget = .ok ⟨[], [.linkOutOfBounds source link]⟩ := by
  cases budget <;> simp only [ringWalkFrom, destination_outside hword htop hout] <;> rfl

theorem ringWalkFrom_sentinel (hroom : 48 ≤ a.brk) :
    a.ringWalkFrom source prologue budget = .ok ⟨[], []⟩ := by
  cases budget <;> simp only [ringWalkFrom, destination_sentinel hroom] <;> rfl

theorem IsPlace.ringWalkFrom_spent (h : a.IsPlace link) :
    a.ringWalkFrom source link 0 = .ok ⟨[link], [.listNotClosed (a.ringLimit + 1)]⟩ := by
  simp only [ringWalkFrom, h.destination]
  rfl

theorem IsPlace.ringWalkFrom_node (h : a.IsPlace link) (hlinks : a.links link = .ok links)
    (hfound : a.nodeViolations link links = .ok found)
    (hrest : a.ringWalkFrom link links.next budget = .ok rest) :
    a.ringWalkFrom source link (budget + 1) = .ok (rest.cons link found) := by
  simp only [ringWalkFrom, h.destination, hlinks, hfound, hrest, ok_bind]
  rfl

/-- What a walk did that looked at a node. -/
theorem IsPlace.ringWalkFrom_inv (h : a.IsPlace link)
    (hwalk : a.ringWalkFrom source link (budget + 1) = .ok w) :
    ∃ links found rest, a.links link = .ok links ∧ a.nodeViolations link links = .ok found ∧
      a.ringWalkFrom link links.next budget = .ok rest ∧ w = rest.cons link found := by
  obtain ⟨links, hlinks, -⟩ := links_ok (a := a) (q := link) h.below
  simp only [ringWalkFrom, h.destination, hlinks, ok_bind] at hwalk
  obtain ⟨found, hfound, hwalk⟩ := bind_eq_ok_iff.1 hwalk
  obtain ⟨rest, hrest, hwalk⟩ := bind_eq_ok_iff.1 hwalk
  exact ⟨links, found, rest, hlinks, hfound, hrest, (Except.ok.inj hwalk).symm⟩

/-! ## Trails -/

/-- The nodes that next links lead to from `source` on, one after the other: each of them a place
for a node. -/
structure Trail (a : Arena) (source : Nat) (ps : List Nat) : Prop where
  linked : (source :: ps).IsChain fun p q => a.nextLink p = .ok q
  place : ∀ p ∈ ps, a.IsPlace p

/-- The last node of a trail holds the top link. Of a trail without nodes, only the link that leads
on from its source is looked at. -/
def EndsAtTop (a : Arena) (source : Nat) (ps : List Nat) : Prop :=
  a.nextLink (ps.getLastD source) = .ok topLink ∨
    ps ≠ [] ∧ a.prevLink (ps.getLastD source) = .ok topLink

theorem Trail.nil : a.Trail source [] :=
  ⟨List.IsChain.singleton _, fun _ h => absurd h List.not_mem_nil⟩

theorem Trail.cons (hnext : a.nextLink source = .ok p) (hplace : a.IsPlace p)
    (h : a.Trail p ps) : a.Trail source (p :: ps) :=
  ⟨List.isChain_cons_cons.2 ⟨hnext, h.linked⟩, List.forall_mem_cons.2 ⟨hplace, h.place⟩⟩

theorem Trail.uncons (h : a.Trail source (p :: ps)) :
    a.nextLink source = .ok p ∧ a.IsPlace p ∧ a.Trail p ps :=
  have hlinked := List.isChain_cons_cons.1 h.linked
  have hplace := List.forall_mem_cons.1 h.place
  ⟨hlinked.1, hplace.1, hlinked.2, hplace.2⟩

theorem endsAtTop_cons (h : ps ≠ []) :
    a.EndsAtTop source (p :: ps) ↔ a.EndsAtTop p ps := by
  simp [EndsAtTop, List.getLastD_cons, h, -List.getLastD_eq_getLast?]

/-- A walk that comes upon the top link faults. -/
theorem Trail.ringWalkFrom_eq (h : a.Trail source ps) (htop : a.EndsAtTop source ps)
    (hlen : ps.length ≤ budget) (hnext : a.nextLink source = .ok link) :
    a.ringWalkFrom source link budget = .error .arithmetic := by
  induction ps generalizing source link budget with
  | nil =>
    have hlast : a.nextLink source = .ok topLink := htop.resolve_right fun hne => hne.1 rfl
    obtain rfl : link = topLink := Except.ok.inj (hnext.symm.trans hlast)
    exact ringWalkFrom_topLink
  | cons p rest ih =>
    obtain ⟨n, rfl⟩ : ∃ n, budget = n + 1 := ⟨budget - 1, by simp at hlen; omega⟩
    obtain ⟨hfirst, hplace, hrest⟩ := h.uncons
    obtain rfl : link = p := Except.ok.inj (hnext.symm.trans hfirst)
    obtain ⟨links, hlinks, hprevLink, hnextLink⟩ := links_ok (a := a) (q := link) hplace.below
    by_cases hhere : links.next = topLink ∨ links.prev = topLink
    · simp only [ringWalkFrom, hplace.destination, hlinks,
        hplace.nodeViolations_topLink hlinks hhere, ok_bind]
      rfl
    · obtain ⟨hn, hp⟩ := not_or.1 hhere
      have hlater : rest ≠ [] := by
        rintro rfl
        rcases htop with hlast | ⟨-, hlast⟩
        · exact hn (Except.ok.inj (hnextLink.symm.trans hlast))
        · exact hp (Except.ok.inj (hprevLink.symm.trans hlast))
      obtain ⟨found, hfound, -⟩ := hplace.nodeViolations_spec hlinks hn hp
      have hwalk : a.ringWalkFrom link links.next n = .error .arithmetic :=
        ih hrest ((endsAtTop_cons hlater).1 htop) (by simpa using hlen) hnextLink
      simp only [ringWalkFrom, hplace.destination, hlinks, hfound, hwalk, ok_bind]
      rfl

/-! ## What a walk reports -/

/-- What a walk of some budget from `source` on makes of an arena. It meets the nodes of a trail, at
most one more than its budget has it look at. Each link that it may not follow is reported, from
the node that holds it; so is each node that it looked at and that has a link out of bounds. It ends
at the sentinel, at a link that it may not follow, or with its budget spent, which is reported too. -/
structure Surveyed (a : Arena) (source budget : Nat) (w : RingWalk) : Prop where
  trail : a.Trail source w.nodes
  length_le : w.nodes.length ≤ budget + 1
  followed : ∀ p ∈ source :: w.nodes.take budget, ∀ link, a.nextLink p = .ok link →
    ¬ a.InBounds link → .linkOutOfBounds p link ∈ w.violations
  inspected : ∀ p ∈ w.nodes.take budget, ∀ links, a.links p = .ok links →
    ¬ a.InBounds links.next ∨ ¬ a.InBounds links.prev → .linkMismatch p ∈ w.violations
  ended : w.nodes.length ≤ budget → ∃ link, a.nextLink (w.nodes.getLastD source) = .ok link ∧
    (link = prologue ∨ ¬ a.InBounds link)
  spent : budget < w.nodes.length → .listNotClosed (a.ringLimit + 1) ∈ w.violations

theorem surveyed_outside (hnext : a.nextLink source = .ok link) (hout : ¬ a.InBounds link) :
    a.Surveyed source budget ⟨[], [.linkOutOfBounds source link]⟩ := by
  refine ⟨Trail.nil, Nat.zero_le _, ?_, ?_, fun _ => ⟨link, hnext, .inr hout⟩, ?_⟩
  · intro p hp link' hlink' _
    obtain rfl : p = source := by simpa using hp
    obtain rfl : link = link' := Except.ok.inj (hnext.symm.trans hlink')
    exact List.mem_singleton.2 rfl
  · intro p hp
    simp at hp
  · intro hspent
    exact absurd hspent (Nat.not_lt_zero _)

theorem surveyed_sentinel (hroom : 48 ≤ a.brk) (hnext : a.nextLink source = .ok prologue) :
    a.Surveyed source budget ⟨[], []⟩ := by
  refine ⟨Trail.nil, Nat.zero_le _, ?_, ?_, fun _ => ⟨prologue, hnext, .inl rfl⟩, ?_⟩
  · intro p hp link hlink hout
    obtain rfl : p = source := by simpa using hp
    obtain rfl : prologue = link := Except.ok.inj (hnext.symm.trans hlink)
    exact absurd (inBounds_prologue hroom) hout
  · intro p hp
    simp at hp
  · intro hspent
    exact absurd hspent (Nat.not_lt_zero _)

theorem surveyed_spent (hnext : a.nextLink source = .ok p) (hplace : a.IsPlace p) :
    a.Surveyed source 0 ⟨[p], [.listNotClosed (a.ringLimit + 1)]⟩ := by
  refine ⟨Trail.nil.cons hnext hplace, Nat.le_refl _, ?_, ?_, ?_, fun _ => List.mem_singleton.2 rfl⟩
  · intro q hq link hlink hout
    obtain rfl : q = source := by simpa using hq
    obtain rfl : p = link := Except.ok.inj (hnext.symm.trans hlink)
    exact absurd hplace.inBounds hout
  · intro q hq
    simp at hq
  · intro hlen
    simp at hlen

/-- One node more, looked at before the rest of the walk. -/
theorem Surveyed.cons (h : a.Surveyed p budget rest) (hnext : a.nextLink source = .ok p)
    (hplace : a.IsPlace p) (hlinks : a.links p = .ok links)
    (hfound : ¬ a.InBounds links.next ∨ ¬ a.InBounds links.prev → .linkMismatch p ∈ found) :
    a.Surveyed source (budget + 1) (rest.cons p found) := by
  obtain ⟨htrail, hlen, hfollowed, hinspected, hended, hspent⟩ := h
  refine ⟨htrail.cons hnext hplace, Nat.succ_le_succ hlen, ?_, ?_, ?_, ?_⟩
  · intro q hq link hlink hout
    rcases List.mem_cons.1 hq with rfl | hq
    · obtain rfl : p = link := Except.ok.inj (hnext.symm.trans hlink)
      exact absurd hplace.inBounds hout
    · exact List.mem_append_right _ (hfollowed q hq link hlink hout)
  · intro q hq links' hlinks' hout
    rcases List.mem_cons.1 hq with rfl | hq
    · obtain rfl : links = links' := Except.ok.inj (hlinks.symm.trans hlinks')
      exact List.mem_append_left _ (hfound hout)
    · exact List.mem_append_right _ (hinspected q hq links' hlinks' hout)
  · intro hle
    obtain ⟨link, hlast, hlink⟩ := hended (Nat.le_of_succ_le_succ hle)
    refine ⟨link, ?_, hlink⟩
    rw [RingWalk.cons, List.getLastD_cons]
    exact hlast
  · intro hlt
    exact List.mem_append_right _ (hspent (Nat.lt_of_succ_lt_succ hlt))

/-- **A walk that does not come upon the top link is answered.** -/
theorem ringWalkFrom_spec (hroom : 48 ≤ a.brk) (hnext : a.nextLink source = .ok link)
    (hnone : ∀ ps, a.Trail source ps → ps.length ≤ budget → ¬ a.EndsAtTop source ps) :
    ∃ w, a.ringWalkFrom source link budget = .ok w ∧ a.Surveyed source budget w := by
  induction budget generalizing source link with
  | zero =>
    rcases link_cases a link with rfl | ⟨htop, hout⟩ | rfl | hplace
    · exact absurd (.inl hnext) (hnone [] Trail.nil (Nat.le_refl _))
    · exact ⟨_, ringWalkFrom_outside (nextLink_lt hnext) htop hout, surveyed_outside hnext hout⟩
    · exact ⟨_, ringWalkFrom_sentinel hroom, surveyed_sentinel hroom hnext⟩
    · exact ⟨_, hplace.ringWalkFrom_spent, surveyed_spent hnext hplace⟩
  | succ n ih =>
    rcases link_cases a link with rfl | ⟨htop, hout⟩ | rfl | hplace
    · exact absurd (.inl hnext) (hnone [] Trail.nil (Nat.zero_le _))
    · exact ⟨_, ringWalkFrom_outside (nextLink_lt hnext) htop hout, surveyed_outside hnext hout⟩
    · exact ⟨_, ringWalkFrom_sentinel hroom, surveyed_sentinel hroom hnext⟩
    · obtain ⟨links, hlinks, hprevLink, hnextLink⟩ := links_ok (a := a) (q := link) hplace.below
      -- The node itself is a trail of one, so neither of its links is the top link.
      have hhere : ¬ a.EndsAtTop source [link] :=
        hnone [link] (Trail.nil.cons hnext hplace) (Nat.le_add_left 1 n)
      have hn : links.next ≠ topLink := fun heq => hhere (.inl (heq ▸ hnextLink))
      have hp : links.prev ≠ topLink := fun heq =>
        hhere (.inr ⟨List.cons_ne_nil _ _, heq ▸ hprevLink⟩)
      obtain ⟨found, hfound, hmismatch, -⟩ := hplace.nodeViolations_spec hlinks hn hp
      obtain ⟨rest, hrest, hsurvey⟩ := ih hnextLink fun ps htrail hlen htop => by
        cases ps with
        | nil => exact hn (Except.ok.inj (hnextLink.symm.trans (htop.resolve_right fun h => h.1 rfl)))
        | cons q qs =>
          exact hnone (link :: q :: qs) (htrail.cons hnext hplace) (Nat.succ_le_succ hlen)
            ((endsAtTop_cons (List.cons_ne_nil q qs)).2 htop)
      exact ⟨_, hplace.ringWalkFrom_node hlinks hfound hrest,
        hsurvey.cons hnext hplace hlinks hmismatch⟩

/-! ## What a walk reads -/

/-- The places whose links the walk reads that looks at some nodes: the nodes themselves, and those
of their neighbours that are in bounds. -/
def Consults (a : Arena) (looked : List Nat) (q : Nat) : Prop :=
  q ∈ looked ∨ a.InBounds q ∧ ∃ p ∈ looked, a.nextLink p = .ok q ∨ a.prevLink p = .ok q

theorem Consults.mono {looked more : List Nat} (hsub : looked ⊆ more) (h : a.Consults looked q) :
    a.Consults more q := by
  rcases h with hq | ⟨hin, p, hp, hlink⟩
  · exact .inl (hsub hq)
  · exact .inr ⟨hin, p, hsub hp, hlink⟩

theorem leadsBack_congr (hbrk : b.brk = a.brk) (hword : link < wordLimit)
    (hlinks : a.InBounds link → b.links link = a.links link) :
    b.leadsBack link back p = a.leadsBack link back p := by
  by_cases hin : a.InBounds link
  · simp only [leadsBack, linkInBounds_congr hbrk, hlinks hin]
  · by_cases htop : link = topLink
    · rw [htop, leadsBack_topLink, leadsBack_topLink]
    · simp only [leadsBack, linkInBounds_congr hbrk, linkInBounds_of_not hword htop hin, ok_bind,
        Bool.false_eq_true, if_false]

theorem nodeViolations_congr (hbrk : b.brk = a.brk) (hheader : b.header p = a.header p)
    (hlinks : a.links p = .ok links) (hconsulted : ∀ q, a.Consults [p] q → b.links q = a.links q) :
    b.nodeViolations p links = a.nodeViolations p links := by
  obtain ⟨hprev, hnext⟩ := links_eq_ok_iff.1 hlinks
  have hnode : b.isNode p = a.isNode p := by
    simp only [isNode, hheader]
  have hahead : b.leadsBack links.next Links.prev p = a.leadsBack links.next Links.prev p :=
    leadsBack_congr hbrk (nextLink_lt hnext) fun hin =>
      hconsulted _ (.inr ⟨hin, p, List.mem_singleton.2 rfl, .inl hnext⟩)
  have hbehind : b.leadsBack links.prev Links.next p = a.leadsBack links.prev Links.next p :=
    leadsBack_congr hbrk (prevLink_lt hprev) fun hin =>
      hconsulted _ (.inr ⟨hin, p, List.mem_singleton.2 rfl, .inr hprev⟩)
  simp only [nodeViolations, hnode, hahead, hbehind]

/-- **A walk reads nothing but what it consults.** In an arena of the same size with the same links
at these places, and the same headers at the nodes, it is the same walk, whatever else is
different. -/
theorem ringWalkFrom_congr (hroom : 48 ≤ a.brk) (hbrk : b.brk = a.brk)
    (hwalk : a.ringWalkFrom source link budget = .ok w) (hword : link < wordLimit)
    (hheaders : ∀ p ∈ w.nodes.take budget, b.header p = a.header p)
    (hlinks : ∀ q, a.Consults (w.nodes.take budget) q → b.links q = a.links q) :
    b.ringWalkFrom source link budget = .ok w := by
  have hlimit : b.ringLimit = a.ringLimit := by
    rw [ringLimit, ringLimit, hbrk]
  have hroom' : 48 ≤ b.brk := by omega
  induction budget generalizing source link w with
  | zero =>
    rw [← hwalk]
    simp only [ringWalkFrom, destination_congr hbrk, hlimit]
  | succ n ih =>
    rcases link_cases a link with rfl | ⟨htop, hout⟩ | rfl | hplace
    · rw [ringWalkFrom_topLink] at hwalk
      cases hwalk
    · rw [← hwalk]
      simp only [ringWalkFrom, destination_congr hbrk, destination_outside hword htop hout, ok_bind]
    · rw [← hwalk, ringWalkFrom_sentinel hroom, ringWalkFrom_sentinel hroom']
    · obtain ⟨links, found, rest, hown, hfound, hrest, rfl⟩ := hplace.ringWalkFrom_inv hwalk
      have hlooked : (rest.cons link found).nodes.take (n + 1) = link :: rest.nodes.take n := rfl
      rw [hlooked] at hheaders hlinks
      have hsame : b.links link = .ok links := (hlinks link (.inl List.mem_cons_self)).trans hown
      have hviolations : b.nodeViolations link links = .ok found := by
        rw [← hfound]
        exact nodeViolations_congr hbrk (hheaders link List.mem_cons_self) hown fun q hq =>
          hlinks q (hq.mono (List.cons_subset_cons link (List.nil_subset _)))
      have hlater : b.ringWalkFrom link links.next n = .ok rest :=
        ih hrest (nextLink_lt (links_eq_ok_iff.1 hown).2)
          (fun p hp => hheaders p (List.mem_cons_of_mem _ hp))
          (fun q hq => hlinks q (hq.mono (List.subset_cons_self _ _)))
      exact (hplace.congr hbrk).ringWalkFrom_node hsame hviolations hlater

/-! ## Robustness -/

/-- The walk comes upon the top link while it has budget to look at it: as a link onward, or as a
link back of a node. -/
def MeetsTopLink (a : Arena) : Prop :=
  ∃ ps, a.Trail prologue ps ∧ ps.length ≤ a.ringLimit ∧ a.EndsAtTop prologue ps

theorem ringWalk_eq (hroom : 48 ≤ a.brk) : ∃ link, a.nextLink prologue = .ok link ∧
    a.ringWalk = a.ringWalkFrom prologue link a.ringLimit := by
  obtain ⟨links, hlinks, -, hnext⟩ := links_ok (a := a) (q := prologue)
    (inBounds_prologue hroom).below
  refine ⟨links.next, hnext, ?_⟩
  simp only [ringWalk, hlinks, ok_bind]

theorem Surveyed.inBounds_of_consults (h : a.Surveyed source budget w)
    (hq : a.Consults (w.nodes.take budget) q) : a.InBounds q := by
  rcases hq with hq | ⟨hin, -⟩
  · exact (h.trail.place q (List.mem_of_mem_take hq)).inBounds
  · exact hin

theorem ringWalk_congr (hroom : 48 ≤ a.brk) (hwalk : a.ringWalk = .ok w) (hbrk : b.brk = a.brk)
    (hsentinel : b.links prologue = a.links prologue)
    (hheaders : ∀ p ∈ w.nodes.take a.ringLimit, b.header p = a.header p)
    (hlinks : ∀ q, a.Consults (w.nodes.take a.ringLimit) q → b.links q = a.links q) :
    b.ringWalk = .ok w := by
  have hlimit : b.ringLimit = a.ringLimit := by
    rw [ringLimit, ringLimit, hbrk]
  obtain ⟨links, hown, -, hnext⟩ := links_ok (a := a) (q := prologue)
    (inBounds_prologue hroom).below
  have hown' : b.links prologue = .ok links := hsentinel.trans hown
  simp only [ringWalk, hown, ok_bind] at hwalk
  simp only [ringWalk, hown', hlimit, ok_bind]
  exact ringWalkFrom_congr hroom hbrk hwalk (nextLink_lt hnext) hheaders hlinks

/-- A walk that was answered has its place in the report. -/
theorem inspect_of_walks {stats : HeapStats} (hroom : 48 ≤ a.brk) (hring : a.ringWalk = .ok w)
    (hstats : a.stats = .ok stats) : ∃ report,
      (∀ verbose, (a.inspect verbose).result = .ok report) ∧
        report.ringLength = w.nodes.length ∧ w.violations ⊆ report.violations := by
  obtain ⟨header, footer, walk, -, -, -, hresult⟩ := inspect_result hroom
  rw [hring, hstats] at hresult
  refine ⟨_, hresult, rfl, ?_⟩
  intro v hv
  exact List.mem_append_left _ (List.mem_append_right _ hv)

theorem check_lenient {heap : Heap} {report : HeapReport} {verbose : Bool}
    (hreport : (heap.arena.inspect verbose).result = .ok report)
    (hmode : heap.settings.mode = .lenient) : (heap.check verbose).result = .ok report := by
  simp only [Heap.check, HeapReport.enforce, hmode, hreport, ok_bind, Traced.result_bind,
    Traced.result_emitAll, Traced.result_pure]

/-- **The walk round the ring is answered, whatever the bytes of the arena say**, unless it comes upon
the top link: then it faults, and the audit with it. It looks at no more nodes than there is room
for. A link out of bounds is reported where it is held, as one that leads out or as a mismatch of its
node, and the answer does not hang on a word that such a link leads to: the walk reads the links of
the sentinel, of nodes and of their neighbours in bounds, and the headers of nodes. The audit has
whatever the walk reports, and in lenient mode it is handed over. -/
theorem ringWalk_robust (hroom : 48 ≤ a.brk) :
    (a.MeetsTopLink → a.ringWalk = .error .arithmetic ∧
      ∀ verbose, (a.inspect verbose).result = .error .arithmetic) ∧
    (¬ a.MeetsTopLink → ∃ w, a.ringWalk = .ok w ∧ w.nodes.length ≤ a.brk / 32 + 2 ∧
      a.Surveyed prologue a.ringLimit w ∧
      (∀ q, a.Consults (w.nodes.take a.ringLimit) q → a.InBounds q) ∧
      (∀ b : Arena, b.brk = a.brk → b.links prologue = a.links prologue →
        (∀ p ∈ w.nodes.take a.ringLimit, b.header p = a.header p) →
        (∀ q, a.Consults (w.nodes.take a.ringLimit) q → b.links q = a.links q) →
        b.ringWalk = .ok w) ∧
      ∀ stats, a.stats = .ok stats → ∃ report,
        (∀ verbose, (a.inspect verbose).result = .ok report) ∧
        report.ringLength = w.nodes.length ∧ w.violations ⊆ report.violations ∧
        ∀ heap : Heap, heap.arena = a → heap.settings.mode = .lenient →
          ∀ verbose, (heap.check verbose).result = .ok report) := by
  obtain ⟨link, hnext, hwalk⟩ := ringWalk_eq hroom
  constructor
  · rintro ⟨ps, htrail, hlen, htop⟩
    have hfault : a.ringWalk = .error .arithmetic := by
      rw [hwalk]
      exact htrail.ringWalkFrom_eq htop hlen hnext
    obtain ⟨header, footer, walk, -, -, -, hresult⟩ := inspect_result hroom
    refine ⟨hfault, fun verbose => ?_⟩
    rw [hresult, hfault]
    rfl
  · intro hnone
    obtain ⟨w, hw, hsurvey⟩ := ringWalkFrom_spec hroom hnext fun ps htrail hlen htop =>
      hnone ⟨ps, htrail, hlen, htop⟩
    have hring : a.ringWalk = .ok w := hwalk.trans hw
    refine ⟨w, hring, hsurvey.length_le, hsurvey, fun q hq => hsurvey.inBounds_of_consults hq,
      fun b => ringWalk_congr hroom hring, ?_⟩
    intro stats hstats
    obtain ⟨report, hreport, hlen, hsub⟩ := inspect_of_walks hroom hring hstats
    refine ⟨report, hreport, hlen, hsub, ?_⟩
    rintro heap rfl hmode verbose
    exact check_lenient (hreport verbose) hmode

/-- A ring whose first node leads on to an offset that is no payload. -/
def wildLinked : Arena :=
  ofWords [0, 33, 48, 48, 33, 32, 16, 17, 32, 1] (by decide)

/-- The link is reported where it is held, twice. -/
theorem ringWalk_robust_wildLinked : 48 ≤ wildLinked.brk ∧ ¬ wildLinked.MeetsTopLink ∧
    ∃ w, wildLinked.ringWalk = .ok w ∧ w.nodes = [48] ∧
      .linkOutOfBounds 48 17 ∈ w.violations ∧ .linkMismatch 48 ∈ w.violations := by
  have hroom : 48 ≤ wildLinked.brk := by decide
  have hring : wildLinked.ringWalk = .ok ⟨[48], [.linkMismatch 48, .linkOutOfBounds 48 17]⟩ := rfl
  obtain ⟨hfaults, hanswered⟩ := ringWalk_robust hroom
  have hnone : ¬ wildLinked.MeetsTopLink := fun hmeets => by
    have hfault := (hfaults hmeets).1
    rw [hring] at hfault
    cases hfault
  obtain ⟨w, hw, -, hsurvey, -⟩ := hanswered hnone
  obtain rfl := Except.ok.inj (hring.symm.trans hw)
  have hout : ¬ wildLinked.InBounds 17 := fun hin => absurd hin.aligned (by decide)
  exact ⟨hroom, hnone, _, hw, rfl,
    hsurvey.followed 48 (by decide) 17 rfl hout,
    hsurvey.inspected 48 (by decide) ⟨16, 17⟩ rfl (.inl hout)⟩

/-- Only the sentinels, and a link to the last place that a word can name. -/
def topLinked : Arena :=
  ofWords [0, 33, 16, topLink, 33, 1] (by decide)

/-- The audit of such a link faults, where it should have reported it. -/
theorem topLinked_faults : topLinked.brk = 48 ∧ topLinked.nextLink prologue = .ok topLink ∧
    topLinked.ringWalk = .error .arithmetic ∧
      ∀ verbose, (topLinked.inspect verbose).result = .error .arithmetic := by
  have hring : topLinked.ringWalk = .error .arithmetic := rfl
  refine ⟨rfl, rfl, hring, fun verbose => ?_⟩
  obtain ⟨header, footer, walk, -, -, -, hresult⟩ := inspect_result (a := topLinked) (by decide)
  rw [hresult, hring]
  rfl

end Arena
end BoundaryHeap
