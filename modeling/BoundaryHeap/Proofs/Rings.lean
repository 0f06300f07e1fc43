import BoundaryHeap.FreeRing.Linked
import BoundaryHeap.Proofs.Edits
import Mathlib.Data.List.Nodup
import Mathlib.Data.List.Perm.Subperm

/-!
# The ring as a list, edited

The three edits of the ring are one edit of the row of nodes: the nodes between two neighbours are
replaced by others (`IsRing.reroute`). Taking a node out replaces it by nothing, putting one in at
the head replaces nothing by it, and taking a position replaces one node by another.

Nodes are multiples of 16, so two different link words never share a byte, and whether an edit
reaches a link is a question of equality and not of overlap (`Edit.nextLink_eq`).
-/

set_option autoImplicit false

namespace BoundaryHeap
namespace Arena

variable {a b : Arena} {ws : List Nat} {p q r x y : Nat} {ring xs ys mid mid' : List Nat}

/-! ## Which links an edit reaches -/

theorem Edit.nextLink_eq (h : a.Edit ws b) (hws : ∀ w ∈ ws, w % 8 = 0) (hq : q % 16 = 0)
    (hne : q + 8 ∉ ws) : b.nextLink q = a.nextLink q := by
  apply h.readOffset_eq
  intro w hw
  have hal := hws w hw
  have hdiff : w ≠ q + 8 := fun e => hne (e ▸ hw)
  simp only [wordSize]
  omega

theorem Edit.prevLink_eq (h : a.Edit ws b) (hws : ∀ w ∈ ws, w % 8 = 0) (hq : q % 16 = 0)
    (hne : q ∉ ws) : b.prevLink q = a.prevLink q := by
  apply h.readOffset_eq
  intro w hw
  have hal := hws w hw
  have hdiff : w ≠ q := fun e => hne (e ▸ hw)
  omega

/-- Links can be read wherever there is room for two words, whatever they mean. -/
theorem links_ok (hfit : q + 16 ≤ a.brk) :
    ∃ links, a.links q = .ok links ∧ a.prevLink q = .ok links.prev ∧
      a.nextLink q = .ok links.next := by
  obtain ⟨v, hv⟩ := readWord_ok (a := a) (o := q) (by omega)
  obtain ⟨w, hw⟩ := readWord_ok (a := a) (o := q + wordSize) (by simp only [wordSize]; omega)
  have hprev : a.prevLink q = .ok v.toNat := by
    rw [prevLink, readOffset, hv]
    rfl
  have hnext : a.nextLink q = .ok w.toNat := by
    rw [nextLink, readOffset, hw]
    rfl
  refine ⟨⟨v.toNat, w.toNat⟩, ?_, hprev, hnext⟩
  simp only [links, hprev, hnext, ok_bind]
  rfl

/-! ## Rows -/

theorem mem_dropLast_and_tail {l : List Nat} (h : [x, y] <:+: l) : x ∈ l.dropLast ∧ y ∈ l.tail := by
  obtain ⟨front, back, rfl⟩ := h
  constructor
  · rw [List.append_assoc, List.dropLast_append_of_ne_nil (by simp)]
    exact List.mem_append_right _ (by cases back <;> simp)
  · cases front <;> simp

/-- A row is linked in any arena where its nodes' links are the same: the last node's link onward
and the first one's link back are not part of it. -/
theorem Linked.frame {row : List Nat} (h : a.Linked row)
    (hnext : ∀ q ∈ row.dropLast, b.nextLink q = a.nextLink q)
    (hprev : ∀ q ∈ row.tail, b.prevLink q = a.prevLink q) : b.Linked row :=
  h.transport fun x y hxy =>
    ⟨hnext x (mem_dropLast_and_tail hxy).1, hprev y (mem_dropLast_and_tail hxy).2⟩

theorem linked_cons_append {front back : List Nat} :
    a.Linked (x :: (front ++ y :: back)) ↔ a.Linked (x :: (front ++ [y])) ∧ a.Linked (y :: back) :=
  @linked_append a (x :: front) back y

theorem prologue_cons_eq (xs : List Nat) :
    prologue :: xs = (prologue :: xs).dropLast ++ [xs.getLastD prologue] := by
  have h := List.dropLast_append_getLast (List.cons_ne_nil prologue xs)
  rw [List.getLast_eq_getLastD] at h
  exact h.symm

theorem append_prologue_eq (ys : List Nat) :
    ys ++ [prologue] = ys.headD prologue :: (ys ++ [prologue]).tail := by
  cases ys <;> rfl

theorem ne_getLastD {xs : List Nat} (h : (prologue :: xs).Nodup)
    (hq : q ∈ (prologue :: xs).dropLast) : q ≠ xs.getLastD prologue := by
  rw [prologue_cons_eq] at h
  exact (List.nodup_append.1 h).2.2 q hq _ (List.mem_singleton.2 rfl)

theorem ne_headD {ys : List Nat} (h : (ys ++ [prologue]).Nodup) (hq : q ∈ (ys ++ [prologue]).tail) :
    q ≠ ys.headD prologue := by
  rw [append_prologue_eq] at h
  exact fun e => (List.nodup_cons.1 h).1 (e ▸ hq)

/-- The row of a ring, taken apart around some of its nodes. -/
theorem row_eq (xs mid ys : List Nat) :
    prologue :: (xs ++ mid ++ ys) ++ [prologue] =
      (prologue :: xs).dropLast ++ xs.getLastD prologue :: (mid ++
        ys.headD prologue :: (ys ++ [prologue]).tail) := by
  rw [← append_prologue_eq, ← List.cons_append, ← List.cons_append, prologue_cons_eq xs]
  simp

/-! ## Nodes of a ring -/

theorem IsRing.mod_eq (h : a.IsRing ring) (hq : q = prologue ∨ q ∈ ring) : q % 16 = 0 := by
  rcases hq with rfl | hq
  · rfl
  · exact (h.place q hq).aligned

theorem IsRing.nextLink_prologue (h : a.IsRing ring) :
    a.nextLink prologue = .ok (ring.headD prologue) := by
  have hrow := h.linked
  rw [List.cons_append, append_prologue_eq] at hrow
  exact (List.isChain_cons_cons.1 hrow).1.1

/-- The links of the sentinel lie below the mark, as they are read. -/
theorem IsRing.brk_ge (h : a.IsRing ring) : 32 ≤ a.brk := by
  obtain ⟨w, hw, -⟩ := map_eq_ok_iff.1 h.nextLink_prologue
  exact readWord_isOk_iff.1 ⟨w, hw⟩

theorem IsRing.node (h : a.IsRing ring) (hq : q = prologue ∨ q ∈ ring) :
    q % 16 = 0 ∧ 16 ≤ q ∧ q + 16 ≤ a.brk := by
  refine ⟨h.mod_eq hq, ?_⟩
  rcases hq with rfl | hq
  · exact ⟨Nat.le_refl _, h.brk_ge⟩
  · have hplace := h.place q hq
    exact ⟨Nat.le_trans (by decide) hplace.above, hplace.below⟩

theorem IsRing.prologue_not_mem (h : a.IsRing ring) : prologue ∉ ring := fun hmem => by
  have := (h.place _ hmem).above
  simp at this

theorem getLastD_mem (xs mid ys : List Nat) :
    xs.getLastD prologue = prologue ∨ xs.getLastD prologue ∈ xs ++ mid ++ ys := by
  rcases List.eq_nil_or_concat xs with rfl | ⟨l, z, rfl⟩ <;> simp

theorem headD_mem (xs mid ys : List Nat) :
    ys.headD prologue = prologue ∨ ys.headD prologue ∈ xs ++ mid ++ ys := by
  cases ys <;> simp

/-- `x` and `y` stand before and after `p`, with the sentinel before the first node and after the
last. -/
def Flanks (ring : List Nat) (x p y : Nat) : Prop :=
  [x, p, y] <:+: prologue :: ring ++ [prologue]

theorem flanks_middle (xs ys : List Nat) :
    Flanks (xs ++ [p] ++ ys) (xs.getLastD prologue) p (ys.headD prologue) := by
  refine ⟨(prologue :: xs).dropLast, (ys ++ [prologue]).tail, ?_⟩
  rw [row_eq]
  simp

theorem Flanks.nodes (h : Flanks ring x p y) :
    (x = prologue ∨ x ∈ ring) ∧ (y = prologue ∨ y ∈ ring) := by
  have hrow : ∀ q ∈ prologue :: ring ++ [prologue], q = prologue ∨ q ∈ ring := by
    intro q hq
    rcases List.mem_append.1 hq with hq | hq
    · exact List.mem_cons.1 hq
    · exact .inl (List.mem_singleton.1 hq)
  exact ⟨hrow x (h.subset (by simp)), hrow y (h.subset (by simp))⟩

/-! ## Rerouting

The words that an edit may touch are given by what they are not: no link onward of a node other
than the one before the gap, and no link back of a node other than the one after it. -/

/-- The row up to the gap keeps its links, `mid'` brings its own, and the row after the gap keeps its
links again. Only the two nodes at the gap are in two of the three rows. -/
theorem linked_reroute (h : a.Linked (prologue :: (xs ++ mid ++ ys) ++ [prologue]))
    (hnodup : (prologue :: (xs ++ ys)).Nodup)
    (hnext : ∀ q, q = prologue ∨ q ∈ xs ++ ys → q ≠ xs.getLastD prologue →
      b.nextLink q = a.nextLink q)
    (hprev : ∀ q, q = prologue ∨ q ∈ xs ++ ys → q ≠ ys.headD prologue →
      b.prevLink q = a.prevLink q)
    (hmid : b.Linked (xs.getLastD prologue :: (mid' ++ [ys.headD prologue]))) :
    b.Linked (prologue :: (xs ++ mid' ++ ys) ++ [prologue]) := by
  obtain ⟨hfresh, hold⟩ := List.nodup_cons.1 hnodup
  obtain ⟨hxs, hys, hapart⟩ := List.nodup_append.1 hold
  rw [row_eq, linked_append] at h ⊢
  have hback := (linked_cons_append.1 h.2).2
  refine ⟨h.1.frame ?_ ?_, linked_cons_append.2 ⟨hmid, hback.frame ?_ ?_⟩⟩
  · intro q hq
    rw [List.dropLast_concat] at hq
    have hrow : (prologue :: xs).Nodup :=
      List.nodup_cons.2 ⟨fun hp => hfresh (List.mem_append_left _ hp), hxs⟩
    have hmem := List.mem_cons.1 (List.dropLast_subset _ hq)
    exact hnext q (hmem.imp_right (List.mem_append_left _)) (ne_getLastD hrow hq)
  · intro q hq
    rw [← prologue_cons_eq, List.tail_cons] at hq
    apply hprev q (.inr (List.mem_append_left _ hq))
    intro e
    rcases headD_mem [] [] ys with hy | hy
    · exact hfresh (List.mem_append_left _ (hy ▸ e ▸ hq))
    · exact hapart q hq _ (by simpa using hy) e
  · intro q hq
    rw [← append_prologue_eq, List.dropLast_concat] at hq
    apply hnext q (.inr (List.mem_append_right _ hq))
    intro e
    rcases getLastD_mem xs [] [] with hx | hx
    · exact hfresh (List.mem_append_right _ (hx ▸ e ▸ hq))
    · exact hapart _ (by simpa using hx) q hq e.symm
  · intro q hq
    rw [List.tail_cons] at hq
    have hrow : (ys ++ [prologue]).Nodup := List.nodup_append.2 ⟨hys, by simp, fun z hz w hw e =>
      hfresh (List.mem_append_right _ (List.mem_singleton.1 hw ▸ e ▸ hz))⟩
    have hmem := (List.mem_append.1 (List.mem_of_mem_tail hq)).symm
    exact hprev q (hmem.imp List.mem_singleton.1 (List.mem_append_right _)) (ne_headD hrow hq)

/-- **The edit of a ring.** The nodes `mid` between two neighbours give way to `mid'`. -/
theorem IsRing.reroute (h : a.IsRing (xs ++ mid ++ ys)) (hedit : a.Edit ws b)
    (hws : ∀ w ∈ ws, w % 8 = 0)
    (hnext : ∀ q, q = prologue ∨ q ∈ xs ++ mid ++ ys → q ≠ xs.getLastD prologue → q + 8 ∉ ws)
    (hprev : ∀ q, q = prologue ∨ q ∈ xs ++ mid ++ ys → q ≠ ys.headD prologue → q ∉ ws)
    (hmid : b.Linked (xs.getLastD prologue :: (mid' ++ [ys.headD prologue])))
    (hnodup : (xs ++ mid' ++ ys).Nodup) (hplace : ∀ r ∈ mid', a.IsPlace r) :
    b.IsRing (xs ++ mid' ++ ys) := by
  have hsub : (xs ++ ys).Sublist (xs ++ mid ++ ys) :=
    (List.sublist_append_left xs mid).append_right ys
  have hrow : (prologue :: (xs ++ ys)).Nodup :=
    List.nodup_cons.2 ⟨fun hq => h.prologue_not_mem (hsub.subset hq), h.nodup.sublist hsub⟩
  refine ⟨linked_reroute h.linked hrow ?_ ?_ hmid, hnodup, ?_⟩
  · intro q hq hne
    have hold := hq.imp_right fun hm => hsub.subset hm
    exact hedit.nextLink_eq hws (h.mod_eq hold) (hnext q hold hne)
  · intro q hq hne
    have hold := hq.imp_right fun hm => hsub.subset hm
    exact hedit.prevLink_eq hws (h.mod_eq hold) (hprev q hold hne)
  · intro q hq
    have hold : a.IsPlace q := by
      simp only [List.mem_append] at hq
      rcases hq with (hq | hq) | hq
      · exact h.place q (by simp [hq])
      · exact hplace q hq
      · exact h.place q (by simp [hq])
    exact ⟨hold.aligned, hold.above, by rw [hedit.brk_eq]; exact hold.below⟩

/-! ## The three edits -/

theorem setPrevLink_spec {v : Nat} (hfit : p + 16 ≤ a.brk) (hv : v ≤ a.brk) :
    ∃ b, a.setPrevLink p v = .ok b ∧ a.Edit [p] b ∧ b.prevLink p = .ok v :=
  writeOffset_spec (by omega) (by have := a.brk_lt; omega)

theorem setNextLink_spec {v : Nat} (hfit : p + 16 ≤ a.brk) (hv : v ≤ a.brk) :
    ∃ b, a.setNextLink p v = .ok b ∧ a.Edit [p + 8] b ∧ b.nextLink p = .ok v :=
  writeOffset_spec (by simp only [wordSize]; omega) (by have := a.brk_lt; omega)

/-- Both neighbours of a node lead back to it. -/
theorem IsRing.adjacent (h : a.IsRing (xs ++ [p] ++ ys)) :
    a.Adjacent (xs.getLastD prologue) p ∧ a.Adjacent p (ys.headD prologue) := by
  have hrow := h.linked
  rw [row_eq, linked_append] at hrow
  obtain ⟨hin, hrest⟩ := List.isChain_cons_cons.1 hrow.2
  exact ⟨hin, (List.isChain_cons_cons.1 hrest).1⟩

theorem IsRing.links_eq (h : a.IsRing (xs ++ [p] ++ ys)) :
    a.links p = .ok ⟨xs.getLastD prologue, ys.headD prologue⟩ := by
  obtain ⟨hin, hout⟩ := h.adjacent
  simp only [links, hin.2, hout.1, bind, Except.bind]
  rfl

theorem IsRing.remove (h : a.IsRing (xs ++ [p] ++ ys)) (hx : xs.getLastD prologue = x)
    (hy : ys.headD prologue = y) :
    ∃ b, a.removeNode p = .ok b ∧ a.Edit [x + 8, y] b ∧ b.IsRing (xs ++ ys) := by
  have hlinks := h.links_eq
  obtain ⟨hxmod, hxlow, hxfit⟩ := h.node (getLastD_mem xs [p] ys)
  obtain ⟨hymod, hylow, hyfit⟩ := h.node (headD_mem xs [p] ys)
  rw [hx] at hlinks hxmod hxlow hxfit
  rw [hy] at hlinks hymod hylow hyfit
  obtain ⟨b, hb, hedit, hnext⟩ := setNextLink_spec (v := y) hxfit (by omega)
  have hbrk' := hedit.brk_eq
  obtain ⟨c, hc, hedit', hprev⟩ :=
    setPrevLink_spec (a := b) (p := y) (v := x) (by omega) (by omega)
  have hboth := hedit.trans hedit'
  have hnext' : c.nextLink x = .ok y := by
    rw [hedit'.nextLink_eq (by simp; omega) hxmod (by simp; omega), hnext]
  refine ⟨c, ?_, hboth, ?_⟩
  · simp only [removeNode, stitch, hlinks, bind, Except.bind]
    rw [if_pos (by omega), hb]
    simp only
    rw [if_pos (by omega), hc]
  · have hring : c.IsRing (xs ++ [] ++ ys) := by
      refine h.reroute hboth (by simp; omega) ?_ ?_ ?_ ?_ (by simp)
      · intro q hq hne
        have := h.mod_eq hq
        simp
        omega
      · intro q hq hne
        have := h.mod_eq hq
        simp
        omega
      · rw [hx, hy]
        exact List.isChain_pair.2 ⟨hnext', hprev⟩
      · rw [List.append_nil]
        exact h.nodup.sublist ((List.sublist_append_left xs [p]).append_right ys)
    rwa [List.append_nil] at hring

theorem IsPlace.ne_node (hr : a.IsPlace r) (hnew : r ∉ ring) (hq : q = prologue ∨ q ∈ ring) :
    q ≠ r := by
  rintro rfl
  rcases hq with rfl | hmem
  · exact absurd hr.above (by decide)
  · exact hnew hmem

/-- Four links thread a new node in between two others: its own two, and theirs to it. -/
theorem IsRing.thread (h : a.IsRing (xs ++ mid ++ ys)) (hedit : a.Edit ws b) (hr : a.IsPlace r)
    (hnew : r ∉ xs ++ mid ++ ys) (hx : xs.getLastD prologue = x) (hy : ys.headD prologue = y)
    (hws : ∀ w ∈ ws, w = r ∨ w = r + 8 ∨ w = x + 8 ∨ w = y) (hprev : b.prevLink r = .ok x)
    (hnext : b.nextLink r = .ok y) (hto : b.nextLink x = .ok r) (hback : b.prevLink y = .ok r) :
    b.IsRing (xs ++ [r] ++ ys) := by
  have hrmod := hr.aligned
  have hxmod : x % 16 = 0 := hx ▸ h.mod_eq (getLastD_mem xs mid ys)
  have hymod : y % 16 = 0 := hy ▸ h.mod_eq (headD_mem xs mid ys)
  refine h.reroute hedit ?_ ?_ ?_ ?_ ?_ ?_
  · intro w hw
    have := hws w hw
    omega
  · intro q hq hqx hw
    have hmod := h.mod_eq hq
    have hqr := hr.ne_node hnew hq
    have := hws _ hw
    rw [hx] at hqx
    omega
  · intro q hq hqy hw
    have hmod := h.mod_eq hq
    have hqr := hr.ne_node hnew hq
    have := hws _ hw
    rw [hy] at hqy
    omega
  · rw [hx, hy]
    exact List.isChain_cons_cons.2 ⟨⟨hto, hprev⟩, List.isChain_pair.2 ⟨hnext, hback⟩⟩
  · have hkept := h.nodup.sublist ((List.sublist_append_left xs mid).append_right ys)
    have hmem : r ∉ xs ++ ys := by
      intro hm
      exact hnew (((List.sublist_append_left xs mid).append_right ys).subset hm)
    rw [List.append_assoc, List.singleton_append]
    exact List.perm_middle.nodup_iff.2 (List.nodup_cons.2 ⟨hmem, hkept⟩)
  · intro q hq
    exact List.mem_singleton.1 hq ▸ hr

theorem IsRing.insert (h : a.IsRing ring) (hp : a.IsPlace p) (hnew : p ∉ ring)
    (hy : ring.headD prologue = y) :
    ∃ b, a.insertAtHead p = .ok b ∧ a.Edit [p, p + 8, y, prologue + 8] b ∧
      b.IsRing (p :: ring) := by
  obtain ⟨hpmod, hplow, hpfit⟩ := id hp
  have hbrk := h.brk_ge
  have hhead := h.nextLink_prologue
  rw [hy] at hhead
  obtain ⟨hymod, hylow, hyfit⟩ := h.node (headD_mem [] [] ring)
  have hyp := hp.ne_node hnew (headD_mem [] [] ring)
  rw [hy] at hymod hylow hyfit hyp
  obtain ⟨b₁, hb₁, he₁, hprev⟩ := setPrevLink_spec (v := prologue) hpfit (by simp; omega)
  have hbrk₁ := he₁.brk_eq
  obtain ⟨b₂, hb₂, he₂, hnext⟩ := setNextLink_spec (a := b₁) (p := p) (v := y) (by omega) (by omega)
  have hbrk₂ := he₂.brk_eq
  obtain ⟨b₃, hb₃, he₃, hback⟩ := setPrevLink_spec (a := b₂) (p := y) (v := p) (by omega) (by omega)
  have hbrk₃ := he₃.brk_eq
  obtain ⟨b₄, hb₄, he₄, hfirst⟩ :=
    setNextLink_spec (a := b₃) (p := prologue) (v := p) (by simp; omega) (by omega)
  have hedit := ((he₁.trans he₂).trans he₃).trans he₄
  refine ⟨b₄, ?_, hedit, ?_⟩
  · simp only [insertAtHead, hhead, hb₁, hb₂, hb₃, hb₄, bind, Except.bind]
  have hprev' : b₄.prevLink p = .ok prologue := by
    rw [((he₂.trans he₃).trans he₄).prevLink_eq (by simp; omega) hpmod (by simp; omega), hprev]
  have hnext' : b₄.nextLink p = .ok y := by
    rw [(he₃.trans he₄).nextLink_eq (by simp; omega) hpmod (by simp; omega), hnext]
  have hback' : b₄.prevLink y = .ok p := by
    rw [he₄.prevLink_eq (by simp) hymod (by simp; omega), hback]
  -- The gap in front of the first node has the sentinel on its other side.
  have hempty : a.IsRing ([] ++ [] ++ ring) := h
  refine hempty.thread hedit hp hnew rfl hy ?_ hprev' hnext' hfirst hback'
  intro w hw
  simp at hw ⊢
  omega

theorem IsRing.replace (h : a.IsRing (xs ++ [p] ++ ys)) (hr : a.IsPlace r)
    (hnew : r ∉ xs ++ [p] ++ ys) (hx : xs.getLastD prologue = x) (hy : ys.headD prologue = y) :
    ∃ b, a.takePosition ⟨x, y⟩ r = .ok b ∧ a.Edit [r, r + 8, x + 8, y] b ∧
      b.IsRing (xs ++ [r] ++ ys) := by
  obtain ⟨hrmod, hrlow, hrfit⟩ := id hr
  obtain ⟨hxmod, hxlow, hxfit⟩ := h.node (getLastD_mem xs [p] ys)
  obtain ⟨hymod, hylow, hyfit⟩ := h.node (headD_mem xs [p] ys)
  have hxr := hr.ne_node hnew (getLastD_mem xs [p] ys)
  have hyr := hr.ne_node hnew (headD_mem xs [p] ys)
  rw [hx] at hxmod hxlow hxfit hxr
  rw [hy] at hymod hylow hyfit hyr
  obtain ⟨b₁, hb₁, he₁, hprev⟩ := setPrevLink_spec (v := x) hrfit (by omega)
  have hbrk₁ := he₁.brk_eq
  obtain ⟨b₂, hb₂, he₂, hnext⟩ := setNextLink_spec (a := b₁) (p := r) (v := y) (by omega) (by omega)
  have hbrk₂ := he₂.brk_eq
  obtain ⟨b₃, hb₃, he₃, hto⟩ := setNextLink_spec (a := b₂) (p := x) (v := r) (by omega) (by omega)
  have hbrk₃ := he₃.brk_eq
  obtain ⟨b₄, hb₄, he₄, hback⟩ := setPrevLink_spec (a := b₃) (p := y) (v := r) (by omega) (by omega)
  have hedit := ((he₁.trans he₂).trans he₃).trans he₄
  refine ⟨b₄, ?_, hedit, ?_⟩
  · simp only [takePosition, hb₁, hb₂, hb₃, hb₄, bind, Except.bind]
  have hprev' : b₄.prevLink r = .ok x := by
    rw [((he₂.trans he₃).trans he₄).prevLink_eq (by simp; omega) hrmod (by simp; omega), hprev]
  have hnext' : b₄.nextLink r = .ok y := by
    rw [(he₃.trans he₄).nextLink_eq (by simp; omega) hrmod (by simp; omega), hnext]
  have hto' : b₄.nextLink x = .ok r := by
    rw [he₄.nextLink_eq (by simp; omega) hxmod (by simp; omega), hto]
  refine h.thread hedit hr hnew hx hy ?_ hprev' hnext' hto' hback
  intro w hw
  simpa using hw

/-! ## The edits by node

The same three, for a node given by itself and not by what stands before and after it. -/

theorem filter_ne_middle (h : (xs ++ [p] ++ ys).Nodup) :
    (xs ++ [p] ++ ys).filter (· ≠ p) = xs ++ ys := by
  obtain ⟨hl, -, hr⟩ := List.nodup_append.1 h
  have hxs : xs.filter (· ≠ p) = xs := List.filter_eq_self.2 fun q hq => by
    simpa using (List.nodup_append.1 hl).2.2 q hq p (List.mem_singleton.2 rfl)
  have hys : ys.filter (· ≠ p) = ys := List.filter_eq_self.2 fun q hq => by
    simpa using (hr p (by simp) q hq).symm
  rw [List.filter_append, List.filter_append, hxs, hys]
  simp

theorem map_ite_middle (h : (xs ++ [p] ++ ys).Nodup) :
    (xs ++ [p] ++ ys).map (fun q => if q = p then r else q) = xs ++ [r] ++ ys := by
  obtain ⟨hl, -, hr⟩ := List.nodup_append.1 h
  have hxs : xs.map (fun q => if q = p then r else q) = xs :=
    (List.map_congr_left fun q hq => if_neg
      ((List.nodup_append.1 hl).2.2 q hq p (List.mem_singleton.2 rfl))).trans (List.map_id' xs)
  have hys : ys.map (fun q => if q = p then r else q) = ys :=
    (List.map_congr_left fun q hq => if_neg (hr p (by simp) q hq).symm).trans (List.map_id' ys)
  rw [List.map_append, List.map_append, hxs, hys]
  simp

theorem IsRing.removeNode_spec (h : a.IsRing ring) (hp : p ∈ ring) :
    ∃ b x y, a.removeNode p = .ok b ∧ Flanks ring x p y ∧ a.Edit [x + 8, y] b ∧
      b.IsRing (ring.filter (· ≠ p)) := by
  obtain ⟨xs, ys, rfl⟩ := List.append_of_mem hp
  rw [← List.singleton_append, ← List.append_assoc] at h ⊢
  obtain ⟨b, hb, hedit, hring⟩ := h.remove rfl rfl
  refine ⟨b, _, _, hb, flanks_middle xs ys, hedit, ?_⟩
  rw [filter_ne_middle h.nodup]
  exact hring

theorem IsRing.insertAtHead_spec (h : a.IsRing ring) (hp : a.IsPlace p) (hnew : p ∉ ring) :
    ∃ b y, a.insertAtHead p = .ok b ∧ (y = prologue ∨ y ∈ ring) ∧
      a.Edit [p, p + 8, y, prologue + 8] b ∧ b.IsRing (p :: ring) := by
  obtain ⟨b, hb, hedit, hring⟩ := h.insert hp hnew rfl
  exact ⟨b, _, hb, by simpa using headD_mem [] [] ring, hedit, hring⟩

theorem IsRing.takePosition_spec {links : Links} (h : a.IsRing ring) (hp : p ∈ ring)
    (hlinks : a.links p = .ok links) (hr : a.IsPlace r) (hnew : r ∉ ring) :
    ∃ b x y, a.takePosition links r = .ok b ∧ Flanks ring x p y ∧
      a.Edit [r, r + 8, x + 8, y] b ∧ b.IsRing (ring.map fun q => if q = p then r else q) := by
  obtain ⟨xs, ys, rfl⟩ := List.append_of_mem hp
  rw [← List.singleton_append, ← List.append_assoc] at h hnew ⊢
  obtain ⟨b, hb, hedit, hring⟩ := h.replace hr hnew rfl rfl
  obtain rfl := Except.ok.inj (h.links_eq.symm.trans hlinks)
  refine ⟨b, _, _, hb, flanks_middle xs ys, hedit, ?_⟩
  rw [map_ite_middle h.nodup]
  exact hring

/-! ## Walks -/

/-- Places are multiples of 16 and there are not many below the mark. -/
theorem IsRing.length_le (h : a.IsRing ring) : ring.length ≤ a.brk / 16 := by
  have hnodup : (ring.map (· / 16)).Nodup := by
    refine List.Nodup.map_on ?_ h.nodup
    intro p hp q hq e
    have := (h.place p hp).aligned
    have := (h.place q hq).aligned
    omega
  have hsub : ring.map (· / 16) ⊆ List.range (a.brk / 16) := by
    intro n hn
    obtain ⟨p, hp, rfl⟩ := List.mem_map.1 hn
    have := (h.place p hp).below
    exact List.mem_range.2 (by omega)
  have hle := (hnodup.subperm hsub).length_le
  simpa using hle

theorem IsRing.tail_linked (h : a.IsRing ring) : a.Linked (ring ++ [prologue]) := by
  have hrow := h.linked
  rw [List.cons_append, Linked] at hrow
  exact hrow.tail

/-- A walk that may go on for as long as there are nodes comes back to the sentinel. -/
theorem IsRing.nodesFrom_eq {budget : Nat} (h : a.IsRing ring) (hbudget : ring.length ≤ budget) :
    a.nodesFrom (ring.headD prologue) budget = .ok ring := by
  cases ring with
  | nil => cases budget <;> simp [nodesFrom]
  | cons p rest =>
    apply nodesFrom_of_linked h.tail_linked
    · intro q hq heq
      exact h.prologue_not_mem (heq ▸ hq)
    · exact hbudget

theorem IsRing.nodes_eq (h : a.IsRing ring) : a.nodes = .ok ring := by
  have hlen := h.length_le
  simp only [nodes, h.nextLink_prologue, ok_bind]
  exact h.nodesFrom_eq (by omega)

theorem takeNodesFrom_of_linked {row : List Nat} {count : Nat} (h : a.Linked (row ++ [prologue]))
    (hinner : prologue ∉ row) :
    a.takeNodesFrom (row.headD prologue) count = .ok (row.take count) := by
  induction row generalizing count with
  | nil => cases count <;> simp [takeNodesFrom]
  | cons q rest ih =>
    cases count with
    | zero => rfl
    | succ count =>
      rw [List.cons_append, append_prologue_eq] at h
      obtain ⟨⟨hnext, -⟩, htail⟩ := List.isChain_cons_cons.1 h
      rw [← append_prologue_eq] at htail
      have hq : q ≠ prologue := fun e => hinner (e ▸ List.mem_cons_self)
      have hrest : a.takeNodesFrom (rest.headD prologue) count = .ok (rest.take count) :=
        ih htail fun hp => hinner (List.mem_cons_of_mem _ hp)
      rw [List.headD_cons, takeNodesFrom, if_neg hq, hnext]
      simp only [hrest, Except.map, List.take_succ_cons]

theorem IsRing.takeNodes_eq (h : a.IsRing ring) (count : Nat) :
    a.takeNodes count = .ok (ring.take count) := by
  simp only [takeNodes, h.nextLink_prologue, bind, Except.bind]
  exact takeNodesFrom_of_linked h.tail_linked h.prologue_not_mem

/-- **A search along the ring is a search in the list,** whatever function tells the sizes. -/
theorem firstFitFrom_of_linked {size : Nat} {sizeOf : Nat → Nat} {row : List Nat} {budget : Nat}
    (h : a.Linked (row ++ [prologue])) (hinner : prologue ∉ row)
    (hsize : ∀ q ∈ row, ∃ t, a.header q = .ok t ∧ t.size = sizeOf q)
    (hbudget : row.length ≤ budget) :
    a.firstFitFrom size (row.headD prologue) budget = .ok (row.find? fun q => size ≤ sizeOf q) := by
  induction row generalizing budget with
  | nil => cases budget <;> simp [firstFitFrom]
  | cons q rest ih =>
    obtain ⟨n, rfl⟩ : ∃ n, budget = n + 1 := ⟨budget - 1, by simp at hbudget; omega⟩
    rw [List.cons_append, append_prologue_eq] at h
    obtain ⟨⟨hnext, -⟩, htail⟩ := List.isChain_cons_cons.1 h
    rw [← append_prologue_eq] at htail
    obtain ⟨t, ht, hts⟩ := hsize q List.mem_cons_self
    have hq : q ≠ prologue := fun e => hinner (e ▸ List.mem_cons_self)
    have hrest := ih htail (fun hp => hinner (List.mem_cons_of_mem _ hp))
      (fun r hr => hsize r (List.mem_cons_of_mem _ hr)) (by simpa using hbudget)
    rw [List.headD_cons, firstFitFrom, if_neg hq, hnext, ht, List.find?_cons, ← hts]
    simp only
    by_cases hle : size ≤ t.size
    · simp [hle]
    · rw [if_neg hle, hrest]
      simp [hle]

section

variable {sizeOf : Nat → Nat} {size budget : Nat}

theorem IsRing.firstFitFrom_eq (h : a.IsRing ring)
    (hsize : ∀ q ∈ ring, ∃ t, a.header q = .ok t ∧ t.size = sizeOf q)
    (hbudget : ring.length ≤ budget) : a.firstFitFrom size (ring.headD prologue) budget =
      .ok (ring.find? fun q => size ≤ sizeOf q) :=
  firstFitFrom_of_linked h.tail_linked h.prologue_not_mem hsize hbudget

theorem IsRing.firstFit_eq (h : a.IsRing ring)
    (hsize : ∀ q ∈ ring, ∃ t, a.header q = .ok t ∧ t.size = sizeOf q) (size : Nat) :
    a.firstFit size = .ok (ring.find? fun q => size ≤ sizeOf q) := by
  have hlen := h.length_le
  simp only [firstFit, h.nextLink_prologue, ok_bind]
  exact h.firstFitFrom_eq hsize (by omega)

end

end Arena
end BoundaryHeap
