import BoundaryHeap.Ledger
import BoundaryHeap.Proofs.BlockWalks
import BoundaryHeap.Proofs.Edits
import Mathlib.Data.List.Chain

/-!
# The overlap check

The ledger sorts its spans and then compares neighbours only. No span ends before it starts, so what
lies apart from its neighbour in the row lies apart from everything behind it: **the check passes if
and only if every two spans lie apart** (`Ledger.requireDisjoint_eq_ok_iff`).

That takes nothing of the heap but that the headers can be read. The sizes they tell may be anything,
so a block may also reach over several others: then the check fails at two of them that follow each
other, and names them (`Ledger.requireDisjoint_exact`).
-/

set_option autoImplicit false

namespace BoundaryHeap
namespace Ledger

variable {row : List (Nat × Nat)} {x y z : Nat × Nat} {ledger : Ledger} {heap : Heap}
  {p size : Nat}

/-- The spans share no byte. -/
def Apart (x y : Nat × Nat) : Prop :=
  x.2 ≤ y.1 ∨ y.2 ≤ x.1

theorem Apart.symm (h : Apart x y) : Apart y x := Or.symm h

instance : Std.Symm Apart := ⟨fun _ _ => Apart.symm⟩

/-! ## Neighbours -/

theorem firstOverlap?_eq_none_iff :
    firstOverlap? row = none ↔ row.IsChain fun x y => x.2 ≤ y.1 := by
  induction row with
  | nil => simp [firstOverlap?]
  | cons x rest ih =>
    cases rest with
    | nil => simp [firstOverlap?]
    | cons y rest =>
      rw [firstOverlap?, List.isChain_cons_cons]
      split
      · next hle => rw [ih, and_iff_right hle]
      · next hle => simp [hle]

/-- What is found are two neighbours, of which the first reaches into the second. -/
theorem firstOverlap?_eq_some (h : firstOverlap? row = some (x, y)) :
    ∃ front back, row = front ++ x :: y :: back ∧ y.1 < x.2 := by
  induction row with
  | nil => cases h
  | cons u rest ih =>
    cases rest with
    | nil => cases h
    | cons v rest =>
      rw [firstOverlap?] at h
      split at h
      · obtain ⟨front, back, hrow, hlt⟩ := ih h
        exact ⟨u :: front, back, by rw [hrow, List.cons_append], hlt⟩
      · next hle =>
        cases h
        exact ⟨[], rest, rfl, Nat.lt_of_not_le hle⟩

/-- Neighbours are enough where no span ends before it starts. -/
theorem isChain_iff_pairwise (hle : ∀ x ∈ row, x.1 ≤ x.2) :
    (row.IsChain fun x y => x.2 ≤ y.1) ↔ row.Pairwise fun x y => x.2 ≤ y.1 := by
  refine ⟨fun hchain => ?_, List.Pairwise.isChain⟩
  induction row with
  | nil => exact List.Pairwise.nil
  | cons x rest ih =>
    cases rest with
    | nil => exact List.pairwise_singleton _ _
    | cons y rest =>
      obtain ⟨hxy, hchain⟩ := List.isChain_cons_cons.1 hchain
      have hrest := ih (fun z hz => hle z (List.mem_cons_of_mem _ hz)) hchain
      have hy : y.1 ≤ y.2 := hle y (by simp)
      refine List.pairwise_cons.2 ⟨fun z hz => ?_, hrest⟩
      rcases List.mem_cons.1 hz with rfl | hz
      · exact hxy
      · exact Nat.le_trans (Nat.le_trans hxy hy) ((List.pairwise_cons.1 hrest).1 z hz)

/-! ## Sorting -/

theorem spanLe_iff : spanLe x y = true ↔ x.1 < y.1 ∨ x.1 = y.1 ∧ x.2 ≤ y.2 := by
  simp [spanLe]

theorem pairwise_sorted (row : List (Nat × Nat)) :
    (row.mergeSort spanLe).Pairwise fun x y => x.1 ≤ y.1 := by
  refine (List.pairwise_mergeSort ?_ ?_ row).imp fun h => ?_
  · intro x y z hxy hyz
    rw [spanLe_iff] at hxy hyz ⊢
    omega
  · intro x y
    rw [Bool.or_eq_true, spanLe_iff, spanLe_iff]
    omega
  · rw [spanLe_iff] at h
    omega

theorem pairwise_sorted_lt (hnodup : (row.map Prod.fst).Nodup) :
    (row.mergeSort spanLe).Pairwise fun x y => x.1 < y.1 := by
  have hne : (row.mergeSort spanLe).Pairwise fun x y => x.1 ≠ y.1 :=
    ((List.mergeSort_perm row spanLe).pairwise_iff Ne.symm).2 (List.pairwise_map.1 hnodup)
  exact ((pairwise_sorted row).and hne).imp fun h => Nat.lt_of_le_of_ne h.1 h.2

/-- Sorting decides which of two spans that lie apart comes first. -/
theorem pairwise_sorted_iff (hle : ∀ x ∈ row, x.1 ≤ x.2) (hnodup : (row.map Prod.fst).Nodup) :
    ((row.mergeSort spanLe).Pairwise fun x y => x.2 ≤ y.1) ↔ row.Pairwise Apart := by
  have hperm := List.mergeSort_perm row spanLe
  rw [← hperm.pairwise_iff Apart.symm]
  constructor
  · exact List.Pairwise.imp .inl
  · intro hapart
    refine ((pairwise_sorted_lt hnodup).and hapart).imp_of_mem ?_
    rintro x y hx hy ⟨hlt, hleft | hright⟩
    · exact hleft
    · -- The later span cannot end before the earlier one starts, as it starts behind that.
      have hlong := hle y (hperm.mem_iff.1 hy)
      exact absurd (Nat.le_trans hlong hright) (Nat.not_le_of_lt hlt)

/-- **The check is exact** for spans that start at different places. -/
theorem requireDisjoint_eq_ok_iff (hspans : ledger.spans heap = .ok row)
    (hle : ∀ x ∈ row, x.1 ≤ x.2) (hnodup : (row.map Prod.fst).Nodup) :
    ledger.requireDisjoint heap = .ok () ↔ row.Pairwise Apart := by
  have hperm := List.mergeSort_perm row spanLe
  have hsorted : ∀ x ∈ row.mergeSort spanLe, x.1 ≤ x.2 := fun x hx => hle x (hperm.mem_iff.1 hx)
  rw [← pairwise_sorted_iff hle hnodup, ← isChain_iff_pairwise hsorted, ← firstOverlap?_eq_none_iff]
  simp only [requireDisjoint, hspans, ok_bind]
  cases hfirst : firstOverlap? (row.mergeSort spanLe) with
  | none => simp [pure, Except.pure]
  | some pair => simp [throw, throwThe, MonadExceptOf.throw]

/-- In a sorted row nothing lies between two neighbours. -/
theorem neighbours_of_sorted {front back : List (Nat × Nat)}
    (h : (front ++ x :: y :: back).Pairwise fun x y => x.1 < y.1) :
    x.1 < y.1 ∧ ∀ z ∈ front ++ x :: y :: back, z.1 ≤ x.1 ∨ y.1 ≤ z.1 := by
  obtain ⟨-, hbehind, hbefore⟩ := List.pairwise_append.1 h
  obtain ⟨hx, hy⟩ := List.pairwise_cons.1 hbehind
  refine ⟨hx y List.mem_cons_self, ?_⟩
  intro z hz
  rcases List.mem_append.1 hz with hz | hz
  · exact .inl (Nat.le_of_lt (hbefore z hz x List.mem_cons_self))
  rcases List.mem_cons.1 hz with rfl | hz
  · exact .inl (Nat.le_refl _)
  rcases List.mem_cons.1 hz with rfl | hz
  · exact .inr (Nat.le_refl _)
  · exact .inr (Nat.le_of_lt ((List.pairwise_cons.1 hy).1 z hz))

/-- A check that does not pass names two spans of the row between which no other starts. -/
theorem requireDisjoint_cases (hspans : ledger.spans heap = .ok row)
    (hnodup : (row.map Prod.fst).Nodup) :
    ledger.requireDisjoint heap = .ok () ∨ ∃ x ∈ row, ∃ y ∈ row, x.1 < y.1 ∧ y.1 < x.2 ∧
      (∀ z ∈ row, z.1 ≤ x.1 ∨ y.1 ≤ z.1) ∧
      ledger.requireDisjoint heap = .error (.overlap x.1 x.2 y.1 y.2) := by
  have hmem : ∀ z, z ∈ row.mergeSort spanLe ↔ z ∈ row := fun z => List.mem_mergeSort
  simp only [requireDisjoint, hspans, ok_bind]
  cases hfirst : firstOverlap? (row.mergeSort spanLe) with
  | none => exact .inl rfl
  | some pair =>
    obtain ⟨x, y⟩ := pair
    obtain ⟨front, back, hrow, hlt⟩ := firstOverlap?_eq_some hfirst
    have hsorted := pairwise_sorted_lt hnodup
    rw [hrow] at hmem hsorted
    obtain ⟨hxy, hbeside⟩ := neighbours_of_sorted hsorted
    refine .inr ⟨x, (hmem x).1 (by simp), y, (hmem y).1 (by simp), hxy, hlt, ?_, rfl⟩
    intro z hz
    exact hbeside z ((hmem z).2 hz)

/-! ## Recorded blocks -/

/-- All recorded headers can be read, and no block ends outside of the range of a word. What sizes
the headers tell is left open. -/
def Readable (ledger : Ledger) (heap : Heap) : Prop :=
  ∀ e ∈ ledger.entries,
    ∃ size, heap.usableSize e.payload = .ok size ∧ e.payload + size < wordLimit

theorem spans_eq_map {span : Entry → Nat × Nat} (h : ∀ e ∈ ledger.entries,
    ∃ size, heap.usableSize e.payload = .ok size ∧ e.payload + size < wordLimit ∧
      span e = (e.payload, e.payload + size)) :
    ledger.spans heap = .ok (ledger.entries.map span) := by
  unfold spans
  generalize ledger.entries = entries at h
  induction entries with
  | nil => rfl
  | cons e rest ih =>
    obtain ⟨⟨size, hsize, hlt, hspan⟩, hrest⟩ := List.forall_mem_cons.1 h
    rw [List.mapM_cons, ih hrest]
    simp only [hsize, addOffset_of_lt hlt, ok_bind, List.map_cons, hspan]
    rfl

/-- The usable bytes of the block at an offset, if its header can be read. -/
def spanOf (heap : Heap) (p : Nat) : Nat × Nat :=
  (p, p + (heap.usableSize p).toOption.getD 0)

theorem spanOf_eq (h : heap.usableSize p = .ok size) :
    spanOf heap p = (p, p + size) := by
  rw [spanOf, h]
  rfl

theorem Readable.spans_eq (h : ledger.Readable heap) :
    ledger.spans heap = .ok ((ledger.entries.map Entry.payload).map (spanOf heap)) := by
  rw [List.map_map]
  apply spans_eq_map
  intro e he
  obtain ⟨size, hsize, hlt⟩ := h e he
  exact ⟨size, hsize, hlt, spanOf_eq hsize⟩

/-- Spans that start at different places lie apart if and only if each ends before the later ones
start. -/
theorem pairwise_apart_iff (hle : ∀ x ∈ row, x.1 ≤ x.2) (hnodup : (row.map Prod.fst).Nodup) :
    row.Pairwise Apart ↔ ∀ x ∈ row, ∀ y ∈ row, x.1 < y.1 → x.2 ≤ y.1 := by
  constructor
  · intro hapart x hx y hy hlt
    have hne : x ≠ y := fun heq => Nat.lt_irrefl _ (heq ▸ hlt)
    rcases hapart.forall hx hy hne with hbefore | hbehind
    · exact hbefore
    · exact absurd (Nat.le_trans (hle y hy) hbehind) (Nat.not_le_of_lt hlt)
  · intro hordered
    refine (List.pairwise_map.1 hnodup).imp_of_mem ?_
    intro x y hx hy hne
    rcases Nat.lt_or_gt_of_ne hne with hlt | hlt
    · exact .inl (hordered x hx y hy hlt)
    · exact .inr (hordered y hy x hx hlt)

/-- **The check of a ledger is exact, whatever sizes the headers tell.** It passes if and only if every
recorded block ends before each that starts behind it, not only before the next. Otherwise it fails
with the words that are made for it, at two recorded blocks of which the first reaches into the second
and between which no other starts. -/
theorem requireDisjoint_exact (hdistinct : (ledger.entries.map Entry.payload).Nodup)
    (hreadable : ledger.Readable heap) :
    (ledger.requireDisjoint heap = .ok () ↔
      ∀ p ∈ ledger.entries.map Entry.payload, ∀ q ∈ ledger.entries.map Entry.payload, p < q →
        ∀ size, heap.usableSize p = .ok size → p + size ≤ q) ∧
    (ledger.requireDisjoint heap = .ok () ∨
      ∃ p ∈ ledger.entries.map Entry.payload, ∃ q ∈ ledger.entries.map Entry.payload,
        ∃ size size', heap.usableSize p = .ok size ∧ heap.usableSize q = .ok size' ∧
          p < q ∧ q < p + size ∧
          (∀ r ∈ ledger.entries.map Entry.payload, r ≤ p ∨ q ≤ r) ∧
          ledger.requireDisjoint heap = .error (.overlap p (p + size) q (q + size')) ∧
          (Fault.overlap p (p + size) q (q + size')).message? =
            some ("live blocks overlap: " ++ Text.hex p ++ ".." ++ Text.hex (p + size) ++ " and " ++
              Text.hex q ++ ".." ++ Text.hex (q + size'))) := by
  have hspans := hreadable.spans_eq
  have hsizes : ∀ p ∈ ledger.entries.map Entry.payload, ∃ size, heap.usableSize p = .ok size ∧
      spanOf heap p = (p, p + size) := by
    refine List.forall_mem_map.2 fun e he => ?_
    obtain ⟨size, hsize, -⟩ := hreadable e he
    exact ⟨size, hsize, spanOf_eq hsize⟩
  generalize ledger.entries.map Entry.payload = ps at hdistinct hspans hsizes
  have hnodup : ((ps.map (spanOf heap)).map Prod.fst).Nodup := by
    rw [List.map_map]
    exact (List.map_id ps).symm ▸ hdistinct
  have hle : ∀ x ∈ ps.map (spanOf heap), x.1 ≤ x.2 :=
    List.forall_mem_map.2 fun p _ => Nat.le_add_right _ _
  constructor
  · rw [requireDisjoint_eq_ok_iff hspans hle hnodup, pairwise_apart_iff hle hnodup,
      List.forall_mem_map]
    refine forall₂_congr fun p hp => ?_
    obtain ⟨size, hsize, hspan⟩ := hsizes p hp
    simp only [List.forall_mem_map, hsize, hspan, Except.ok.injEq, forall_eq']
    rfl
  · refine (requireDisjoint_cases hspans hnodup).imp_right ?_
    rintro ⟨x, hx, y, hy, hxy, hlt, hbeside, hfails⟩
    obtain ⟨p, hp, rfl⟩ := List.mem_map.1 hx
    obtain ⟨q, hq, rfl⟩ := List.mem_map.1 hy
    obtain ⟨size, hsize, hspan⟩ := hsizes p hp
    obtain ⟨size', hsize', hspan'⟩ := hsizes q hq
    rw [hspan, hspan'] at hfails
    rw [hspan] at hlt
    exact ⟨p, hp, q, hq, size, size', hsize, hsize', hxy, hlt, List.forall_mem_map.1 hbeside,
      hfails, rfl⟩

/-- Three blocks, of which the first tells a size that reaches over the second into the third. -/
def overlong : Heap where
  arena := Arena.ofWords
    [0, 33, 16, 16, 33, 81, 0, 0, 0, 33, 0, 0, 33, 33, 0, 0, 33, 1] (by decide)
  settings := {}
  counters := {}

set_option maxRecDepth 2000 in
/-- Recorded out of order. What is named are the first and the second. -/
theorem requireDisjoint_exact_overlong :
    let ledger : Ledger := ⟨[⟨80, 8, 1⟩, ⟨48, 8, 2⟩, ⟨112, 8, 3⟩], 3⟩
    (ledger.entries.map Entry.payload).Nodup ∧ ledger.Readable overlong ∧
      ledger.requireDisjoint overlong ≠ .ok () ∧
      ∃ p q stop stop', q < stop ∧
        ledger.requireDisjoint overlong = .error (.overlap p stop q stop') := by
  intro ledger
  have hdistinct : (ledger.entries.map Entry.payload).Nodup := by decide
  have hreadable : ledger.Readable overlong := by
    simp only [Readable, ledger, List.forall_mem_cons]
    exact ⟨⟨16, rfl, by decide⟩, ⟨64, rfl, by decide⟩, ⟨16, rfl, by decide⟩, by simp⟩
  obtain ⟨hiff, hfails⟩ := requireDisjoint_exact hdistinct hreadable
  have hnot : ledger.requireDisjoint overlong ≠ .ok () := by
    intro hok
    have hfar := hiff.1 hok 48 (by decide) 80 (by decide) (by decide) 64 rfl
    exact absurd hfar (by decide)
  obtain ⟨p, -, q, -, size, size', -, -, -, hlt, -, herror, -⟩ := hfails.resolve_left hnot
  exact ⟨hdistinct, hreadable, hnot, p, q, _, _, hlt, herror⟩

end Ledger
end BoundaryHeap
