import BoundaryHeap.Proofs.BlockWalks
import BoundaryHeap.Proofs.Runs

/-!
# Nothing faults

A fault is a sum that leaves the range of a word, a difference below zero, an access outside the
arena, or a broken expectation of the code itself. **None of them happens to a user who keeps to
the rules** (`reached_safe`): every legal request is answered, everything that only looks at the
heap gets to its end, audits included, the walks along the ring end at the sentinel, and no count
outgrows a word before there have been more requests than anyone can make.
-/

set_option autoImplicit false

namespace BoundaryHeap

variable {settings : Settings} {history : List Turn} {heap : Heap} {live : List Nat}
  {m m' : BlockMap} {request : Request} {answer : Option Nat} {k : Counters} {bound : Nat}

/-! ## Counters -/

namespace Counters

/-- All counts. -/
def tallies (k : Counters) : List Nat :=
  [k.allocations, k.releases, k.resizes, k.extensions, k.failedAllocations]

theorem tallies_le_iff : (∀ t ∈ k.tallies, t ≤ bound) ↔
    k.allocations ≤ bound ∧ k.releases ≤ bound ∧ k.resizes ≤ bound ∧ k.extensions ≤ bound ∧
      k.failedAllocations ≤ bound := by
  simp [tallies]

theorem tallies_allocated {n : Nat} (h : ∀ t ∈ k.tallies, t ≤ bound) :
    ∀ t ∈ (k.allocated n answer m m').tallies, t ≤ bound + 1 := by
  have hkept : ∀ t ∈ k.tallies, t ≤ bound + 1 := fun t ht => Nat.le_succ_of_le (h t ht)
  rw [tallies_le_iff] at h
  cases answer with
  | none =>
    by_cases hzero : n = 0
    · simp only [allocated, hzero, if_true]
      exact hkept
    · simp only [allocated, hzero, if_false]
      rw [tallies_le_iff]
      simp only
      omega
  | some q =>
    simp only [allocated, grown]
    rw [tallies_le_iff]
    simp only
    split <;> omega

/-- No request adds more than one to any count. -/
theorem tallies_after (h : ∀ t ∈ k.tallies, t ≤ bound) :
    ∀ t ∈ (k.after answer m m' request).tallies, t ≤ bound + 1 := by
  have hkept : ∀ t ∈ k.tallies, t ≤ bound + 1 := fun t ht => Nat.le_succ_of_le (h t ht)
  have hreleased : ∀ t ∈ tallies { k with releases := k.releases + 1 }, t ≤ bound + 1 := by
    rw [tallies_le_iff] at h ⊢
    simp only
    omega
  cases request with
  | allocate n => exact tallies_allocated h
  | release handle =>
    cases handle with
    | none => exact hkept
    | some p => exact hreleased
  | resize handle n =>
    cases handle with
    | none => exact tallies_allocated h
    | some p =>
      by_cases hzero : n = 0
      · simp only [after, hzero, if_true]
        exact hreleased
      · simp only [after, hzero, if_false]
        -- A move counts as an allocation, a release and a resize: one of each.
        cases answer with
        | none => exact tallies_allocated h
        | some q =>
          have hgot : ∀ t ∈ (k.allocated n (some q) m m').tallies, t ≤ bound + 1 :=
            tallies_allocated h
          rw [tallies_le_iff] at h hgot ⊢
          simp only
          omega
  | store p position data => exact hkept

end Counters

namespace Heap

theorem Reached.tallies_le (reached : Reached settings history heap live) :
    ∀ t ∈ heap.counters.tallies, t ≤ history.length + 1 := by
  induction reached with
  | create hmade =>
    rw [(create_tracks hmade).2]
    decide
  | step reached hlegal hdone ih =>
    obtain ⟨-, -, htracks⟩ := reached.tracks
    obtain ⟨-, -, -, hcounters, -⟩ := htracks.done hlegal hdone
    rw [hcounters, List.length_append]
    exact Counters.tallies_after ih

/-! ## Looking -/

theorem check_of_clean {a : Arena} {stats : HeapStats} {ringLength : Nat} {verbose : Bool}
    (h : (a.inspect verbose).result = .ok ⟨stats, ringLength, []⟩) (mode : CheckMode) :
    (check ⟨a, { settings with mode }, k⟩ verbose).result = .ok ⟨stats, ringLength, []⟩ := by
  cases mode with
  | lenient =>
    simp only [check, h, HeapReport.enforce, Traced.result_bind, Traced.result_emitAll,
      Traced.result_pure, ok_bind]
  | strict =>
    simp only [check, h, HeapReport.enforce, Traced.result_bind, Traced.result_emitAll,
      Traced.result_pure, ok_bind]

theorem validate_of_clean {stats : HeapStats} {ringLength : Nat}
    (h : (heap.arena.inspect false).result = .ok ⟨stats, ringLength, []⟩) :
    heap.validate = .ok (.ok stats) := by
  rw [validate, h]
  rfl

/-! ## Safety -/

/-- **Nothing faults on a legal run.** Every legal request is answered; so is every question about a
live block, about the blocks, the free blocks and the tallies; the audit gets to its end in both
modes, dumped or not; the search and the listing come back to the sentinel within as many nodes as
there is room for; and every count and every tally fits into a word. -/
theorem reached_safe (reached : Reached settings history heap live)
    (hlen : history.length < 0x8000000000000000) :
    (∀ request : Request, request.Legal heap live → ∃ answer next,
      (request.perform heap).result = .ok (answer, next) ∧
        ∀ t ∈ next.counters.tallies, t < wordLimit) ∧
      (∀ p ∈ live, ∃ size data, heap.usableSize p = .ok size ∧ heap.writableSize p = .ok size ∧
        heap.contents p = .ok data) ∧
      (∃ blocks, heap.blocks = .ok blocks) ∧
      (∀ count, ∃ free, heap.freeBlocks count = .ok free) ∧
      (∃ stats, heap.stats = .ok stats ∧ heap.validate = .ok (.ok stats) ∧
        ∀ t ∈ stats.tallies, t < wordLimit) ∧
      (∀ mode verbose, ∃ report,
        (check ⟨heap.arena, { heap.settings with mode }, heap.counters⟩ verbose).result =
          .ok report) ∧
      ∃ head, heap.arena.nextLink prologue = .ok head ∧
        (∃ ring, heap.arena.nodesFrom head ((heap.arena.brk - 48) / 32) = .ok ring) ∧
        ∀ size, ∃ found,
          heap.arena.firstFitFrom size head ((heap.arena.brk - 48) / 32) = .ok found := by
  obtain ⟨-, -, htracks⟩ := reached.tracks
  have hrep := htracks.models.represents
  obtain ⟨blocks, hsound, -⟩ := hrep.sound
  have hclean := hsound.inspect_spec
  have hlt := heap.arena.brk_lt
  refine ⟨?_, ?_, ⟨blocks, hsound.blocks_eq⟩, ?_,
    ⟨_, hsound.stats_eq, validate_of_clean (hclean false), ?_⟩,
    fun mode verbose => ⟨_, check_of_clean (hclean verbose) mode⟩,
    _, hrep.isRing.nextLink_prologue, ⟨_, hrep.nodesFrom_eq⟩,
    fun size => ⟨_, hrep.firstFitFrom_eq size⟩⟩
  · intro request hlegal
    obtain ⟨next, hnext, -⟩ := htracks.follow hlegal
    refine ⟨_, next, hnext.1, ?_⟩
    intro t ht
    have hle := (reached.step hlegal hnext.1).tallies_le t ht
    rw [List.length_append, List.length_singleton] at hle
    simp only [wordLimit]
    omega
  · intro p hp
    obtain ⟨c, hc, rfl, hca⟩ := (htracks.live_iff p).1 hp
    exact ⟨_, _, htracks.models.usableSize_eq hc, htracks.models.writableSize_eq hc hca,
      htracks.models.contents_eq hc hca⟩
  · intro count
    obtain ⟨free, hfree, -⟩ := hrep.freeBlocks_eq count
    exact ⟨free, hfree⟩
  · intro t ht
    have hle := HeapStats.tallies_le hsound t ht
    simp only [wordLimit]
    omega

/-- In a heap that cannot grow, asked for as much as a word can say. -/
theorem reached_safe_full : ∃ history heap, Reached ⟨128, 80, .strict⟩ history heap [48] ∧
    (∃ answer next,
      ((Request.allocate 0xFFFFFFFFFFFFFFFF).perform heap).result = .ok (answer, next)) ∧
    ∃ stats, heap.stats = .ok stats ∧ heap.validate = .ok (.ok stats) := by
  obtain ⟨history, heap, hrequests, hreached⟩ :=
    exists_reached ⟨128, 80, .strict⟩ (by constructor <;> decide) (by decide)
      (by decide) [.allocate 20, .allocate 100] (by decide)
  have hlen : history.length = 2 := by
    rw [← List.length_map (f := Turn.request), hrequests]
    rfl
  obtain ⟨hanswered, -, -, -, ⟨stats, hstats, hvalid, -⟩, -⟩ :=
    reached_safe hreached (by rw [hlen]; decide)
  obtain ⟨answer, next, hnext, -⟩ := hanswered (.allocate 0xFFFFFFFFFFFFFFFF) (by decide : _ < _)
  exact ⟨history, heap, hreached, ⟨answer, next, hnext⟩, stats, hstats, hvalid⟩

end Heap
end BoundaryHeap
