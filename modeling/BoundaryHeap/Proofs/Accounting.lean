import BoundaryHeap.Proofs.Grants
import BoundaryHeap.Proofs.Refinement

/-!
# What the counters count

The counters are bumped in several places on nested paths: a move is an allocation and a release
before it is a move, a growth is counted below the allocation that needed it, and a failure leaves
early. **In the end each counter is the number of turns of one kind** (`Counters.Tell`), and the
counters reconcile with the heap (`reached_counts`): what was handed out and not given back is what
is live, and each growth has put at least one chunk below the mark.
-/

set_option autoImplicit false

namespace BoundaryHeap

variable {settings : Settings} {history : List Turn} {heap : Heap} {live : List Nat}
  {m m' : BlockMap} {request : Request} {answer : Option Nat} {k : Counters} {t : Turn} {p n : Nat}

/-! ## Kinds of turns -/

namespace Turn

/-- A block was handed out, for a move or without one. -/
def grants (t : Turn) : Bool :=
  match t.request with
  | .allocate _ => t.answer.isSome
  | .resize _ _ => t.answer.isSome
  | .release _ => false
  | .store _ _ _ => false

/-- Some bytes were asked for, and none were got. -/
def fails (t : Turn) : Bool :=
  match t.request with
  | .allocate n => n ≠ 0 && t.answer.isNone
  | .resize _ n => n ≠ 0 && t.answer.isNone
  | .release _ => false
  | .store _ _ _ => false

/-- A block was moved. -/
def moves (t : Turn) : Bool :=
  match t.request with
  | .resize (some _) _ => t.answer.isSome
  | _ => false

/-- A block was given back for nothing. -/
def gives (t : Turn) : Bool :=
  match t.request with
  | .release (some _) => true
  | .resize (some _) n => n = 0
  | _ => false

def grows (t : Turn) : Bool :=
  0 < t.growth

end Turn

/-! ## The map -/

namespace BlockMap

/-- Who asks for nothing gets nothing. -/
theorem perform_fst_of_size (h : request.size = 0) : (m.perform settings request).1 = none := by
  have hnothing : (m.allocate settings 0).1 = none := rfl
  cases request with
  | allocate n =>
    obtain rfl : n = 0 := h
    exact hnothing
  | release handle => cases handle <;> rfl
  | resize handle n =>
    obtain rfl : n = 0 := h
    cases handle with
    | none => exact hnothing
    | some p => rfl
  | store p position data => rfl

theorem WellFormed.brk_allocate (h : m.WellFormed) (hvalid : settings.Valid) (n : Nat) :
    (m.allocate settings n).2.brk = m.brk ∨ ((m.allocate settings n).1.isSome ∧
      m.brk + settings.chunk ≤ (m.allocate settings n).2.brk) := by
  cases hall : m.allocate settings n with
  | mk answer m' =>
    cases answer with
    | none => exact .inl (congrArg brk (allocate_eq_none hall))
    | some p =>
      obtain ⟨size, -, hgrowth, -⟩ := h.allocate_eq_some hvalid hall
      rcases hgrowth with ⟨-, heq⟩ | ⟨-, count, hcount, -, heq, -⟩
      · exact .inl heq
      · have hchunk := (extensionSize_eq_some hcount).2.1
        exact .inr ⟨rfl, by simp only; omega⟩

theorem WellFormed.brk_resize (h : m.WellFormed) (hvalid : settings.Valid) (hp : m.Live p)
    (n : Nat) : (m.resize settings p n).2.brk = m.brk ∨ ((m.resize settings p n).1.isSome ∧
      m.brk + settings.chunk ≤ (m.resize settings p n).2.brk) := by
  obtain ⟨c, hc, rfl, hca⟩ := hp
  unfold BlockMap.resize
  by_cases hzero : n = 0
  · rw [if_pos hzero]
    exact .inl (h.release hc).2
  · have hgrowth := h.brk_allocate hvalid n
    have hstep := h.step_allocate hvalid n
    rw [if_neg hzero]
    cases hall : m.allocate settings n with
    | mk answer m' =>
      rw [hall] at hgrowth hstep
      cases answer with
      | none => exact hgrowth
      | some q =>
        -- The release that makes it a move leaves the mark where the allocation put it.
        have hc' : c ∈ m'.cells := hstep.keeps c hc hca (by simp)
        simp only [(hstep.wellFormed.release hc').2]
        exact hgrowth

/-- **A request moves the mark by at least a chunk or not at all,** and only for a block. -/
theorem WellFormed.brk_perform (h : m.WellFormed) (hvalid : settings.Valid)
    (hhandle : ∀ p, request.handle = some p → m.Live p) :
    (m.perform settings request).2.brk = m.brk ∨ ((m.perform settings request).1.isSome ∧
      m.brk + settings.chunk ≤ (m.perform settings request).2.brk) := by
  cases request with
  | allocate n => exact h.brk_allocate hvalid n
  | release handle =>
    cases handle with
    | none => exact .inl rfl
    | some p =>
      obtain ⟨c, hc, rfl, -⟩ := hhandle p rfl
      exact .inl (h.release hc).2
  | resize handle n =>
    cases handle with
    | none => exact h.brk_allocate hvalid n
    | some p => exact h.brk_resize hvalid (hhandle p rfl) n
  | store p position data => exact .inl rfl

end BlockMap

/-! ## One turn -/

namespace Counters

theorem allocated_eq (hzero : n = 0 → answer = none) (hcalm : answer = none → m'.brk = m.brk) :
    k.allocated n answer m m' =
      { k with
        allocations := k.allocations + answer.isSome.toNat
        extensions := k.extensions + (decide (0 < m'.brk - m.brk)).toNat
        failedAllocations := k.failedAllocations + (n ≠ 0 && answer.isNone).toNat } := by
  cases answer with
  | none =>
    by_cases hn : n = 0
    · simp [allocated, hn, hcalm rfl]
    · simp [allocated, hn, hcalm rfl]
  | some q =>
    by_cases hlt : m.brk < m'.brk
    · have hgrows : 0 < m'.brk - m.brk := Nat.sub_pos_of_lt hlt
      simp [allocated, grown, hlt, hgrows]
    · have hgrows : m'.brk - m.brk = 0 := Nat.sub_eq_zero_of_le (Nat.le_of_not_lt hlt)
      simp [allocated, grown, hlt, hgrows]

/-- What a turn adds to each counter, if who asks for nothing gets nothing and the heap grows for
a block only. -/
theorem after_eq (ht : t = ⟨request, answer, m'.brk - m.brk⟩)
    (hzero : request.size = 0 → answer = none) (hcalm : answer = none → m'.brk = m.brk) :
    k.after answer m m' request =
      { allocations := k.allocations + t.grants.toNat
        releases := k.releases + (t.gives.toNat + t.moves.toNat)
        resizes := k.resizes + t.moves.toNat
        extensions := k.extensions + t.grows.toNat
        failedAllocations := k.failedAllocations + t.fails.toNat } := by
  subst ht
  cases request with
  | allocate n => exact allocated_eq hzero hcalm
  | release handle =>
    obtain rfl := hzero rfl
    cases handle with
    | none => simp [after, Turn.grants, Turn.gives, Turn.moves, Turn.grows, Turn.fails, hcalm rfl]
    | some p => simp [after, Turn.grants, Turn.gives, Turn.moves, Turn.grows, Turn.fails, hcalm rfl]
  | resize handle n =>
    cases handle with
    | none => exact allocated_eq hzero hcalm
    | some p =>
      by_cases hn : n = 0
      · obtain rfl := hzero hn
        simp [after, Turn.grants, Turn.gives, Turn.moves, Turn.grows, Turn.fails, hn, hcalm rfl]
      · have hall : k.allocated n answer m m' = _ := allocated_eq hzero hcalm
        cases answer with
        | none =>
          simp only [after, if_neg hn, hall]
          simp [Turn.grants, Turn.gives, Turn.moves, Turn.grows, Turn.fails, hn]
        | some q =>
          simp only [after, if_neg hn, hall]
          simp [Turn.grants, Turn.gives, Turn.moves, Turn.grows, Turn.fails, hn]
  | store p position data =>
    obtain rfl := hzero rfl
    simp [after, Turn.grants, Turn.gives, Turn.moves, Turn.grows, Turn.fails, hcalm rfl]

end Counters

namespace Heap

/-- Who gives back one handle keeps all others. -/
theorem perm_cons_filter_ne (hnodup : live.Nodup) (hp : p ∈ live) :
    live.Perm (p :: live.filter fun q => some q ≠ some p) := by
  have herase : live.filter (fun q => some q ≠ some p) = live.erase p := by
    rw [hnodup.erase_eq_filter]
    exact List.filter_congr fun q _ => by simp [bne, beq_eq_decide]
  rw [herase]
  exact List.perm_cons_erase hp

theorem length_filter_ne (hnodup : live.Nodup) (hp : p ∈ live) :
    (live.filter fun q => some q ≠ some p).length + 1 = live.length := by
  rw [(perm_cons_filter_ne hnodup hp).length_eq, List.length_cons]

/-- What a turn does to the number of blocks that are held. -/
theorem length_liveAfter {growth : Nat} (ht : t = ⟨request, answer, growth⟩)
    (hnodup : live.Nodup) (hhandle : ∀ p, request.handle = some p → p ∈ live)
    (hzero : request.size = 0 → answer = none) :
    (request.liveAfter live answer).length + (t.gives.toNat + t.moves.toNat) =
      live.length + t.grants.toNat := by
  subst ht
  cases request with
  | allocate n =>
    cases answer with
    | none => rfl
    | some q => rfl
  | release handle =>
    cases handle with
    | none => simp [Request.liveAfter, Turn.gives, Turn.moves, Turn.grants]
    | some p => exact length_filter_ne hnodup (hhandle p rfl)
  | resize handle n =>
    cases handle with
    | none =>
      cases answer with
      | none => simp [Request.liveAfter, Turn.gives, Turn.moves, Turn.grants]
      | some q => simp [Request.liveAfter, Turn.gives, Turn.moves, Turn.grants]
    | some p =>
      have hlen := length_filter_ne hnodup (hhandle p rfl)
      cases answer with
      | none =>
        by_cases hn : n = 0
        · simpa [Request.liveAfter, Turn.gives, Turn.moves, Turn.grants, hn] using hlen
        · simp [Request.liveAfter, Turn.gives, Turn.moves, Turn.grants, hn]
      | some q =>
        have hn : n ≠ 0 := fun hn => by cases hzero hn
        simpa [Request.liveAfter, Turn.gives, Turn.moves, Turn.grants, hn] using hlen
  | store p position data => rfl

/-! ## Runs -/

end Heap

/-- Each counter is the number of turns of one kind; a move is a release as well, and the making of
the heap is a growth. -/
structure Counters.Tell (k : Counters) (history : List Turn) : Prop where
  allocations_eq : k.allocations = history.countP Turn.grants
  releases_eq : k.releases = history.countP Turn.gives + history.countP Turn.moves
  resizes_eq : k.resizes = history.countP Turn.moves
  extensions_eq : k.extensions = 1 + history.countP Turn.grows
  failedAllocations_eq : k.failedAllocations = history.countP Turn.fails

theorem Counters.Tell.concat (h : k.Tell history) (t : Turn) :
    Counters.Tell
      { allocations := k.allocations + t.grants.toNat
        releases := k.releases + (t.gives.toNat + t.moves.toNat)
        resizes := k.resizes + t.moves.toNat
        extensions := k.extensions + t.grows.toNat
        failedAllocations := k.failedAllocations + t.fails.toNat } (history ++ [t]) := by
  have hcount : ∀ f : Turn → Bool, (history ++ [t]).countP f = history.countP f + (f t).toNat := by
    intro f
    rw [List.countP_append, List.countP_singleton]
    cases f t <;> rfl
  obtain ⟨hallocs, hreleases, hresizes, hextensions, hfailed⟩ := h
  refine ⟨?_, ?_, ?_, ?_, ?_⟩
  · rw [hcount, hallocs]
  · rw [hcount, hcount]
    simp only [hreleases]
    omega
  · rw [hcount, hresizes]
  · rw [hcount, hextensions, Nat.add_assoc]
  · rw [hcount, hfailed]

namespace Heap

/-- **The accounts of a run:** what the counters count, what is live, and what the growths took. -/
theorem Reached.accounts (reached : Reached settings history heap live) :
    heap.counters.Tell history ∧
      heap.counters.allocations = heap.counters.releases + live.length ∧
      48 + heap.counters.extensions * settings.chunk ≤ heap.arena.brk := by
  induction reached with
  | create hmade =>
    obtain ⟨htracks, hcounters⟩ := create_tracks hmade
    rw [hcounters, htracks.brk_eq]
    refine ⟨⟨rfl, rfl, rfl, rfl, rfl⟩, rfl, ?_⟩
    simpa using htracks.room
  | @step history heap next live request answer reached hlegal hdone ih =>
    obtain ⟨htell, hbalance, hroom⟩ := ih
    obtain ⟨m, htracks⟩ : ∃ m, Tracks settings heap live m := ⟨_, reached.tracks.2.2⟩
    obtain ⟨hanswer, htracks', -, hcounters, -⟩ := htracks.done hlegal hdone
    have hvalid : settings.Valid := htracks.settings_eq ▸ htracks.models.valid
    have hhandle : ∀ p, request.handle = some p → p ∈ live := fun p hp => hlegal.handle_mem hp
    have hgrowth := htracks.wellFormed.brk_perform hvalid fun p hp =>
      (htracks.live_iff p).1 (hhandle p hp)
    rw [hanswer] at hgrowth
    have hzero : request.size = 0 → answer = none := fun hsize => by
      rw [← hanswer]
      exact BlockMap.perform_fst_of_size hsize
    have hcalm : answer = none → (m.perform settings request).2.brk = m.brk := fun hnone =>
      hgrowth.resolve_right (by simp [hnone])
    obtain ⟨t, ht⟩ : ∃ t, t = Turn.mk request answer ((m.perform settings request).2.brk - m.brk) :=
      ⟨_, rfl⟩
    have hturn : Turn.mk request answer (next.arena.brk - heap.arena.brk) = t := by
      rw [ht, htracks.brk_eq, htracks'.brk_eq]
    rw [Counters.after_eq ht hzero hcalm] at hcounters
    have hlen := length_liveAfter ht htracks.nodup hhandle hzero
    rw [htracks.brk_eq] at hroom
    rw [hturn, hcounters, htracks'.brk_eq]
    refine ⟨htell.concat t, ?_, ?_⟩
    · simp only
      omega
    · -- A turn that grows the heap pays for a chunk, and the others for nothing.
      simp only [Nat.add_mul]
      rcases hgrowth with heq | ⟨-, hle⟩
      · have hnone : t.grows = false := by simp [ht, Turn.grows, heq]
        rw [hnone, Bool.toNat_false, Nat.zero_mul]
        omega
      · have hone := Nat.mul_le_mul_right settings.chunk t.grows.toNat_le
        omega

/-- What is held is what the walk finds allocated, and is tallied so. -/
theorem Tracks.tallied (h : Tracks settings heap live m) :
    ∃ blocks, heap.arena.Sound blocks m.ring ∧
      (∀ p, p ∈ live ↔ ∃ b ∈ blocks, b.payload = p ∧ b.tag.allocated = true) ∧
      (HeapStats.ofBlocks heap.arena.brk blocks).allocatedBlocks = live.length := by
  obtain ⟨blocks, hsound, hcells⟩ := h.models.represents.sound
  have hiff : ∀ p, p ∈ live ↔ ∃ b ∈ blocks, b.payload = p ∧ b.tag.allocated = true :=
    fun p => h.allocated_iff hcells
  refine ⟨blocks, hsound, hiff, ?_⟩
  rw [(HeapStats.counts_ofBlocks _ blocks).allocatedBlocks_eq]
  exact (hsound.tiles.length_eq h.nodup hiff).symm

theorem Tracks.allocatedBlocks_eq (h : Tracks settings heap live m) :
    ∃ stats, heap.stats = .ok stats ∧ stats.allocatedBlocks = live.length := by
  obtain ⟨blocks, hsound, -, hcount⟩ := h.tallied
  exact ⟨_, hsound.stats_eq, hcount⟩

/-- **The counters reconcile with the heap.** Each of them counts the turns of one kind; what was
handed out and not given back is what is live and what the walk finds allocated; and every growth
took a chunk at least, so that the ceiling bounds how many there can be. No count outgrows the
number of turns, so none leaves the range of a word before there were `2 ^ 64 - 1` of them. -/
theorem reached_counts (reached : Reached settings history heap live) :
    heap.counters.Tell history ∧
      heap.counters.allocations = heap.counters.releases + live.length ∧ live.Nodup ∧
      (∃ stats, heap.stats = .ok stats ∧ stats.allocatedBlocks = live.length) ∧
      48 + heap.counters.extensions * settings.chunk ≤ heap.arena.brk ∧
      heap.arena.brk ≤ settings.reserved ∧
      heap.counters.extensions ≤ (settings.reserved - 48) / settings.chunk ∧
      ∀ t ∈ heap.counters.tallies, t ≤ history.length + 1 := by
  obtain ⟨htell, hbalance, hroom⟩ := reached.accounts
  obtain ⟨-, -, htracks⟩ := reached.tracks
  have hceiling : heap.arena.brk ≤ settings.reserved := by
    rw [← htracks.settings_eq, ← htracks.models.reserved_eq]
    exact heap.arena.size_le_reserved
  have hchunk : 32 ≤ settings.chunk := htracks.settings_eq ▸ htracks.models.valid.chunk_ge
  refine ⟨htell, hbalance, htracks.nodup, htracks.allocatedBlocks_eq, hroom, hceiling, ?_,
    reached.tallies_le⟩
  rw [Nat.le_div_iff_mul_le (by omega)]
  omega

/-- A growth, a move into a released block, a failure, and a move to nothing. -/
theorem reached_counts_small : ∃ history heap,
    Reached ⟨256, 64, .strict⟩ history heap [] ∧ heap.counters.Tell history ∧
      heap.counters.allocations = heap.counters.releases ∧ heap.counters.extensions ≤ 3 := by
  obtain ⟨history, heap, -, hreached⟩ :=
    exists_reached ⟨256, 64, .strict⟩ (by constructor <;> decide) (by decide) (by decide)
      [.allocate 20, .allocate 100, .release (some 48), .resize (some 112) 8, .allocate 1000,
        .resize (some 48) 0] (by decide)
  obtain ⟨htell, hbalance, -, -, -, -, hgrowths, -⟩ := reached_counts hreached
  exact ⟨history, heap, hreached, htell, hbalance, hgrowths⟩

end Heap
end BoundaryHeap
