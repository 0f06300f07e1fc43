import BoundaryHeap.Proofs.Ledgers
import BoundaryHeap.Proofs.Safety
import BoundaryHeap.Workload.Replay

/-!
# What a replay leaves

A replay keeps a row of handles, and the heap knows nothing of it. The row is right as long as every
handle that is given back also leaves it. One step breaks this: a move to nothing gives a block back
and gets no new one, and **the old handle stays in its slot**. No legal step ever makes up for that,
so a replay is exact if and only if it comes to no such step while the row has a handle to move
(`Step.replayAll_exact_iff`).

What is carried along says how far row and heap are apart (`Lists`): the row is what is held and a
list of stale handles. A step adds to that list what it drops, and takes nothing away.
-/

set_option autoImplicit false

namespace BoundaryHeap

variable {settings : Settings} {heap mid next : Heap} {live live' held kept stale rest : List Nat}
  {m : BlockMap} {first step : Step} {steps : List Step} {p q n i slot : Nat}

/-! ## Rows of handles -/

namespace Slots

variable {α : Type} {xs : List α} {x : α}

/-- The thing in a slot can be taken out or replaced, and all else stays. -/
theorem exists_perm (h : wrapped? xs i = some x) : ∃ others, xs.Perm (x :: others) ∧
    (vacate xs (i % xs.length)).Perm others ∧
    ∀ y, (xs.set (i % xs.length) y).Perm (y :: others) := by
  obtain ⟨hi, hx⟩ := List.getElem?_eq_some_iff.1 h
  refine ⟨xs.eraseIdx (i % xs.length), ?_, vacate_perm_eraseIdx hi,
    List.set_perm_cons_eraseIdx hi⟩
  rw [← hx]
  exact (List.getElem_cons_eraseIdx_perm hi).symm

theorem wrapped?_eq_none_iff : wrapped? xs i = none ↔ xs = [] := by
  rw [wrapped?, List.getElem?_eq_none_iff]
  cases xs with
  | nil => simp
  | cons x rest =>
    have hlt := Nat.mod_lt i (Nat.zero_lt_succ rest.length)
    simpa using hlt

end Slots

namespace Heap

/-- The walk finds an allocated block there. -/
def Allocated (heap : Heap) (p : Nat) : Prop :=
  ∃ blocks, heap.blocks = .ok blocks ∧ ∃ b ∈ blocks, b.payload = p ∧ b.tag.allocated = true

theorem Tracks.mem_iff (h : Tracks settings heap live m) : p ∈ live ↔ heap.Allocated p := by
  obtain ⟨blocks, hblocks, hcells⟩ := h.models.represents.blocks_eq
  rw [h.allocated_iff hcells]
  constructor
  · intro hfound
    exact ⟨blocks, hblocks, hfound⟩
  · rintro ⟨blocks', hblocks', hfound⟩
    rwa [Except.ok.inj (hblocks.symm.trans hblocks')]

end Heap

/-- The row lists the blocks that are allocated, and some stale handles besides. -/
def Lists (settings : Settings) (heap : Heap) (live stale : List Nat) : Prop :=
  ∃ held m, Heap.Tracks settings heap held m ∧ live.Perm (held ++ stale)

theorem Lists.allocated (h : Lists settings heap live []) (hp : p ∈ live) : heap.Allocated p := by
  obtain ⟨held, m, htracks, hperm⟩ := h
  rw [List.append_nil] at hperm
  exact htracks.mem_iff.1 (hperm.mem_iff.1 hp)

/-- A row of allocated blocks without repetitions has no stale handles. -/
theorem Lists.eq_nil (h : Lists settings heap live stale) (hnodup : live.Nodup)
    (halloc : ∀ p ∈ live, heap.Allocated p) : stale = [] := by
  obtain ⟨held, m, htracks, hperm⟩ := h
  refine List.eq_nil_iff_forall_not_mem.2 fun p hp => ?_
  have hheld := htracks.mem_iff.2 (halloc p (hperm.mem_iff.2 (List.mem_append_right _ hp)))
  exact List.disjoint_of_nodup_append (hperm.nodup_iff.1 hnodup) hheld hp

/-- What a row without stale handles says of the heap. -/
theorem Lists.settled (h : Lists settings heap live []) :
    live.Nodup ∧ (∃ blocks, heap.blocks = .ok blocks ∧
      ∀ p, p ∈ live ↔ ∃ b ∈ blocks, b.payload = p ∧ b.tag.allocated = true) ∧
    ∃ stats, heap.validate = .ok (.ok stats) ∧ stats.allocatedBlocks = live.length := by
  obtain ⟨held, m, htracks, hperm⟩ := h
  rw [List.append_nil] at hperm
  have htracks' := htracks.of_perm hperm.symm
  obtain ⟨blocks, hsound, hiff, hcount⟩ := htracks'.tallied
  exact ⟨htracks'.nodup, ⟨blocks, hsound.blocks_eq, hiff⟩, _,
    Heap.validate_of_clean (hsound.inspect_spec false), hcount⟩

/-! ## Steps -/

/-- Taking the same handle out of the row and out of what is held leaves the stale ones. -/
theorem others_perm {others : List Nat} (hperm : live.Perm (held ++ stale))
    (hrow : live.Perm (p :: others)) (hheld : held.Perm (p :: kept)) :
    others.Perm (kept ++ stale) :=
  ((hrow.symm.trans hperm).trans (hheld.append_right stale)).cons_inv

namespace Step

/-- The handle that is given to the heap. -/
def handle? (live : List Nat) : Step → Option Nat
  | allocate _ => none
  | release slot => Slots.wrapped? live slot
  | resize slot _ => Slots.wrapped? live slot

theorem mem_of_handle? (h : step.handle? live = some p) : p ∈ live := by
  cases step with
  | allocate n => cases h
  | release slot => exact List.mem_of_getElem? h
  | resize slot n => exact List.mem_of_getElem? h

/-- The handle that is given back and stays in the row. -/
def dropped (live : List Nat) : Step → List Nat
  | resize slot n => if n = 0 then (Slots.wrapped? live slot).toList else []
  | _ => []

theorem dropped_ne_nil_iff : step.dropped live ≠ [] ↔ ∃ slot, step = resize slot 0 ∧ live ≠ [] := by
  cases step with
  | allocate n => simp [dropped]
  | release slot => simp [dropped]
  | resize slot n =>
    by_cases hzero : n = 0
    · simp [dropped, hzero, Slots.wrapped?_eq_none_iff]
    · simp [dropped, hzero]

theorem lists_allocate (h : Lists settings heap live stale) (hn : n < wordLimit) :
    ∃ live' next, ((allocate n).replay live heap).result = .ok (live', next) ∧
      Lists settings next live' stale := by
  obtain ⟨held, m, htracks, hperm⟩ := h
  have hlegal : (Request.allocate n).Legal heap held := hn
  obtain ⟨next, ⟨hdone, -⟩, -, htracks'⟩ := htracks.follow hlegal
  rw [htracks.settings_eq] at hdone
  generalize (m.perform settings (.allocate n)).1 = answer at hdone htracks'
  have hresult : (heap.allocate n).result = .ok (answer, next) := hdone
  cases answer with
  | none =>
    refine ⟨live, next, ?_, held, _, htracks', hperm⟩
    simp only [replay, hresult, Traced.result_bind, Traced.result_pure, ok_bind]
  | some p =>
    refine ⟨live ++ [p], next, ?_, p :: held, _, htracks', ?_⟩
    · simp only [replay, hresult, Traced.result_bind, Traced.result_pure, ok_bind]
    · exact (List.perm_append_singleton p live).trans (hperm.cons p)

theorem lists_release (h : Lists settings heap live stale)
    (hslot : Slots.wrapped? live slot = some p) (halloc : heap.Allocated p) :
    ∃ live' next, ((release slot).replay live heap).result = .ok (live', next) ∧
      Lists settings next live' stale := by
  obtain ⟨held, m, htracks, hperm⟩ := h
  have hp := htracks.mem_iff.2 halloc
  obtain ⟨others, hrow, hvacate, -⟩ := Slots.exists_perm hslot
  obtain ⟨next, hnext, -⟩ := htracks.models.release_spec ((htracks.live_iff p).1 hp)
  obtain ⟨m', htracks'⟩ :=
    htracks.held_after (Request.legal_release hp) (Heap.perform_release hnext)
  refine ⟨_, next, ?_, _, m', htracks',
    hvacate.trans (others_perm hperm hrow (Heap.perm_cons_filter_ne htracks.nodup hp))⟩
  have hresult : (heap.releaseBlock p).result = .ok next := hnext
  simp only [replay, hslot, hresult, Traced.result_bind, Traced.result_pure, ok_bind]

theorem lists_resize (h : Lists settings heap live stale) (hn : n < wordLimit)
    (hslot : Slots.wrapped? live slot = some p) (halloc : heap.Allocated p) :
    ∃ live' next, ((resize slot n).replay live heap).result = .ok (live', next) ∧
      Lists settings next live' ((resize slot n).dropped live ++ stale) := by
  obtain ⟨held, m, htracks, hperm⟩ := h
  have hp := htracks.mem_iff.2 halloc
  obtain ⟨others, hrow, -, hset⟩ := Slots.exists_perm hslot
  have hlegal : (Request.resize (some p) n).Legal heap held := Request.legal_resize hp hn
  obtain ⟨next, ⟨hdone, -⟩, -⟩ := htracks.follow hlegal
  have hnothing : n = 0 → (m.perform heap.settings (.resize (some p) n)).1 = none :=
    fun hzero => BlockMap.perform_fst_of_size hzero
  generalize (m.perform heap.settings (.resize (some p) n)).1 = answer at hdone hnothing
  have hresult : (heap.resize (some p) n).result = .ok (answer, next) := hdone
  obtain ⟨m', htracks'⟩ := htracks.held_after hlegal hdone
  have hkept := others_perm hperm hrow (Heap.perm_cons_filter_ne htracks.nodup hp)
  cases answer with
  | some q =>
    have hne : n ≠ 0 := fun hzero => by cases hnothing hzero
    refine ⟨live.set (slot % live.length) q, next, ?_, _, m', htracks', ?_⟩
    · simp only [replay, hslot, hresult, Traced.result_bind, Traced.result_pure, ok_bind]
    · rw [dropped, if_neg hne]
      exact (hset q).trans (hkept.cons q)
  | none =>
    refine ⟨live, next, ?_, _, m', htracks', ?_⟩
    · simp only [replay, hslot, hresult, Traced.result_bind, Traced.result_pure, ok_bind]
    · by_cases hzero : n = 0
      · have hreturned : (Request.resize (some p) n).returned none = some p := if_pos (.inr hzero)
        rw [hreturned, dropped, if_pos hzero, hslot]
        -- The handle is held no more, and the row still has it.
        exact (hrow.trans (hkept.cons p)).trans List.perm_middle.symm
      · have hreturned : (Request.resize (some p) n).returned none = none :=
          if_neg (by simpa using hzero)
        rw [hreturned, dropped, if_neg hzero, List.filter_eq_self.2 fun q _ => by simp]
        exact hperm

/-- **Every step with an allocated block is taken, and adds to the stale handles what it drops.** -/
theorem lists_replay (h : Lists settings heap live stale) (step : Step)
    (hsize : step.size < wordLimit) (halloc : ∀ p, step.handle? live = some p → heap.Allocated p) :
    ∃ live' next, (step.replay live heap).result = .ok (live', next) ∧
      Lists settings next live' (step.dropped live ++ stale) := by
  cases step with
  | allocate n => exact lists_allocate h hsize
  | release slot =>
    cases hslot : Slots.wrapped? live slot with
    | none => exact ⟨live, heap, by simp only [replay, hslot, Traced.result_pure], h⟩
    | some p => exact lists_release h hslot (halloc p hslot)
  | resize slot n =>
    cases hslot : Slots.wrapped? live slot with
    | none =>
      refine ⟨live, heap, by simp only [replay, hslot, Traced.result_pure], ?_⟩
      simpa [dropped, hslot] using h
    | some p => exact lists_resize h hsize hslot (halloc p hslot)

/-! ## Replays -/

/-- The replay of the steps from this row and heap on comes to a step with that row and heap. -/
inductive Meets : List Nat → Heap → List Step → Step → List Nat → Heap → Prop
  | here {live : List Nat} {heap : Heap} {step : Step} {rest : List Step} :
    Meets live heap (step :: rest) step live heap
  | later {live live' held : List Nat} {heap next mid : Heap} {first step : Step}
      {rest : List Step} :
    (first.replay live heap).result = .ok (live', next) → Meets live' next rest step held mid →
    Meets live heap (first :: rest) step held mid

/-- The replay comes to a move to nothing, and has a handle to move. -/
def Drops (live : List Nat) (heap : Heap) (steps : List Step) : Prop :=
  ∃ slot held mid, Meets live heap steps (resize slot 0) held mid ∧ held ≠ []

/-- **What a replay should do:** the row in the end is the allocated blocks, each of them once, the
heap passes its audit, and no handle was ever given to the heap that was not allocated then. -/
structure Exact (heap : Heap) (steps : List Step) (live : List Nat) (next : Heap) : Prop where
  replayed : (replayAll steps heap).result = .ok (live, next)
  nodup : live.Nodup
  blocks_eq : ∃ blocks, next.blocks = .ok blocks ∧
    ∀ p, p ∈ live ↔ ∃ b ∈ blocks, b.payload = p ∧ b.tag.allocated = true
  validate_eq : ∃ stats, next.validate = .ok (.ok stats) ∧ stats.allocatedBlocks = live.length
  legal : ∀ step held mid, Meets [] heap steps step held mid →
    ∀ p, step.handle? held = some p → mid.Allocated p

theorem meets_cons_iff (hstep : (first.replay live heap).result = .ok (live', next)) :
    Meets live heap (first :: steps) step held mid ↔
      (step = first ∧ held = live ∧ mid = heap) ∨ Meets live' next steps step held mid := by
  constructor
  · rintro (_ | ⟨hstep', hmeets⟩)
    · exact .inl ⟨rfl, rfl, rfl⟩
    · obtain ⟨rfl, rfl⟩ := Prod.mk.inj (Except.ok.inj (hstep.symm.trans hstep'))
      exact .inr hmeets
  · rintro (⟨rfl, rfl, rfl⟩ | hmeets)
    · exact .here
    · exact .later hstep hmeets

theorem drops_cons_iff (hstep : (first.replay live heap).result = .ok (live', next)) :
    Drops live heap (first :: steps) ↔ first.dropped live ≠ [] ∨ Drops live' next steps := by
  rw [dropped_ne_nil_iff]
  constructor
  · rintro ⟨slot, held, mid, hmeets, hheld⟩
    rcases (meets_cons_iff hstep).1 hmeets with ⟨rfl, rfl, rfl⟩ | hmeets
    · exact .inl ⟨slot, rfl, hheld⟩
    · exact .inr ⟨slot, held, mid, hmeets, hheld⟩
  · rintro (⟨slot, rfl, hlive⟩ | ⟨slot, held, mid, hmeets, hheld⟩)
    · exact ⟨slot, live, heap, .here, hlive⟩
    · exact ⟨slot, held, mid, .later hstep hmeets, hheld⟩

theorem Meets.mem (h : Meets live heap steps step held mid) : step ∈ steps := by
  induction h with
  | here => exact List.mem_cons_self
  | later _ _ ih => exact List.mem_cons_of_mem _ ih

/-- Steps without a move to nothing drop nothing. -/
theorem not_drops (h : ∀ slot, resize slot 0 ∉ steps) : ¬ Drops live heap steps := by
  rintro ⟨slot, held, mid, hmeets, -⟩
  exact h slot hmeets.mem

/-- As long as nothing is dropped, the row lists what is allocated. -/
theorem lists_of_meets (hmeets : Meets live heap steps step held mid)
    (h : Lists settings heap live []) (hsizes : ∀ step ∈ steps, step.size < wordLimit)
    (hnot : ¬ Drops live heap steps) : Lists settings mid held [] := by
  induction hmeets with
  | here => exact h
  | @later live live' held heap next mid first step rest hstep hmeets ih =>
    obtain ⟨hkept, hnot'⟩ := not_or.1 ((drops_cons_iff hstep).not.1 hnot)
    obtain ⟨live₁, next₁, hstep₁, hlists⟩ := lists_replay h first (hsizes first List.mem_cons_self)
      fun p hp => h.allocated (mem_of_handle? hp)
    obtain ⟨rfl, rfl⟩ := Prod.mk.inj (Except.ok.inj (hstep.symm.trans hstep₁))
    rw [not_not.1 hkept] at hlists
    exact ih hlists (fun s hs => hsizes s (List.mem_cons_of_mem _ hs)) hnot'

/-- **A replay that names allocated blocks only gets to its end,** and there the row has a stale
handle too many for each one that was dropped. -/
theorem lists_replayFrom (h : Lists settings heap live stale) (steps : List Step)
    (hsizes : ∀ step ∈ steps, step.size < wordLimit)
    (halloc : ∀ step held mid, Meets live heap steps step held mid →
      ∀ p, step.handle? held = some p → mid.Allocated p) :
    ∃ live' next lost, (replayFrom live heap steps).result = .ok (live', next) ∧
      Lists settings next live' (lost ++ stale) ∧ (lost = [] ↔ ¬ Drops live heap steps) := by
  induction steps generalizing live heap stale with
  | nil =>
    refine ⟨live, heap, [], rfl, h, ?_⟩
    simp only [true_iff]
    rintro ⟨slot, held, mid, hmeets, -⟩
    cases hmeets
  | cons first rest ih =>
    obtain ⟨live₁, heap₁, hstep, hlists⟩ := lists_replay h first (hsizes first List.mem_cons_self)
      (halloc first live heap .here)
    obtain ⟨live', next, lost, hrest, hlists', hlost⟩ := ih hlists
      (fun s hs => hsizes s (List.mem_cons_of_mem _ hs))
      fun step held mid hmeets => halloc step held mid (.later hstep hmeets)
    refine ⟨live', next, lost ++ first.dropped live, ?_, ?_, ?_⟩
    · simp only [replayFrom, Traced.result_bind, hstep, ok_bind, hrest]
    · rwa [List.append_assoc]
    · rw [drops_cons_iff hstep, not_or, ← hlost, List.append_eq_nil_iff, not_not, and_comm]

/-- Nothing is dropped, so all is as it should be. -/
theorem exact_of_not_drops (hmade : (Heap.create settings).result = .ok (.ok heap))
    (hsizes : ∀ step ∈ steps, step.size < wordLimit) (hnot : ¬ Drops [] heap steps) :
    ∃ live next, Exact heap steps live next := by
  have hfresh : Lists settings heap [] [] := ⟨[], _, (Heap.create_tracks hmade).1, .refl _⟩
  have hlegal : ∀ step held mid, Meets [] heap steps step held mid →
      ∀ p, step.handle? held = some p → mid.Allocated p := fun step held mid hmeets p hp =>
    (lists_of_meets hmeets hfresh hsizes hnot).allocated (mem_of_handle? hp)
  obtain ⟨live, next, lost, hdone, hlists, hlost⟩ := lists_replayFrom hfresh steps hsizes hlegal
  rw [hlost.2 hnot] at hlists
  obtain ⟨hnodup, hblocks, hvalidate⟩ := hlists.settled
  exact ⟨live, next, hdone, hnodup, hblocks, hvalidate, hlegal⟩

/-- **A replay is exact unless it drops a block.** Whatever the steps are, with any slots and any
sizes that a word can hold: if no move to nothing ever finds a handle to move, the row in the end is
the allocated blocks, and every handle on the way was good. If one does, something of that fails. -/
theorem replayAll_exact_iff (hmade : (Heap.create settings).result = .ok (.ok heap))
    (steps : List Step) (hsizes : ∀ step ∈ steps, step.size < wordLimit) :
    (∃ live next, Exact heap steps live next) ↔ ¬ Drops [] heap steps := by
  refine ⟨?_, exact_of_not_drops hmade hsizes⟩
  rintro ⟨live, next, hdone, hnodup, ⟨blocks, hblocks, hiff⟩, -, hlegal⟩
  have hfresh : Lists settings heap [] [] := ⟨[], _, (Heap.create_tracks hmade).1, .refl _⟩
  obtain ⟨live', next', lost, hdone', hlists, hlost⟩ :=
    lists_replayFrom hfresh steps hsizes hlegal
  obtain ⟨rfl, rfl⟩ := Prod.mk.inj (Except.ok.inj (hdone.symm.trans hdone'))
  rw [List.append_nil] at hlists
  exact hlost.1 (hlists.eq_nil hnodup fun p hp => ⟨blocks, hblocks, (hiff p).1 hp⟩)

/-- A move that grows the heap, slot numbers that wrap around, and a release. -/
theorem replayAll_exact_iff_small : ∃ heap live next,
    (Heap.create ⟨256, 64, .strict⟩).result = .ok (.ok heap) ∧
      (∀ step ∈ [allocate 20, resize 7 100, allocate 8, release 3], step.size < wordLimit) ∧
      Exact heap [allocate 20, resize 7 100, allocate 8, release 3] live next := by
  obtain ⟨heap, hmade⟩ : ∃ heap, (Heap.create ⟨256, 64, .strict⟩).result = .ok (.ok heap) :=
    Heap.create_eq_ok_iff.2 ⟨by constructor <;> decide, by decide, by decide⟩
  have hsizes : ∀ step ∈ [allocate 20, resize 7 100, allocate 8, release 3],
      step.size < wordLimit := by decide
  obtain ⟨live, next, hexact⟩ := (replayAll_exact_iff hmade _ hsizes).2 (not_drops (by simp))
  exact ⟨heap, live, next, hmade, hsizes, hexact⟩

/-- One block is moved to nothing. It is in the row at the end, though no block is allocated, and
whoever releases it then releases it for the second time. -/
theorem replayAll_drops_small : ∃ heap next,
    (Heap.create ⟨256, 64, .strict⟩).result = .ok (.ok heap) ∧
      (replayAll [allocate 8, resize 0 0] heap).result = .ok ([48], next) ∧
      (∀ p, ¬ next.Allocated p) ∧ ∀ live last, ¬ Exact heap [allocate 8, resize 0 0] live last := by
  obtain ⟨heap, hmade⟩ : ∃ heap, (Heap.create ⟨256, 64, .strict⟩).result = .ok (.ok heap) :=
    Heap.create_eq_ok_iff.2 ⟨by constructor <;> decide, by decide, by decide⟩
  obtain ⟨htracks, -⟩ := Heap.create_tracks hmade
  have hlegal : (Request.allocate 8).Legal heap [] := by
    show 8 < wordLimit
    decide
  obtain ⟨mid, ⟨hmid, -⟩, -, htracks₁⟩ := htracks.follow hlegal
  rw [htracks.settings_eq] at hmid
  have hallocate : (heap.allocate 8).result = .ok (some 48, mid) := hmid
  have hlegal₁ : (Request.resize (some 48) 0).Legal mid [48] :=
    Request.legal_resize (List.mem_singleton_self 48) (by decide)
  obtain ⟨next, ⟨hnext, -⟩, -, htracks₂⟩ := htracks₁.follow hlegal₁
  have hresize : (mid.resize (some 48) 0).result = .ok (none, next) := hnext
  have hnone : ∀ p, ¬ next.Allocated p := fun p hp => by cases htracks₂.mem_iff.2 hp
  have hrow : (replayAll [allocate 8, resize 0 0] heap).result = .ok ([48], next) := by
    have hslot : Slots.wrapped? [48] 0 = some 48 := rfl
    simp only [replayAll, replayFrom, replay, hallocate, hresize, hslot, Traced.result_bind,
      Traced.result_pure, ok_bind, List.nil_append]
  refine ⟨heap, next, hmade, hrow, hnone, fun live last hexact => ?_⟩
  obtain ⟨rfl, rfl⟩ := Prod.mk.inj (Except.ok.inj (hrow.symm.trans hexact.replayed))
  obtain ⟨blocks, hblocks, hiff⟩ := hexact.blocks_eq
  exact hnone 48 ⟨blocks, hblocks, (hiff 48).1 (List.mem_singleton_self 48)⟩

end Step
end BoundaryHeap
