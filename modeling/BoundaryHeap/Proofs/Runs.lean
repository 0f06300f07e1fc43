import BoundaryHeap.Proofs.Creation
import BoundaryHeap.Proofs.Steps

/-!
# Runs

A request to a heap and the same request to its map go together (`Models.follow`), so a whole
run does (`Reached.tracks`): the heap that a history leads to models the map that its requests lead
to, and the handles its user holds are the allocated blocks. **Whatever is true of all maps along
the abstract run is true of all heaps along the real one.**
-/

set_option autoImplicit false

namespace BoundaryHeap

variable {settings : Settings} {history : List Turn} {heap : Heap} {live : List Nat}
  {m m' : BlockMap} {request : Request} {answer : Option Nat} {c : Cell} {p n : Nat}

/-! ## One request -/

/-- The counters after a request with this answer, between these maps. -/
def Counters.after (k : Counters) (answer : Option Nat) (m m' : BlockMap) : Request → Counters
  | .allocate n => k.allocated n answer m m'
  | .release none => k
  | .release (some _) => { k with releases := k.releases + 1 }
  | .resize none n => k.allocated n answer m m'
  | .resize (some _) n =>
    if n = 0 then { k with releases := k.releases + 1 }
    else match answer with
    | none => k.allocated n none m m'
    | some q => { k.allocated n (some q) m m' with
        releases := k.releases + 1, resizes := k.resizes + 1 }
  | .store _ _ _ => k

namespace Heap

/-- The answer and the next heap are those of the map. -/
def Follows (heap : Heap) (m : BlockMap) (request : Request) (next : Heap) : Prop :=
  (request.perform heap).result = .ok ((m.perform heap.settings request).1, next) ∧
    next.settings = heap.settings ∧ next.Models (m.perform heap.settings request).2 ∧
    next.counters = heap.counters.after (m.perform heap.settings request).1 m
      (m.perform heap.settings request).2 request ∧
    heap.Spares next m (request.spent (m.perform heap.settings request).1)

theorem Models.release_spec (h : heap.Models m) (hp : m.Live p) :
    ∃ next, (heap.release (some p)).result = .ok next ∧ next.settings = heap.settings ∧
      next.Models (m.release p) ∧
      next.counters = { heap.counters with releases := heap.counters.releases + 1 } ∧
      heap.Spares next m (some p) := by
  obtain ⟨c, hc, rfl, hca⟩ := hp
  obtain ⟨b, hb, hmodels, hkeeps⟩ := h.releaseBlock_spec hc hca
  refine ⟨⟨b, heap.settings, { heap.counters with releases := heap.counters.releases + 1 }⟩, hb,
    rfl, hmodels _, rfl, fun d hd hda hne => hkeeps d hd hda fun heq => ?_⟩
  exact hne (congrArg some heq)

theorem perform_release {handle : Option Nat} {next : Heap}
    (h : (heap.release handle).result = .ok next) :
    ((Request.release handle).perform heap).result = .ok (none, next) := by
  simp only [Request.perform, h, Traced.result_bind, Traced.result_pure, ok_bind]

theorem Models.follow_release (h : heap.Models m) (hp : m.Live p) :
    ∃ next, heap.Follows m (.release (some p)) next := by
  obtain ⟨next, hnext, hset, hmodels, hcounters, hspares⟩ := h.release_spec hp
  exact ⟨next, perform_release hnext, hset, hmodels, hcounters, hspares⟩

theorem Models.follow_resize (h : heap.Models m) (hp : m.Live p) (n : Nat) :
    ∃ next, heap.Follows m (.resize (some p) n) next := by
  by_cases hzero : n = 0
  · subst hzero
    obtain ⟨next, hnext, hset, hmodels, hcounters, hspares⟩ := h.follow_release hp
    refine ⟨next, ?_, hset, hmodels, hcounters, hspares⟩
    exact hnext
  · obtain ⟨c, hc, rfl, hca⟩ := hp
    cases hall : m.allocate heap.settings n with
    | mk answer m' =>
      cases answer with
      | none =>
        obtain ⟨next, hnext, hset, hmodels, hcounters, hspares⟩ := h.allocate_spec n
        have hperform : m.perform heap.settings (.resize (some c.offset) n) = (none, m') := by
          simp only [BlockMap.perform, BlockMap.resize, if_neg hzero, hall]
        rw [hall] at hnext hmodels hcounters
        refine ⟨next, ?_, hset, ?_, ?_, ?_⟩
        · rw [hperform]
          simp only [Request.perform, resize, if_neg hzero, hnext, Traced.result_bind,
            Traced.result_pure, ok_bind]
        · rw [hperform]
          exact hmodels
        · rw [hperform, hcounters]
          simp only [Counters.after, if_neg hzero]
        · rw [hperform]
          simp only [Request.spent, Request.returned, Option.isSome_none, Bool.false_eq_true,
            hzero, or_self, if_false]
          exact hspares
      | some q =>
        obtain ⟨next, hnext, hset, hmodels, hcounters, hspares, -⟩ := h.move_spec hc hca hzero hall
        have hperform : m.perform heap.settings (.resize (some c.offset) n) =
            (some q, m'.release c.offset) := by
          simp only [BlockMap.perform, BlockMap.resize, if_neg hzero, hall]
        refine ⟨next, ?_, hset, ?_, ?_, ?_⟩
        · rw [hperform]
          exact hnext
        · rw [hperform]
          exact hmodels
        · have hstep := h.represents.wellFormed.step_allocate h.valid n
          rw [hall] at hstep
          have hmid : c ∈ m'.cells := hstep.keeps c hc hca (by simp)
          rw [hperform, hcounters]
          simp only [Counters.after, if_neg hzero, Counters.allocated, Counters.grown,
            (hstep.wellFormed.release hmid).2]
        · rw [hperform]
          exact hspares

theorem Models.follow_store {position : Nat} {data : ByteArray} (h : heap.Models m) (hp : m.Live p)
    (hfit : ∃ size, heap.writableSize p = .ok size ∧ position + data.size ≤ size) :
    ∃ next, heap.Follows m (.store p position data) next := by
  obtain ⟨c, hc, rfl, hca⟩ := hp
  obtain ⟨size, hsize, hle⟩ := hfit
  rw [h.writableSize_eq hc hca] at hsize
  obtain rfl := Except.ok.inj hsize
  have hcm := h.represents.wellFormed.mem hc
  obtain ⟨b, hb, -, hmodels, hkeeps⟩ := h.store_spec hc hca position data (by omega)
  refine ⟨⟨b, heap.settings, heap.counters⟩, ?_, rfl, hmodels, rfl,
    fun d hd hda hne => hkeeps d hd hda fun heq => hne (congrArg some heq)⟩
  simp only [Request.perform, hb, Traced.result_bind, Traced.result_lift, Traced.result_pure,
    ok_bind]
  rfl

/-- **Every legal request is answered, and the answer is the map's.** -/
theorem Models.follow (h : heap.Models m) (hlive : ∀ p ∈ live, m.Live p)
    (hlegal : request.Legal heap live) : ∃ next, heap.Follows m request next := by
  cases request with
  | allocate n => exact h.allocate_spec n
  | release handle =>
    cases handle with
    | none => exact ⟨heap, rfl, rfl, h, rfl, Spares.refl heap m none⟩
    | some p => exact h.follow_release (hlive p (hlegal.handle_mem rfl))
  | resize handle n =>
    cases handle with
    | none =>
      obtain ⟨next, hnext, hset, hmodels, hcounters, hspares⟩ := h.allocate_spec n
      refine ⟨next, hnext, hset, hmodels, hcounters, ?_⟩
      have hspent : (Request.resize none n).spent (m.allocate heap.settings n).1 = none :=
        ite_self _
      show heap.Spares next m ((Request.resize none n).spent (m.allocate heap.settings n).1)
      rw [hspent]
      exact hspares
    | some p => exact h.follow_resize (hlive p (hlegal.handle_mem rfl)) n
  | store p position data => exact h.follow_store (hlive p hlegal.1) hlegal.2

/-! ## Runs -/

/-- What is true of a heap of these settings whose user holds these handles. -/
structure Tracks (settings : Settings) (heap : Heap) (live : List Nat) (m : BlockMap) : Prop where
  models : heap.Models m
  settings_eq : heap.settings = settings
  room : 48 + settings.chunk ≤ m.brk
  live_iff : ∀ p, p ∈ live ↔ m.Live p
  nodup : live.Nodup

theorem Tracks.wellFormed (h : Tracks settings heap live m) : m.WellFormed :=
  h.models.represents.wellFormed

theorem Tracks.brk_eq (h : Tracks settings heap live m) : heap.arena.brk = m.brk :=
  h.models.represents.brk_eq

/-- The handles and the map take a step together with the heap. -/
theorem Tracks.follow (h : Tracks settings heap live m) (hlegal : request.Legal heap live) :
    ∃ next, heap.Follows m request next ∧
      m.Step (m.perform settings request).2 (m.perform settings request).1
        (request.returned (m.perform settings request).1) request.size ∧
      Tracks settings next (request.liveAfter live (m.perform settings request).1)
        (m.perform settings request).2 := by
  obtain ⟨hmodels, rfl, hroom, hlive, hnodup⟩ := h
  have hhandle : ∀ p, request.handle = some p → m.Live p := fun p hp =>
    (hlive p).1 (hlegal.handle_mem hp)
  have hstep := hmodels.represents.wellFormed.step hmodels.valid hhandle
  obtain ⟨next, hnext⟩ := hmodels.follow (fun p hp => (hlive p).1 hp) hlegal
  refine ⟨next, hnext, hstep, hnext.2.2.1, hnext.2.1, Nat.le_trans hroom hstep.brk_le, ?_, ?_⟩
  · rw [BlockMap.liveAfter_eq]
    exact hstep.live_iff hlive
  · rw [BlockMap.liveAfter_eq]
    exact hstep.nodup hlive hnodup

/-- The same for a request that was made. -/
theorem Tracks.done {next : Heap} (h : Tracks settings heap live m)
    (hlegal : request.Legal heap live)
    (hdone : (request.perform heap).result = .ok (answer, next)) :
    (m.perform settings request).1 = answer ∧
      Tracks settings next (request.liveAfter live answer) (m.perform settings request).2 ∧
      m.Step (m.perform settings request).2 answer (request.returned answer) request.size ∧
      next.counters = heap.counters.after answer m (m.perform settings request).2 request ∧
      heap.Spares next m (request.spent answer) := by
  obtain ⟨next', ⟨hresult, -, -, hcounters, hspares⟩, hstep, htracks⟩ := h.follow hlegal
  rw [h.settings_eq] at hresult hcounters hspares
  obtain ⟨rfl, rfl⟩ := Prod.mk.inj (Except.ok.inj (hresult.symm.trans hdone))
  exact ⟨rfl, htracks, hstep, hcounters, hspares⟩

/-- What is held then: the answer, and everything but what was given back. -/
theorem Tracks.held_after {next : Heap} (h : Tracks settings heap live m)
    (hlegal : request.Legal heap live)
    (hdone : (request.perform heap).result = .ok (answer, next)) :
    ∃ m', Tracks settings next
      (answer.toList ++ live.filter fun p => some p ≠ request.returned answer) m' := by
  obtain ⟨hanswer, htracks, -⟩ := h.done hlegal hdone
  rw [← hanswer, BlockMap.liveAfter_eq, hanswer] at htracks
  exact ⟨_, htracks⟩

theorem create_tracks (hmade : (create settings).result = .ok (.ok heap)) :
    Tracks settings heap [] (BlockMap.fresh settings) ∧ heap.counters = { extensions := 1 } := by
  obtain ⟨hvalid, hlt, hroom⟩ := create_eq_ok_iff.1 ⟨heap, hmade⟩
  obtain ⟨b, hb, hmodels⟩ := create_spec hvalid hlt hroom
  obtain rfl := Except.ok.inj (Except.ok.inj (hb.symm.trans hmade))
  refine ⟨⟨hmodels, rfl, Nat.le_refl _, fun p => ⟨fun hp => ?_, ?_⟩, List.nodup_nil⟩, rfl⟩
  · cases hp
  · rintro ⟨c, hc, -, hca⟩
    obtain rfl := List.mem_singleton.1 hc
    cases hca

/-- **The refinement along a run:** the induction on which everything else rests. -/
theorem Reached.tracks (reached : Reached settings history heap live) :
    (course settings (history.map Turn.request)).answers = history.map Turn.answer ∧
      (course settings (history.map Turn.request)).live = live ∧
      Tracks settings heap live (course settings (history.map Turn.request)).map := by
  induction reached with
  | create hmade => exact ⟨rfl, rfl, (create_tracks hmade).1⟩
  | step _ hlegal hdone ih =>
    obtain ⟨hanswers, hlive, htracks⟩ := ih
    obtain ⟨rfl, htracks', -⟩ := htracks.done hlegal hdone
    rw [List.map_append, List.map_append, List.map_singleton, List.map_singleton, course_concat]
    refine ⟨?_, ?_, htracks'⟩
    · rw [Course.next_answers, hanswers]
    · rw [Course.next_live, hlive]

/-! ## Every course is run -/

theorem Tracks.legal_of_admitted {s : Course} (h : Tracks settings heap s.live s.map)
    (hadmitted : request.Admitted s) : request.Legal heap s.live := by
  cases request with
  | allocate n => exact hadmitted
  | release handle => exact hadmitted
  | resize handle n => exact hadmitted
  | store p position data =>
    obtain ⟨hp, hfit⟩ := hadmitted
    obtain ⟨c, hc, rfl, hca⟩ := (h.live_iff p).1 hp
    rw [h.wellFormed.sizeAt_eq hc] at hfit
    exact ⟨hp, c.size - 16, h.models.writableSize_eq hc hca, hfit⟩

/-- A run can go on with any requests that the map says are legal. -/
theorem Reached.exists_run (reached : Reached settings history heap live) (requests : List Request)
    (hadmits : (course settings (history.map Turn.request)).Admits settings requests) :
    ∃ turns heap', turns.map Turn.request = requests ∧ Reached settings (history ++ turns) heap'
      (course settings (history.map Turn.request ++ requests)).live := by
  -- One request at a time: the run so far grows by it, and the course along with the run.
  induction requests generalizing history heap live with
  | nil =>
    refine ⟨[], heap, rfl, ?_⟩
    rw [List.append_nil, List.append_nil, reached.tracks.2.1]
    exact reached
  | cons request rest ih =>
    obtain ⟨-, hlive, htracks⟩ := reached.tracks
    obtain ⟨hadmitted, hrest⟩ := hadmits
    subst hlive
    obtain ⟨next, hnext, -⟩ := htracks.follow (htracks.legal_of_admitted hadmitted)
    have hstep := reached.step (htracks.legal_of_admitted hadmitted) hnext.1
    obtain ⟨turns, heap', hturns, hreached⟩ := ih hstep (by
      rw [List.map_append, List.map_singleton, course_concat]
      exact hrest)
    rw [List.map_append, List.append_assoc, List.append_assoc] at hreached
    refine ⟨_ ++ turns, heap', ?_, hreached⟩
    rw [List.map_append, hturns]
    rfl

theorem exists_reached (settings : Settings) (hvalid : settings.Valid)
    (hlt : settings.reserved < 0x8000000000000000) (hroom : 48 + settings.chunk ≤ settings.reserved)
    (requests : List Request) (hadmits : (Course.start settings).Admits settings requests) :
    ∃ history heap, history.map Turn.request = requests ∧
      Reached settings history heap (course settings requests).live := by
  obtain ⟨b, hb, -⟩ := create_spec hvalid hlt hroom
  exact (Reached.create hb).exists_run requests hadmits

end Heap
end BoundaryHeap
