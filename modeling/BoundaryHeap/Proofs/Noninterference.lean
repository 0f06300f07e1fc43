import BoundaryHeap.Proofs.Audits
import BoundaryHeap.Proofs.Runs

/-!
# What users write changes nothing

The bytes of a released block become links, and later tags, and nobody wipes them: any byte that was
ever stored may still lie where the allocator reads next. It never reads one that it did not write
first. **Two runs that differ only in what was stored cannot be told apart** (`reached_alike`): same
answers, same blocks, same order of the search, same counters, and each of the allocator's own words
means the same in both.

The proof looks at one run at a time. The `Transcript` of a run keeps the calls and drops the stores,
and since a handle may be another number in another run, it names each handle by the call that gave
it. `outcome` makes these calls of the abstract allocator, which has no bytes at all, and a heap is
what its transcript makes it (`Reached.enacts`). Two runs with the same calls then have the same map.
-/

set_option autoImplicit false

namespace BoundaryHeap

/-! ## Transcripts -/

/-- A request that is not a store. A handle is named by its age: how many calls were made after the
one that gave it. -/
inductive Call where
  | allocate (n : Nat)
  | release (handle : Option Nat)
  | resize (handle : Option Nat) (n : Nat)
deriving DecidableEq

/-- How many calls ago a handle was given, if these are the answers so far. -/
def age (answers : List (Option Nat)) (p : Nat) : Nat :=
  answers.reverse.idxOf (some p)

/-- The handle of some age. -/
def handleOfAge (answers : List (Option Nat)) (n : Nat) : Option Nat :=
  (answers.reverse[n]?).join

def Request.call? (answers : List (Option Nat)) : Request → Option Call
  | allocate n => some (.allocate n)
  | release handle => some (.release (handle.map (age answers)))
  | resize handle n => some (.resize (handle.map (age answers)) n)
  | store _ _ _ => none

def Call.toRequest (answers : List (Option Nat)) : Call → Request
  | allocate n => .allocate n
  | release handle => .release (handle.bind (handleOfAge answers))
  | resize handle n => .resize (handle.bind (handleOfAge answers)) n

/-- The calls of a run, and the answer to each. -/
structure Transcript where
  calls : List Call
  answers : List (Option Nat)

/-- A turn adds its call and its answer, and a store adds nothing. -/
def Transcript.next (s : Transcript) (request : Request) (answer : Option Nat) : Transcript :=
  match request.call? s.answers with
  | none => s
  | some call => ⟨s.calls ++ [call], s.answers ++ [answer]⟩

def transcript (history : List Turn) : Transcript :=
  history.foldl (fun s t => s.next t.request t.answer) ⟨[], []⟩

/-! ## The outcome of calls -/

/-- Where a sequence of calls leads: as a course of the abstract allocator, and in counters. -/
structure Outcome where
  course : Course
  counters : Counters

def Outcome.next (settings : Settings) (s : Outcome) (call : Call) : Outcome where
  course := s.course.next settings (call.toRequest s.course.answers)
  counters := s.counters.after (s.course.map.perform settings (call.toRequest s.course.answers)).1
    s.course.map (s.course.next settings (call.toRequest s.course.answers)).map
    (call.toRequest s.course.answers)

def outcome (settings : Settings) (calls : List Call) : Outcome :=
  calls.foldl (Outcome.next settings) ⟨Course.start settings, { extensions := 1 }⟩

variable {a b : Arena} {settings : Settings} {history history' front back : List Turn}
  {heap heap' next : Heap} {live live' ring : List Nat} {m : BlockMap} {request : Request}
  {answer : Option Nat} {answers : List (Option Nat)} {c : Cell} {call : Call} {s : Transcript}
  {p q : Nat}

/-! ## Stores leave no trace -/

theorem transcript_concat (history : List Turn) (t : Turn) :
    transcript (history ++ [t]) = (transcript history).next t.request t.answer := by
  rw [transcript, List.foldl_append]
  rfl

/-- A transcript is made of the requests and the answers, and of nothing else of a turn. -/
theorem transcript_eq_zip (history : List Turn) :
    transcript history = ((history.map Turn.request).zip (history.map Turn.answer)).foldl
      (fun s turn => s.next turn.1 turn.2) ⟨[], []⟩ := by
  rw [List.zip_map', List.foldl_map]
  rfl

theorem Transcript.next_of_store
    (h : request.call? s.answers = none) : s.next request answer = s := by
  rw [Transcript.next, h]

theorem Transcript.next_of_call
    (h : request.call? s.answers = some call) :
    s.next request answer = ⟨s.calls ++ [call], s.answers ++ [answer]⟩ := by
  rw [Transcript.next, h]

theorem handleOfAge_age (h : some p ∈ answers) : handleOfAge answers (age answers p) = some p := by
  rw [handleOfAge, age, List.getElem?_idxOf (List.mem_reverse.2 h)]
  rfl

theorem bind_handleOfAge {handle : Option Nat} (h : ∀ p, handle = some p → some p ∈ answers) :
    (handle.map (age answers)).bind (handleOfAge answers) = handle := by
  cases handle with
  | none => rfl
  | some p => exact handleOfAge_age (h p rfl)

/-- A call is the request again if its handle is the answer to some call. -/
theorem Request.toRequest_of_call? (h : ∀ p, request.handle = some p → some p ∈ answers)
    (hcall : request.call? answers = some call) : call.toRequest answers = request := by
  cases request with
  | allocate n =>
    obtain rfl := Option.some.inj hcall
    rfl
  | release handle =>
    obtain rfl := Option.some.inj hcall
    exact congrArg Request.release (bind_handleOfAge h)
  | resize handle n =>
    obtain rfl := Option.some.inj hcall
    exact congrArg (Request.resize · n) (bind_handleOfAge h)
  | store p position data => cases hcall

theorem outcome_concat (settings : Settings) (calls : List Call) (call : Call) :
    outcome settings (calls ++ [call]) = (outcome settings calls).next settings call := by
  rw [outcome, List.foldl_append]
  rfl

theorem mem_of_mem_liveAfter (h : p ∈ request.liveAfter live answer) :
    answer = some p ∨ p ∈ live := by
  cases request with
  | allocate n =>
    rcases List.mem_append.1 h with hnew | hold
    · exact .inl (Option.mem_toList.1 hnew)
    · exact .inr hold
  | release handle => exact .inr (List.mem_filter.1 h).1
  | resize handle n =>
    change p ∈ if _ then _ else _ at h
    split at h
    · rcases List.mem_append.1 h with hnew | hold
      · exact .inl (Option.mem_toList.1 hnew)
      · exact .inr (List.mem_filter.1 hold).1
    · exact .inr h
  | store q position data => exact .inr h

namespace Heap

/-- What is true of a heap whose run has this transcript. -/
structure Enacts (settings : Settings) (s : Transcript) (heap : Heap) (live : List Nat) : Prop where
  answers_eq : (outcome settings s.calls).course.answers = s.answers
  tracks : Tracks settings heap live (outcome settings s.calls).course.map
  counters_eq : heap.counters = (outcome settings s.calls).counters
  given : ∀ p ∈ live, some p ∈ s.answers

theorem Enacts.after_call
    (h : Enacts settings s heap live) (hlegal : request.Legal heap live)
    (hdone : (request.perform heap).result = .ok (answer, next))
    (hcall : request.call? s.answers = some call) :
    Enacts settings ⟨s.calls ++ [call], s.answers ++ [answer]⟩ next
      (request.liveAfter live answer) := by
  obtain ⟨hanswers, htracks, hcounters, hgiven⟩ := h
  obtain ⟨hanswer, htracks', -, hcounters', -⟩ := htracks.done hlegal hdone
  have hrequest : call.toRequest s.answers = request :=
    Request.toRequest_of_call? (fun p hp => hgiven p (hlegal.handle_mem hp)) hcall
  refine ⟨?_, ?_, ?_, ?_⟩
  · simp only [outcome_concat, Outcome.next, hanswers, hrequest]
    rw [Course.next_answers, hanswers, hanswer]
  · simp only [outcome_concat, Outcome.next, hanswers, hrequest]
    exact htracks'
  · simp only [outcome_concat, Outcome.next, hanswers, hrequest]
    rw [hcounters', hcounters, hanswer]
    rfl
  · intro p hp
    rcases mem_of_mem_liveAfter hp with rfl | hold
    · simp
    · exact List.mem_append_left _ (hgiven p hold)

theorem Enacts.after_store
    (h : Enacts settings s heap live) (hlegal : request.Legal heap live)
    (hdone : (request.perform heap).result = .ok (answer, next))
    (hcall : request.call? s.answers = none) :
    Enacts settings s next (request.liveAfter live answer) := by
  cases request with
  | allocate n => cases hcall
  | release handle => cases hcall
  | resize handle n => cases hcall
  | store q position data =>
    obtain ⟨hanswers, htracks, hcounters, hgiven⟩ := h
    obtain ⟨-, htracks', -, hcounters', -⟩ := htracks.done hlegal hdone
    exact ⟨hanswers, htracks', hcounters'.trans hcounters, hgiven⟩

/-- **A heap is what the calls make it,** whatever was stored meanwhile. -/
theorem Reached.enacts (reached : Reached settings history heap live) :
    Enacts settings (transcript history) heap live := by
  induction reached with
  | create hmade =>
    obtain ⟨htracks, hcounters⟩ := create_tracks hmade
    refine ⟨rfl, htracks, hcounters, ?_⟩
    intro p hp
    cases hp
  | @step history heap next live request answer _ hlegal hdone ih =>
    rw [transcript_concat]
    cases hcall : request.call? (transcript history).answers with
    | none =>
      rw [Transcript.next_of_store hcall]
      exact ih.after_store hlegal hdone hcall
    | some call =>
      rw [Transcript.next_of_call hcall]
      exact ih.after_call hlegal hdone hcall

/-- A run was under way at every moment of its history. -/
theorem Reached.earlier (reached : Reached settings (front ++ back) heap live) :
    ∃ mid held, Reached settings front mid held := by
  generalize hall : front ++ back = history at reached
  induction reached generalizing back with
  | create hmade =>
    obtain ⟨rfl, rfl⟩ := List.append_eq_nil_iff.1 hall
    exact ⟨_, _, .create hmade⟩
  | @step history heap next live request answer reached hlegal hdone ih =>
    rcases List.eq_nil_or_concat back with rfl | ⟨rest, t, rfl⟩
    · rw [List.append_nil] at hall
      subst hall
      exact ⟨_, _, .step reached hlegal hdone⟩
    · rw [List.concat_eq_append, ← List.append_assoc] at hall
      exact ih (List.append_inj' hall rfl).1

end Heap

theorem Transcript.next_prefix (s : Transcript) (t : Turn) :
    s.calls <+: (s.next t.request t.answer).calls := by
  unfold Transcript.next
  split
  · exact List.prefix_rfl
  · exact List.prefix_append _ _

/-- The calls of a longer run begin with those of a shorter one. -/
theorem transcript_prefix (front back : List Turn) :
    (transcript front).calls <+: (transcript (front ++ back)).calls := by
  induction back using List.reverseRecOn with
  | nil => simp only [List.append_nil, List.prefix_rfl]
  | append_singleton back t ih =>
    rw [← List.append_assoc, transcript_concat]
    exact ih.trans (Transcript.next_prefix _ t)

/-! ## Heaps that look the same -/

namespace Arena

/-- Tags that say the same of a block are the same. -/
theorem Tagged.tagAt_congr (ha : a.Tagged c) (hb : b.Tagged c) :
    a.tagAt (c.offset - 8) = b.tagAt (c.offset - 8) ∧
      a.tagAt (c.offset + c.size - 16) = b.tagAt (c.offset + c.size - 16) := by
  obtain ⟨s, hsize, halloc, hhead, hfoot⟩ := ha
  obtain ⟨t, hsize', halloc', hhead', hfoot'⟩ := hb
  obtain rfl : s = t := Tag.ext' (hsize.trans hsize'.symm) (halloc.trans halloc'.symm)
  exact ⟨hhead.trans hhead'.symm, hfoot.trans hfoot'.symm⟩

theorem IsRing.prevLink_prologue (h : a.IsRing ring) :
    a.prevLink prologue = .ok (ring.getLastD prologue) := by
  rcases List.eq_nil_or_concat ring with rfl | ⟨xs, q, rfl⟩
  · exact (List.isChain_pair.1 h.linked).2
  · have hlast : a.IsRing (xs ++ [q] ++ []) := by
      rw [List.append_nil, ← List.concat_eq_append]
      exact h
    rw [List.concat_eq_append, List.getLastD_concat]
    exact hlast.adjacent.2.2

/-- Rings of the same nodes have the same links. -/
theorem IsRing.links_congr (ha : a.IsRing ring) (hb : b.IsRing ring)
    (hq : q = prologue ∨ q ∈ ring) : a.links q = b.links q := by
  rcases hq with rfl | hq
  · simp only [links, ha.prevLink_prologue, hb.prevLink_prologue, ha.nextLink_prologue,
      hb.nextLink_prologue]
  · obtain ⟨xs, ys, rfl⟩ := List.append_of_mem hq
    rw [← List.singleton_append, ← List.append_assoc] at ha hb
    rw [ha.links_eq, hb.links_eq]

end Arena

namespace Heap

/-- Nobody who asks only the allocator can tell the two heaps apart. All that it reads itself is
the same in both: every tag, those of the sentinels among them, and every pair of links. -/
structure Alike (x y : Heap) : Prop where
  brk_eq : x.arena.brk = y.arena.brk
  counters_eq : x.counters = y.counters
  blocks_eq : ∃ blocks, x.blocks = .ok blocks ∧ y.blocks = .ok blocks ∧
    ∀ w ∈ [8, 32, x.arena.brk - 8] ++
      blocks.flatMap (fun b => [b.payload - 8, b.payload + b.tag.size - 16]),
      x.arena.tagAt w = y.arena.tagAt w
  nodes_eq : ∃ ring, x.arena.nodes = .ok ring ∧ y.arena.nodes = .ok ring ∧
    ∀ q ∈ prologue :: ring, x.arena.links q = y.arena.links q
  freeBlocks_eq : ∀ count, ∃ free, x.freeBlocks count = .ok free ∧ y.freeBlocks count = .ok free
  stats_eq : ∃ stats, x.stats = .ok stats ∧ y.stats = .ok stats

/-- Heaps that model the same map differ in contents only. -/
theorem Models.alike (h : heap.Models m) (h' : heap'.Models m)
    (hcounters : heap.counters = heap'.counters) : heap.Alike heap' := by
  have hbrk : heap.arena.brk = heap'.arena.brk :=
    h.represents.brk_eq.trans h'.represents.brk_eq.symm
  obtain ⟨blocks, hsound, hsound', hcells⟩ := h.represents.sound_congr h'.represents rfl
  refine ⟨hbrk, hcounters, ⟨blocks, hsound.blocks_eq, hsound'.blocks_eq, ?_⟩,
    ⟨m.ring, h.represents.nodes_eq, h'.represents.nodes_eq, ?_⟩, ?_,
    ⟨_, hsound.stats_eq, hbrk ▸ hsound'.stats_eq⟩⟩
  · intro w hw
    have hsentinel := h.represents.sentinel.tagAt_congr h'.represents.sentinel
    simp only [List.mem_append, List.mem_flatMap, List.mem_cons, List.not_mem_nil, or_false] at hw
    rcases hw with (rfl | rfl | rfl) | ⟨d, hd, hw⟩
    · exact hsentinel.1
    · exact hsentinel.2
    · rw [h.represents.epilogue, hbrk, h'.represents.epilogue]
    · have hcell : d.cell ∈ m.cells := hcells ▸ List.mem_map_of_mem hd
      have htags := (h.represents.tags _ hcell).tagAt_congr (h'.represents.tags _ hcell)
      rcases hw with rfl | rfl
      · exact htags.1
      · exact htags.2
  · intro q hq
    exact h.represents.isRing.links_congr h'.represents.isRing (List.mem_cons.1 hq)
  · intro count
    obtain ⟨free, hfree, hmap⟩ := h.represents.freeBlocks_eq count
    obtain ⟨free', hfree', hmap'⟩ := h'.represents.freeBlocks_eq count
    obtain rfl : free = free' := Block.eq_of_cells (hmap.trans hmap'.symm)
    exact ⟨free, hfree, hfree'⟩

/-- The same calls, with whatever stores between them, make heaps that look the same. -/
theorem Enacts.alike {s s' : Transcript} (h : Enacts settings s heap live)
    (h' : Enacts settings s' heap' live') (hcalls : s.calls = s'.calls) :
    s.answers = s'.answers ∧ (∀ p, p ∈ live ↔ p ∈ live') ∧ heap.Alike heap' := by
  obtain ⟨hanswers, htracks, hcounters, -⟩ := h
  obtain ⟨hanswers', htracks', hcounters', -⟩ := h'
  rw [← hcalls] at hanswers' htracks' hcounters'
  refine ⟨hanswers.symm.trans hanswers', ?_,
    htracks.models.alike htracks'.models (hcounters.trans hcounters'.symm)⟩
  intro p
  exact (htracks.live_iff p).trans (htracks'.live_iff p).symm

/-- **What users write changes nothing.** Two runs that make the same calls get the same answers,
and at every moment, that is after equally many calls on either side, their heaps look the same. -/
theorem reached_alike (reached : Reached settings history heap live)
    (reached' : Reached settings history' heap' live')
    (hcalls : (transcript history).calls = (transcript history').calls) :
    (transcript history).answers = (transcript history').answers ∧
      (∀ p, p ∈ live ↔ p ∈ live') ∧ heap.Alike heap' ∧
      ∀ front back front' back' : List Turn, front ++ back = history → front' ++ back' = history' →
        (transcript front).calls.length = (transcript front').calls.length →
        ∃ mid held mid' held', Reached settings front mid held ∧
          Reached settings front' mid' held' ∧
          (transcript front).answers = (transcript front').answers ∧
          (∀ p, p ∈ held ↔ p ∈ held') ∧ mid.Alike mid' := by
  obtain ⟨hanswers, hlive, halike⟩ := reached.enacts.alike reached'.enacts hcalls
  refine ⟨hanswers, hlive, halike, ?_⟩
  rintro front back front' back' rfl rfl hlength
  obtain ⟨mid, held, hmid⟩ := reached.earlier
  obtain ⟨mid', held', hmid'⟩ := reached'.earlier
  have hfront := transcript_prefix front back
  have hfront' := transcript_prefix front' back'
  rw [← hcalls] at hfront'
  have hsame : (transcript front).calls = (transcript front').calls :=
    (List.prefix_of_prefix_length_le hfront hfront' (Nat.le_of_eq hlength)).eq_of_length hlength
  exact ⟨mid, held, mid', held', hmid, hmid', hmid.enacts.alike hmid'.enacts hsame⟩

/-- Three bytes in a block that is released, against one byte in a block that stays. -/
theorem reached_alike_small : ∃ history history' heap heap',
    history.map Turn.request =
      [.allocate 20, .store 48 1 ⟨#[7, 8, 9]⟩, .allocate 100, .release (some 48)] ∧
    history'.map Turn.request =
      [.allocate 20, .allocate 100, .store 112 0 ⟨#[5]⟩, .release (some 48)] ∧
    Reached ⟨256, 64, .strict⟩ history heap [112] ∧
    Reached ⟨256, 64, .strict⟩ history' heap' [112] ∧
    (transcript history).calls = (transcript history').calls ∧ heap.Alike heap' := by
  obtain ⟨history, heap, hrequests, hreached⟩ :=
    exists_reached ⟨256, 64, .strict⟩ (by constructor <;> decide) (by decide) (by decide)
      [.allocate 20, .store 48 1 ⟨#[7, 8, 9]⟩, .allocate 100, .release (some 48)] (by decide)
  obtain ⟨history', heap', hrequests', hreached'⟩ :=
    exists_reached ⟨256, 64, .strict⟩ (by constructor <;> decide) (by decide) (by decide)
      [.allocate 20, .allocate 100, .store 112 0 ⟨#[5]⟩, .release (some 48)] (by decide)
  have hanswers : history.map Turn.answer = [some 48, none, some 112, none] := by
    rw [← hreached.tracks.1, hrequests]
    decide
  have hanswers' : history'.map Turn.answer = [some 48, some 112, none, none] := by
    rw [← hreached'.tracks.1, hrequests']
    decide
  have hcalls : (transcript history).calls = (transcript history').calls := by
    rw [transcript_eq_zip, transcript_eq_zip, hrequests, hrequests', hanswers, hanswers']
    decide
  obtain ⟨-, -, halike, -⟩ := reached_alike hreached hreached' hcalls
  exact ⟨history, history', heap, heap', hrequests, hrequests', hreached, hreached', hcalls,
    halike⟩

end Heap
end BoundaryHeap
