import BoundaryHeap.Heap.Run
import BoundaryHeap.Proofs.Maps

/-!
# What a request does to a map

The abstract allocator as a machine: `BlockMap.perform` is one request, `course` a whole sequence
of them to a new heap. What its users care about is `BlockMap.Step`: the allocated blocks
afterwards are those from before, each of the same size, without the one that was given back and
with the one that was handed out. **From this the live handles and the allocated blocks stay the
same thing** (`Step.live_iff`).
-/

set_option autoImplicit false

namespace BoundaryHeap

/-! ## Requests -/

namespace Request

/-- The handle that is given back, if any. A move that gets nothing gives nothing back. -/
def returned (answer : Option Nat) : Request → Option Nat
  | allocate _ => none
  | release handle => handle
  | resize handle n => if answer.isSome ∨ n = 0 then handle else none
  | store _ _ _ => none

/-- The handle whose contents need not be what they were. -/
def spent (answer : Option Nat) : Request → Option Nat
  | store p _ _ => some p
  | request => request.returned answer

/-- The bytes that are asked for. -/
def size : Request → Nat
  | allocate n => n
  | resize _ n => n
  | release _ => 0
  | store _ _ _ => 0

/-- The handles that the request names. -/
def handle : Request → Option Nat
  | allocate _ => none
  | release handle => handle
  | resize handle _ => handle
  | store p _ _ => some p

theorem legal_release {heap : Heap} {live : List Nat} {p : Nat} (hp : p ∈ live) :
    (release (some p)).Legal heap live := fun q hq => by
  obtain rfl := Option.some.inj hq
  exact hp

theorem legal_resize {heap : Heap} {live : List Nat} {p n : Nat} (hp : p ∈ live)
    (hn : n < wordLimit) : (resize (some p) n).Legal heap live :=
  ⟨fun q hq => by obtain rfl := Option.some.inj hq; exact hp, hn⟩

/-- What is given back is spent. -/
theorem spent_of_returned {request : Request} {answer : Option Nat} {p : Nat}
    (h : request.returned answer = some p) : request.spent answer = some p := by
  cases request with
  | allocate n => exact h
  | release handle => exact h
  | resize handle n => exact h
  | store q position data => cases h

theorem returned_of_spent {request : Request} {answer : Option Nat}
    (h : request.spent answer = none) : request.returned answer = none := by
  cases request with
  | allocate n => exact h
  | release handle => exact h
  | resize handle n => exact h
  | store q position data => cases h

theorem Legal.handle_mem {heap : Heap} {live : List Nat} {request : Request} {p : Nat}
    (h : request.Legal heap live) (hp : request.handle = some p) : p ∈ live := by
  cases request with
  | allocate n => cases hp
  | release handle => exact h p hp
  | resize handle n => exact h.1 p hp
  | store q position data =>
    obtain rfl := Option.some.inj hp
    exact h.1

end Request

namespace BlockMap

variable {m m' m'' : BlockMap} {c : Cell} {p q n : Nat} {answer : Option Nat} {live : List Nat}
  {settings : Settings} {request : Request}

/-- The answer to a request, and the map after it. -/
def perform (settings : Settings) (m : BlockMap) : Request → Option Nat × BlockMap
  | .allocate n => m.allocate settings n
  | .release none => (none, m)
  | .release (some p) => (none, m.release p)
  | .resize none n => m.allocate settings n
  | .resize (some p) n => m.resize settings p n
  | .store _ _ _ => (none, m)

/-! ## Steps -/

/-- The allocated blocks of one map and the next: all but the one given back stay, and what is new
is the answer, which nobody had. -/
structure Step (m m' : BlockMap) (answer returned : Option Nat) (n : Nat) : Prop where
  wellFormed : m'.WellFormed
  brk_le : m.brk ≤ m'.brk
  keeps : ∀ c ∈ m.cells, c.allocated = true → some c.offset ≠ returned → c ∈ m'.cells
  origin : ∀ c ∈ m'.cells, c.allocated = true →
    (c ∈ m.cells ∧ some c.offset ≠ returned) ∨ (answer = some c.offset ∧ n + 16 ≤ c.size)
  fresh : ∀ q, answer = some q → ¬ m.Live q ∧ m'.Live q

theorem Step.refl (h : m.WellFormed) (n : Nat) : m.Step m none none n :=
  ⟨h, Nat.le_refl _, fun _ hc _ _ => hc, fun _ hc _ => .inl ⟨hc, by simp⟩, fun q hq => by cases hq⟩

theorem WellFormed.step_allocate (h : m.WellFormed) (hvalid : settings.Valid) (n : Nat) :
    m.Step (m.allocate settings n).2 (m.allocate settings n).1 none n := by
  cases hall : m.allocate settings n with
  | mk answer m' =>
    cases answer with
    | none =>
      obtain rfl := allocate_eq_none hall
      exact Step.refl h n
    | some q =>
      obtain ⟨hwf, hbrk, hnew, -, e, rfl, heq, hlen, hcells⟩ := h.allocate hvalid hall
      refine ⟨hwf, hbrk, fun c hc hca _ => ((hcells c).2 (.inl ⟨hc, hca⟩)).1, ?_, ?_⟩
      · intro c hc hca
        rcases (hcells c).1 ⟨hc, hca⟩ with ⟨hold, -⟩ | rfl
        · exact .inl ⟨hold, by simp⟩
        · exact .inr ⟨rfl, hlen⟩
      · intro q hq
        obtain rfl := Option.some.inj hq
        exact ⟨hnew, e, ((hcells e).2 (.inr rfl)).1, rfl, heq⟩

theorem WellFormed.step_release (h : m.WellFormed) (hp : m.Live p) (n : Nat) :
    m.Step (m.release p) none (some p) n := by
  obtain ⟨c, hc, rfl, -⟩ := hp
  obtain ⟨hwf, hbrk⟩ := h.release hc
  refine ⟨hwf, Nat.le_of_eq hbrk.symm, ?_, ?_, ?_⟩
  · intro d hd hda hne
    exact ((h.allocated_release hc).2 ⟨⟨hd, hda⟩, fun heq => hne (congrArg some heq)⟩).1
  · intro d hd hda
    obtain ⟨⟨hold, -⟩, hne⟩ := (h.allocated_release hc).1 ⟨hd, hda⟩
    exact .inl ⟨hold, fun heq => hne (Option.some.inj heq)⟩
  · intro q hq
    cases hq

/-- A move is an allocation and a release, in this order. -/
theorem Step.release (h : m.Step m' (some q) none n) (hp : m.Live p) :
    m.Step (m'.release p) (some q) (some p) n := by
  obtain ⟨c, hc, rfl, hca⟩ := hp
  have hp' : m'.Live c.offset := ⟨c, h.keeps c hc hca (by simp), rfl, hca⟩
  have hstep := h.wellFormed.step_release hp' n
  obtain ⟨hnew, e, he, rfl, hea⟩ := h.fresh q rfl
  -- The old block was live all along, so the new one is another and outlives the release.
  have hne : some e.offset ≠ some c.offset := fun heq =>
    hnew ⟨c, hc, (Option.some.inj heq).symm, hca⟩
  refine ⟨hstep.wellFormed, Nat.le_trans h.brk_le hstep.brk_le, ?_, ?_, ?_⟩
  · intro d hd hda hdne
    exact hstep.keeps d (h.keeps d hd hda (by simp)) hda hdne
  · intro d hd hda
    rcases hstep.origin d hd hda with ⟨hmid, hdne⟩ | ⟨hnone, -⟩
    · exact (h.origin d hmid hda).imp_left fun hold => ⟨hold.1, hdne⟩
    · cases hnone
  · intro r hr
    obtain rfl := Option.some.inj hr
    exact ⟨hnew, e, hstep.keeps e he hea hne, rfl, hea⟩

theorem WellFormed.step_resize (h : m.WellFormed) (hvalid : settings.Valid) (hp : m.Live p)
    (n : Nat) :
    m.Step (m.resize settings p n).2 (m.resize settings p n).1
      (if (m.resize settings p n).1.isSome ∨ n = 0 then some p else none) n := by
  unfold BlockMap.resize
  by_cases hzero : n = 0
  · rw [if_pos hzero, if_pos (.inr hzero)]
    exact h.step_release hp n
  · have hstep := h.step_allocate hvalid n
    rw [if_neg hzero]
    cases hall : m.allocate settings n with
    | mk answer m' =>
      rw [hall] at hstep
      cases answer with
      | none =>
        rw [if_neg (by simp [hzero])]
        exact hstep
      | some q =>
        rw [if_pos (.inl rfl)]
        exact hstep.release hp

/-- **What every request does to the allocated blocks.** -/
theorem WellFormed.step (h : m.WellFormed) (hvalid : settings.Valid)
    (hhandle : ∀ p, request.handle = some p → m.Live p) :
    m.Step (m.perform settings request).2 (m.perform settings request).1
      (request.returned (m.perform settings request).1) request.size := by
  cases request with
  | allocate n => exact h.step_allocate hvalid n
  | release handle =>
    cases handle with
    | none => exact Step.refl h 0
    | some p => exact h.step_release (hhandle p rfl) 0
  | resize handle n =>
    cases handle with
    | none =>
      show m.Step (m.allocate settings n).2 (m.allocate settings n).1 (if _ then none else none) n
      rw [ite_self]
      exact h.step_allocate hvalid n
    | some p => exact h.step_resize hvalid (hhandle p rfl) n
  | store p position data => exact Step.refl h 0

/-- What is handed out is an allocated block, long enough, where there was none. -/
theorem Step.answered {returned : Option Nat} (h : m.Step m' (some q) returned n) :
    ∃ c ∈ m'.cells, c.offset = q ∧ c.allocated = true ∧ n + 16 ≤ c.size ∧ ¬ m.Live q := by
  obtain ⟨hnew, c, hc, rfl, hca⟩ := h.fresh q rfl
  rcases h.origin c hc hca with ⟨hold, -⟩ | ⟨-, hlen⟩
  · exact absurd ⟨c, hold, rfl, hca⟩ hnew
  · exact ⟨c, hc, rfl, hca, hlen, hnew⟩

/-! ## Live handles -/

/-- What a user holds afterwards: the answer, and everything but what was given back. -/
theorem liveAfter_eq (settings : Settings) (m : BlockMap) (request : Request) (live : List Nat) :
    request.liveAfter live (m.perform settings request).1 =
      (m.perform settings request).1.toList ++
        live.filter fun p => some p ≠ request.returned (m.perform settings request).1 := by
  have hall : live.filter (fun p => some p ≠ none) = live :=
    List.filter_eq_self.2 fun p _ => by simp
  cases request with
  | allocate n =>
    show _ = _ ++ live.filter fun p => some p ≠ none
    rw [hall]
    rfl
  | release handle =>
    cases handle with
    | none => rfl
    | some p => rfl
  | resize handle n =>
    by_cases hback : (m.perform settings (.resize handle n)).1.isSome ∨ n = 0
    · have hreturned : (Request.resize handle n).returned
          (m.perform settings (.resize handle n)).1 = handle := if_pos hback
      simp only [hreturned]
      exact if_pos hback
    · have hreturned : (Request.resize handle n).returned
          (m.perform settings (.resize handle n)).1 = none := if_neg hback
      have hnone : (m.perform settings (.resize handle n)).1 = none := by
        cases hanswer : (m.perform settings (.resize handle n)).1 with
        | none => rfl
        | some q => exact absurd (.inl (by rw [hanswer]; rfl)) hback
      have hkept : (Request.resize handle n).liveAfter live
          (m.perform settings (.resize handle n)).1 = live := if_neg hback
      simp only [hkept, hreturned]
      rw [hall, hnone]
      rfl
  | store p position data =>
    show live = [] ++ live.filter fun p => some p ≠ none
    rw [hall]
    rfl

theorem Step.live_iff {returned : Option Nat} (h : m.Step m' answer returned n)
    (hlive : ∀ p, p ∈ live ↔ m.Live p) (p : Nat) :
    p ∈ answer.toList ++ live.filter (fun p => some p ≠ returned) ↔ m'.Live p := by
  rw [List.mem_append, List.mem_filter, Option.mem_toList]
  constructor
  · rintro (hanswer | ⟨hp, hne⟩)
    · exact (h.fresh p hanswer).2
    · obtain ⟨c, hc, rfl, hca⟩ := (hlive p).1 hp
      exact ⟨c, h.keeps c hc hca (by simpa using hne), rfl, hca⟩
  · rintro ⟨c, hc, rfl, hca⟩
    rcases h.origin c hc hca with ⟨hold, hne⟩ | ⟨hanswer, -⟩
    · exact .inr ⟨(hlive c.offset).2 ⟨c, hold, rfl, hca⟩, by simpa using hne⟩
    · exact .inl hanswer

theorem Step.nodup {returned : Option Nat} (h : m.Step m' answer returned n)
    (hlive : ∀ p, p ∈ live ↔ m.Live p) (hnodup : live.Nodup) :
    (answer.toList ++ live.filter fun p => some p ≠ returned).Nodup := by
  have hkept : (live.filter fun p => some p ≠ returned).Nodup := hnodup.filter _
  cases answer with
  | none => exact hkept
  | some q =>
    refine List.nodup_cons.2 ⟨?_, hkept⟩
    intro hmem
    exact (h.fresh q rfl).1 ((hlive q).1 (List.mem_filter.1 hmem).1)

end BlockMap

/-! ## Courses -/

/-- Where a sequence of requests has led: the answers so far, the map, and the live handles. -/
structure Course where
  answers : List (Option Nat)
  map : BlockMap
  live : List Nat

namespace Course

def start (settings : Settings) : Course :=
  ⟨[], BlockMap.fresh settings, []⟩

def next (settings : Settings) (s : Course) (request : Request) : Course :=
  let (answer, m) := s.map.perform settings request
  ⟨s.answers ++ [answer], m, request.liveAfter s.live answer⟩

theorem next_answers (settings : Settings) (s : Course) (request : Request) :
    (s.next settings request).answers = s.answers ++ [(s.map.perform settings request).1] := rfl

theorem next_live (settings : Settings) (s : Course) (request : Request) :
    (s.next settings request).live =
      request.liveAfter s.live (s.map.perform settings request).1 := rfl

end Course

/-- What requests made one after the other of a new heap lead to. -/
def course (settings : Settings) (requests : List Request) : Course :=
  requests.foldl (Course.next settings) (Course.start settings)

theorem course_concat (settings : Settings) (requests : List Request) (request : Request) :
    course settings (requests ++ [request]) = (course settings requests).next settings request := by
  rw [course, List.foldl_append]
  rfl

namespace Request

/-- Legal as far as the map can tell. -/
def Admitted (s : Course) : Request → Prop
  | allocate n => n < wordLimit
  | release handle => ∀ p ∈ handle, p ∈ s.live
  | resize handle n => (∀ p ∈ handle, p ∈ s.live) ∧ n < wordLimit
  | store p position data => p ∈ s.live ∧ position + data.size ≤ s.map.sizeAt p - 16

instance (s : Course) (request : Request) : Decidable (request.Admitted s) := by
  unfold Admitted
  split <;> infer_instance

end Request

/-- Each of the requests is legal when its turn comes. -/
def Course.Admits (settings : Settings) : Course → List Request → Prop
  | _, [] => True
  | s, request :: rest => request.Admitted s ∧ (s.next settings request).Admits settings rest

instance Course.decidableAdmits (settings : Settings) :
    (s : Course) → (requests : List Request) → Decidable (s.Admits settings requests)
  | _, [] => inferInstanceAs (Decidable True)
  | s, request :: rest =>
    have := decidableAdmits settings (s.next settings request) rest
    inferInstanceAs (Decidable (_ ∧ _))

end BoundaryHeap
