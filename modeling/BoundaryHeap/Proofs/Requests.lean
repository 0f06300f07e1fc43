import BoundaryHeap.Heap.Run
import BoundaryHeap.Proofs.Placing

/-!
# Requests on the map

A heap models a block map if its bytes represent the map and it was made from valid settings. Every
request then does to the heap what the operation of the same name does to the map: it is answered,
the answer is the map's, and the heap afterwards models the map afterwards. **No allocated block
loses a byte by a request that does not name it** (`Arena.Keeps`).
-/

set_option autoImplicit false

namespace BoundaryHeap

variable {a b : Arena} {m m' : BlockMap} {c d : Cell} {heap next : Heap} {n p q size count : Nat}

/-! ## Payload bytes -/

/-- The payload bytes of the block are in `b` what they are in `a`. -/
def Arena.Keeps (a b : Arena) (c : Cell) : Prop :=
  ∀ i, c.offset ≤ i → i + 16 < c.offset + c.size → b.byte? i = a.byte? i

namespace Arena

theorem Keeps.refl (a : Arena) (c : Cell) : a.Keeps a c := fun _ _ _ => rfl

theorem Keeps.trans {x : Arena} (hab : a.Keeps b c) (hbx : b.Keeps x c) : a.Keeps x c :=
  fun i hlo hhi => (hbx i hlo hhi).trans (hab i hlo hhi)

theorem Confined.keeps {lo hi : Nat} (hconf : a.Confined m lo hi b) (h : a.Represents m)
    (hc : c ∈ m.cells) (halloc : c.allocated = true)
    (hout : c.offset + c.size ≤ lo ∨ hi ≤ c.offset) : a.Keeps b c :=
  fun _ hlo hhi => h.kept hconf hc halloc hout hlo hhi

/-- Writing inside the payload of an allocated block changes no tag and no link, and no byte of
another block. -/
theorem Represents.write_spec (h : a.Represents m) (hc : c ∈ m.cells) (halloc : c.allocated = true)
    (start : Nat) (data : ByteArray) (hlo : c.offset ≤ start)
    (hhi : start + data.size + 16 ≤ c.offset + c.size) :
    ∃ b, a.write start data = .ok b ∧ b.Represents m ∧ b.reserved = a.reserved ∧
      ∀ d ∈ m.cells, d.allocated = true → d.offset ≠ c.offset → a.Keeps b d := by
  have hwf := h.wellFormed
  have hcm := hwf.mem hc
  have hbrk := h.brk_eq
  obtain ⟨b, hb⟩ : ∃ b, a.write start data = .ok b := write_isOk_iff.2 (by omega)
  have hbrk' : b.brk = a.brk := brk_of_write hb
  have hword : ∀ o, o + 8 ≤ c.offset ∨ c.offset + c.size ≤ o + 16 → b.readWord o = a.readWord o :=
    fun o ho => readWord_of_write hb (by omega)
  have hconf : a.Confined m c.offset (c.offset + c.size) b := by
    refine ⟨Nat.le_of_eq hbrk'.symm, reserved_of_write hb, fun i _ hout => byte?_of_write hb ?_⟩
    -- Each byte of the payload is the first one of a word inside the span.
    by_contra hin
    have := hout i (.inl (by omega))
    omega
  have hown : b.Tagged c := by
    obtain ⟨t, hsize, halloc', hhead, hfoot⟩ := h.tags c hc
    refine ⟨t, hsize, halloc', ?_, ?_⟩
    · rw [tagAt, hword _ (by omega)]
      exact hhead
    · rw [tagAt, hword _ (by omega)]
      exact hfoot
  have hring : b.IsRing m.ring := by
    refine h.isRing.frame (Nat.le_of_eq hbrk'.symm) ?_ ?_
    · intro q hq
      have := node_apart_of_allocated hwf hc halloc hq
      rw [nextLink, nextLink, readOffset, readOffset, hword _ (by simp only [wordSize]; omega)]
    · intro q hq
      have := node_apart_of_allocated hwf hc halloc hq
      rw [prevLink, prevLink, readOffset, readOffset, hword _ (by omega)]
  refine ⟨b, hb, h.update hconf hcm.1 hwf (hbrk'.trans hbrk) ?_ hring ?_, hconf.reserved_eq,
    fun d hd hda hne => hconf.keeps h hd hda (hwf.apart_of_ne hd hc hne)⟩
  · rw [hbrk', tagAt, hword _ (by omega)]
    exact h.epilogue
  · intro d hd
    rcases hwf.row.apart hd hc with rfl | hfar | hfar
    · exact .inr hown
    · exact .inl ⟨hd, .inl hfar⟩
    · exact .inl ⟨hd, .inr hfar⟩

end Arena

/-! ## Heaps that model a map -/

structure Heap.Models (heap : Heap) (m : BlockMap) : Prop where
  represents : heap.arena.Represents m
  valid : heap.settings.Valid
  reserved_eq : heap.arena.reserved = heap.settings.reserved

/-- The counters with one more growth, if there was one. -/
def Counters.grown (k : Counters) (m m' : BlockMap) : Counters :=
  { k with extensions := k.extensions + if m.brk < m'.brk then 1 else 0 }

/-- The counters after an allocation with this answer. -/
def Counters.allocated (k : Counters) (n : Nat) (answer : Option Nat) (m m' : BlockMap) :
    Counters :=
  match answer with
  | some _ => { k.grown m m' with allocations := k.allocations + 1 }
  | none => if n = 0 then k else { k with failedAllocations := k.failedAllocations + 1 }

namespace Heap

/-- The heap keeps the payload bytes of every allocated block but the one named. -/
def Spares (heap next : Heap) (m : BlockMap) (handle : Option Nat) : Prop :=
  ∀ c ∈ m.cells, c.allocated = true → some c.offset ≠ handle → heap.arena.Keeps next.arena c

theorem Spares.refl (heap : Heap) (m : BlockMap) (handle : Option Nat) :
    heap.Spares heap m handle := fun c _ _ _ => Arena.Keeps.refl _ c

theorem Models.countFailure (h : heap.Models m) : heap.countFailure.Models m := by
  cases heap
  exact ⟨h.represents, h.valid, h.reserved_eq⟩

theorem Models.usableSize_eq (h : heap.Models m) (hc : c ∈ m.cells) :
    heap.usableSize c.offset = .ok (c.size - 16) := by
  obtain ⟨t, ht, hsize, -⟩ := h.represents.header hc
  simp only [usableSize, ht, Except.map, BoundaryHeap.usableSize, hsize]
  rfl

theorem Models.contents_eq (h : heap.Models m) (hc : c ∈ m.cells) (halloc : c.allocated = true) :
    heap.contents c.offset =
      .ok (heap.arena.bytes.extract c.offset (c.offset + (c.size - 16))) := by
  obtain ⟨t, ht, hsize, ht'⟩ := h.represents.header hc
  have hcm := h.represents.wellFormed.mem hc
  have hbrk := h.represents.brk_eq
  have hfree : t.isFree = false := by simp [Tag.isFree, ht', halloc]
  simp only [contents, ht, hfree, h.usableSize_eq hc, bind, Except.bind]
  rw [if_neg (by decide)]
  exact if_pos (by omega)

theorem Models.writableSize_eq (h : heap.Models m) (hc : c ∈ m.cells)
    (halloc : c.allocated = true) : heap.writableSize c.offset = .ok (c.size - 16) := by
  obtain ⟨t, ht, hsize, ht'⟩ := h.represents.header hc
  have hcm := h.represents.wellFormed.mem hc
  have hbrk := h.represents.brk_eq
  have hfree : t.isFree = false := by simp [Tag.isFree, ht', halloc]
  simp only [writableSize, ht, hfree, h.usableSize_eq hc, bind, Except.bind]
  rw [if_neg (by decide)]
  exact if_pos (by omega)

/-! ## Growing and finding -/

theorem increment?_eq_some (h : count < 0x8000000000000000) : increment? count = some (count : Int) :=
  if_pos h

theorem Models.extend_spec (h : heap.Models m) (hcount : 32 ≤ count) (hmod : count % 16 = 0)
    (hroom : m.brk + count ≤ heap.settings.reserved) :
    ∃ b, (heap.extend count).result = .ok (.ok (m.grow count).1, ⟨b, heap.settings,
        { heap.counters with extensions := heap.counters.extensions + 1 }⟩) ∧
      Models ⟨b, heap.settings, { heap.counters with extensions := heap.counters.extensions + 1 }⟩
        (m.grow count).2 ∧
      ∀ c ∈ m.cells, c.allocated = true → heap.arena.Keeps b c := by
  obtain ⟨a, settings, counters⟩ := heap
  obtain ⟨hrep, hvalid, hres⟩ := h
  simp only at hrep hvalid hres hroom
  have hwf := hrep.wellFormed
  have hincrement : increment? count = some (count : Int) := increment?_eq_some
    (Nat.lt_of_le_of_lt (Nat.le_trans (Nat.le_add_left _ _) (hres ▸ hroom)) a.reserved_lt)
  obtain ⟨x, y, b, hx, hy, hb, hrep', hconf⟩ :=
    hrep.grow_spec hcount hmod (by rw [hrep.brk_eq, hres]; exact hroom)
  refine ⟨b, ?_, ⟨hrep', hvalid, hconf.reserved_eq.trans hres⟩, ?_⟩
  · simp only [extend, hincrement, Arena.grow, hx, hy, hb, Traced.result_bind, Traced.result_emit,
      Traced.result_pure, Traced.result_lift, ok_bind]
  · intro c hc halloc
    refine hconf.keeps hrep hc halloc (.inl ?_)
    obtain ⟨hseam, -, -, hinner⟩ := hwf.startBefore_spec (hwf.seam_end (Nat.le_refl _) hwf.brk_mod)
    have hcm := hwf.mem hc
    apply (hseam.uncut c hc).resolve_right
    intro hle
    have := hinner c hc halloc hle
    omega

theorem Models.extend_refused (h : heap.Models m) (hroom : heap.settings.reserved < m.brk + count) :
    (heap.extend count).result = .ok (.error (.exhausted count heap.arena.remaining), heap) := by
  obtain ⟨a, settings, counters⟩ := heap
  obtain ⟨hrep, -, hres⟩ := h
  simp only at hrep hres hroom
  by_cases hsigned : count < 0x8000000000000000
  · have hx : a.extend count = (.error (.exhausted count a.remaining), a) :=
      Arena.extend_refused (by rw [hrep.brk_eq, hres]; exact hroom)
    simp only [extend, increment?_eq_some hsigned, Arena.grow, hx, Traced.result_bind,
      Traced.result_pure, ok_bind]
  · have hnone : increment? count = none := if_neg hsigned
    simp only [extend, hnone, Traced.result_pure]

theorem Models.findBlock_spec (h : heap.Models m) (size : Nat) :
    match m.findBlock heap.settings size with
    | none => ∃ e, (heap.findBlock size).result = .ok (.error e, heap)
    | some (p, m') => ∃ b k, (heap.findBlock size).result = .ok (.ok p, ⟨b, heap.settings, k⟩) ∧
        Models ⟨b, heap.settings, k⟩ m' ∧ k = heap.counters.grown m m' ∧
        ∀ c ∈ m.cells, c.allocated = true → heap.arena.Keeps b c := by
  have hfit := h.represents.firstFit_eq size
  have hwf := h.represents.wellFormed
  unfold BlockMap.findBlock
  cases hfirst : m.firstFit size with
  | some p =>
    rw [hfirst] at hfit
    refine ⟨heap.arena, heap.counters, ?_, h, ?_, fun c _ _ => Arena.Keeps.refl _ c⟩
    · simp only [findBlock, hfit, Traced.result_bind, Traced.result_lift, Traced.result_pure,
        ok_bind]
    · simp [Counters.grown]
  | none =>
    rw [hfirst] at hfit
    have hstart : (heap.findBlock size).result = (heap.growFor size).result := by
      simp only [findBlock, hfit, Traced.result_bind, Traced.result_lift, ok_bind]
    rw [hstart]
    unfold growFor
    cases hext : extensionSize size heap.settings.chunk with
    | none => exact ⟨_, rfl⟩
    | some count =>
      obtain ⟨-, hchunk, hmod, -⟩ := BlockMap.extensionSize_eq_some hext
      have hcount : 32 ≤ count := Nat.le_trans h.valid.chunk_ge hchunk
      simp only [Option.bind_some]
      by_cases hroom : m.brk + count ≤ heap.settings.reserved
      · rw [if_pos hroom]
        obtain ⟨b, hb, hmodels, hkeeps⟩ := h.extend_spec hcount hmod hroom
        refine ⟨b, _, hb, hmodels, ?_, hkeeps⟩
        have hlt : m.brk < (m.grow count).2.brk := by
          rw [(hwf.grow hcount hmod).2.1]
          omega
        show _ = heap.counters.grown m (m.grow count).2
        rw [Counters.grown, if_pos hlt]
      · rw [if_neg hroom]
        exact ⟨_, h.extend_refused (Nat.lt_of_not_le hroom)⟩

/-! ## Handing out -/

theorem Models.place_spec {a : Arena} {settings : Settings} {k : Counters}
    (h : Models ⟨a, settings, k⟩ m) (hc : c ∈ m.cells) (hfree : c.allocated = false)
    (hmin : 32 ≤ size) (hmod : size % 16 = 0) (hfit : size ≤ c.size) (k' : Counters) :
    ∃ b, a.place c.offset size = .ok b ∧ Models ⟨b, settings, k'⟩ (m.carve c.offset size) ∧
      (∃ t, b.header c.offset = .ok t) ∧
      ∀ d ∈ m.cells, d.allocated = true → a.Keeps b d := by
  have hrep : a.Represents m := h.represents
  have hwf := hrep.wellFormed
  obtain ⟨b, hb, hrep', hconf⟩ := hrep.place_spec hc hfree hmin hmod hfit
  have hhanded : BlockMap.handed c size ∈ (m.carve c.offset size).cells :=
    ((hwf.allocated_carve hc hfree).2 (.inr rfl)).1
  obtain ⟨t, ht, -⟩ := hrep'.header hhanded
  refine ⟨b, hb, ⟨hrep', h.valid, hconf.reserved_eq.trans h.reserved_eq⟩, ⟨t, ht⟩, ?_⟩
  intro d hd halloc
  exact hconf.keeps hrep hd halloc (hwf.apart_free hd halloc hc hfree)

theorem Models.allocate_spec (h : heap.Models m) (n : Nat) :
    ∃ next, (heap.allocate n).result = .ok ((m.allocate heap.settings n).1, next) ∧
      next.settings = heap.settings ∧ next.Models (m.allocate heap.settings n).2 ∧
      next.counters = heap.counters.allocated n (m.allocate heap.settings n).1 m
        (m.allocate heap.settings n).2 ∧
      heap.Spares next m none := by
  have hwf := h.represents.wellFormed
  by_cases hzero : n = 0
  · subst hzero
    refine ⟨heap, rfl, rfl, h, rfl, Spares.refl heap m none⟩
  have hcounted : ∀ m', heap.countFailure.counters = heap.counters.allocated n none m m' := by
    intro m'
    rw [Counters.allocated, if_neg hzero]
    rfl
  unfold BlockMap.allocate
  cases hadj : adjustedSize n with
  | none =>
    refine ⟨heap.countFailure, ?_, rfl, h.countFailure, hcounted m, Spares.refl heap m none⟩
    simp only [allocate, if_neg hzero, hadj, Traced.result_pure]
  | some size =>
    simp only
    obtain ⟨hmin, hmod, -, -⟩ := BlockMap.adjustedSize_bounds hadj
    have hspec := h.findBlock_spec size
    cases hfind : m.findBlock heap.settings size with
    | none =>
      rw [hfind] at hspec
      obtain ⟨e, he⟩ := hspec
      refine ⟨heap.countFailure, ?_, rfl, h.countFailure, hcounted m, Spares.refl heap m none⟩
      simp only [allocate, if_neg hzero, hadj, he, Traced.result_bind, Traced.result_emit,
        Traced.result_pure, ok_bind]
    | some found =>
      obtain ⟨p, m'⟩ := found
      rw [hfind] at hspec
      obtain ⟨b, k, hb, hmodels, rfl, hkeeps⟩ := hspec
      obtain ⟨hwf', hbrk, ⟨c, hc, rfl, hfree, hfit⟩, halloc⟩ := hwf.findBlock h.valid hfind
      obtain ⟨x, hx, hmodels', ⟨t, ht⟩, hkeeps'⟩ := hmodels.place_spec hc hfree hmin hmod hfit
        { heap.counters.grown m m' with allocations := heap.counters.allocations + 1 }
      refine ⟨⟨x, heap.settings, _⟩, ?_, rfl, hmodels', ?_, ?_⟩
      · simp only [allocate, if_neg hzero, hadj, hb, hx, ht, Traced.result_bind, Traced.result_lift,
          Traced.result_emit, Traced.result_pure, ok_bind]
        rfl
      · simp only [Counters.allocated, Counters.grown, (hwf'.carve hc hfree hmin hmod).2]
      · intro d hd hda _
        exact (hkeeps d hd hda).trans (hkeeps' d ((halloc d).2 ⟨hd, hda⟩).1 hda)

/-! ## Taking back -/

theorem Models.releaseBlock_spec (h : heap.Models m) (hc : c ∈ m.cells)
    (halloc : c.allocated = true) :
    ∃ b, (heap.releaseBlock c.offset).result =
        .ok ⟨b, heap.settings, { heap.counters with releases := heap.counters.releases + 1 }⟩ ∧
      (∀ k, Models ⟨b, heap.settings, k⟩ (m.release c.offset)) ∧
      ∀ d ∈ m.cells, d.allocated = true → d.offset ≠ c.offset → heap.arena.Keeps b d := by
  obtain ⟨a, settings, counters⟩ := heap
  obtain ⟨hrep, hvalid, hres⟩ := h
  simp only at hrep hvalid hres
  obtain ⟨s, hs, hsize, -⟩ := hrep.header hc
  obtain ⟨t, x, b, ht, hx, hb, hrep', hconf⟩ := hrep.release_spec hc halloc
  refine ⟨b, ?_, fun k => ⟨hrep', hvalid, hconf.reserved_eq.trans hres⟩, ?_⟩
  · rw [← hsize] at ht
    simp only [releaseBlock, hs, ht, hx, hb, Traced.result_bind, Traced.result_lift,
      Traced.result_emit, Traced.result_pure, ok_bind]
  · intro d hd hda hne
    exact hconf.keeps hrep hd hda (hrep.wellFormed.span_apart hc hd hda hne)

/-! ## Moving -/

/-- Copying from one allocated block into the payload of another. -/
theorem Models.copy_spec {a : Arena} {settings : Settings} {k : Counters} {e : Cell}
    (h : Models ⟨a, settings, k⟩ m) (hc : c ∈ m.cells) (he : e ∈ m.cells)
    (halloc : e.allocated = true) (count : Nat) (hfit : count + 16 ≤ c.size)
    (hfit' : count + 16 ≤ e.size) :
    ∃ b, a.copyWithin c.offset e.offset count = .ok b ∧ Models ⟨b, settings, k⟩ m ∧
      (∀ d ∈ m.cells, d.allocated = true → d.offset ≠ e.offset → a.Keeps b d) ∧
      ∀ i < count, b.byte? (e.offset + i) = a.byte? (c.offset + i) := by
  have hrep : a.Represents m := h.represents
  have hcm := hrep.wellFormed.mem hc
  have hbrk := hrep.brk_eq
  have hwindow : a.window c.offset count = .ok (a.bytes.extract c.offset (c.offset + count)) :=
    if_pos (by omega)
  have hsize : (a.bytes.extract c.offset (c.offset + count)).size = count := by
    have hbytes : a.bytes.size = m.brk := hbrk
    rw [ByteArray.size_extract]
    omega
  obtain ⟨b, hb, hrep', hres, hkeeps⟩ := hrep.write_spec he halloc e.offset
    (a.bytes.extract c.offset (c.offset + count)) (Nat.le_refl _) (by omega)
  refine ⟨b, ?_, ⟨hrep', h.valid, hres.trans h.reserved_eq⟩, hkeeps, ?_⟩
  · simp only [Arena.copyWithin, hwindow, ok_bind]
    exact hb
  · intro i hi
    have hin : c.offset + i < a.bytes.size := by
      have hbytes : a.bytes.size = m.brk := hbrk
      omega
    rw [Arena.byte?_of_write_inside hb (by omega), Arena.byte?_eq_some hin,
      ByteArray.getElem_extract]

theorem Models.move_spec (h : heap.Models m) (hc : c ∈ m.cells) (halloc : c.allocated = true)
    (hn : n ≠ 0) {m' : BlockMap} (hall : m.allocate heap.settings n = (some q, m')) :
    ∃ next, (heap.resize (some c.offset) n).result = .ok (some q, next) ∧
      next.settings = heap.settings ∧ next.Models (m'.release c.offset) ∧
      next.counters =
        { heap.counters.allocated n (some q) m m' with
          releases := heap.counters.releases + 1, resizes := heap.counters.resizes + 1 } ∧
      heap.Spares next m (some c.offset) ∧
      ∀ i < min n (c.size - 16), next.arena.byte? (q + i) = heap.arena.byte? (c.offset + i) := by
  obtain ⟨mid, hmid, hset, hmodels, hcounters, hkeeps⟩ := h.allocate_spec n
  rw [hall] at hmid hmodels hcounters
  simp only at hmid hmodels hcounters
  obtain ⟨hwf, -, hnew, -, e, rfl, heq, hlen, hcells⟩ :=
    h.represents.wellFormed.allocate h.valid hall
  have hcmid : c ∈ m'.cells := ((hcells c).2 (.inl ⟨hc, halloc⟩)).1
  have hemid : e ∈ m'.cells := ((hcells e).2 (.inr rfl)).1
  have husable := hmodels.usableSize_eq hcmid
  have hcm := hwf.mem hcmid
  obtain ⟨a, settings, counters⟩ := mid
  simp only at hset hcounters hkeeps
  obtain ⟨b, hb, hmodels₁, hkeeps₁, hcopied⟩ := hmodels.copy_spec hcmid hemid heq
    (min n (c.size - 16)) (by omega) (by omega)
  obtain ⟨x, hx, hmodels₂, hkeeps₂⟩ := hmodels₁.releaseBlock_spec hcmid halloc
  refine ⟨⟨x, settings, { counters with
      releases := counters.releases + 1, resizes := counters.resizes + 1 }⟩,
    ?_, hset, hmodels₂ _, ?_, ?_, ?_⟩
  · simp only [resize, if_neg hn, hmid, husable, hb, hx, Traced.result_bind, Traced.result_lift,
      Traced.result_emit, Traced.result_pure, ok_bind]
  · rw [hcounters]
    rfl
  · intro d hd hda hne
    have hdmid : d ∈ m'.cells := ((hcells d).2 (.inl ⟨hd, hda⟩)).1
    have hdc : d.offset ≠ c.offset := fun heq => hne (congrArg some heq)
    have hde : d.offset ≠ e.offset := fun heq => hnew ⟨d, hd, heq, hda⟩
    exact ((hkeeps d hd hda (by simp)).trans (hkeeps₁ d hdmid hda hde)).trans
      (hkeeps₂ d hdmid hda hdc)
  · -- The allocation leaves the old block alone, and the release the new one.
    intro i hi
    have hne : e.offset ≠ c.offset := fun heq => hnew ⟨c, hc, heq.symm, halloc⟩
    rw [hkeeps₂ e hemid heq hne _ (Nat.le_add_right _ _) (by omega), hcopied i hi,
      hkeeps c hc halloc (by simp) _ (Nat.le_add_right _ _) (by omega)]

/-! ## Storing -/

theorem Models.store_spec (h : heap.Models m) (hc : c ∈ m.cells) (halloc : c.allocated = true)
    (position : Nat) (data : ByteArray) (hfit : position + data.size + 16 ≤ c.size) :
    ∃ b, heap.store c.offset position data = .ok (true, ⟨b, heap.settings, heap.counters⟩) ∧
      heap.arena.write (c.offset + position) data = .ok b ∧
      Models ⟨b, heap.settings, heap.counters⟩ m ∧
      ∀ d ∈ m.cells, d.allocated = true → d.offset ≠ c.offset → heap.arena.Keeps b d := by
  have hwritable := h.writableSize_eq hc halloc
  obtain ⟨a, settings, counters⟩ := heap
  obtain ⟨hrep, hvalid, hres⟩ := h
  simp only at hrep hvalid hres
  obtain ⟨b, hb, hrep', hres', hkeeps⟩ := hrep.write_spec hc halloc (c.offset + position) data
    (Nat.le_add_right _ _) (by omega)
  refine ⟨b, ?_, hb, ⟨hrep', hvalid, hres'.trans hres⟩, hkeeps⟩
  have hin : position + data.size ≤ c.size - 16 := by omega
  simp only [store, hwritable, hb, if_pos hin, ok_bind]
  rfl

end Heap
end BoundaryHeap
