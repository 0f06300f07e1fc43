import BoundaryHeap.Proofs.Runs

/-!
# Live data is never lost or shared

The life of one handle within a run. `Heap.Holds` follows a handle from the request that gave it
and keeps what its user is entitled to: the size that was asked for, and the contents that the
block had at first, overwritten by what was stored into it since. **However the run went on, the
heap still has them** (`reached_isolates`), in a block that shares no byte with another live block,
with a tag or with a link.
-/

set_option autoImplicit false

namespace BoundaryHeap

variable {a b : Arena} {settings : Settings} {history : List Turn} {heap next issue : Heap}
  {live : List Nat} {m : BlockMap} {request : Request} {answer : Option Nat} {c : Cell}
  {p n lo hi : Nat} {expected : ByteArray}

/-! ## Contents -/

/-- Windows with the same bytes are the same, wherever they are. -/
theorem Arena.extract_congr {start start' : Nat} (ha : start + n ≤ a.brk) (hb : start' + n ≤ b.brk)
    (hsame : ∀ i < n, b.byte? (start' + i) = a.byte? (start + i)) :
    b.bytes.extract start' (start' + n) = a.bytes.extract start (start + n) := by
  have ha' : start + n ≤ a.bytes.size := ha
  have hb' : start' + n ≤ b.bytes.size := hb
  apply ByteArray.ext_getElem (by simp only [ByteArray.size_extract]; omega)
  intro i hi₁ hi₂
  rw [ByteArray.size_extract] at hi₁
  have hbyte := hsame i (by omega)
  rw [Arena.byte?_eq_some (by omega), Arena.byte?_eq_some (by omega)] at hbyte
  rw [ByteArray.getElem_extract, ByteArray.getElem_extract]
  exact Option.some.inj hbyte

theorem Window.extract_splice {bytes data : ByteArray} {position : Nat} (hhi : hi ≤ bytes.size)
    (hfit : lo + position + data.size ≤ hi) :
    (splice bytes (lo + position) data).extract lo hi =
      splice (bytes.extract lo hi) position data := by
  have hwhole : lo + position + data.size ≤ bytes.size := by omega
  have hpart : position + data.size ≤ (bytes.extract lo hi).size := by
    rw [ByteArray.size_extract]
    omega
  have hsize : (splice bytes (lo + position) data).size = bytes.size := size_splice hwhole
  refine ByteArray.ext_getElem ?_ ?_
  · rw [size_splice hpart, ByteArray.size_extract, ByteArray.size_extract, hsize]
  · intro i hi₁ hi₂
    rw [ByteArray.getElem_extract]
    by_cases hin : position ≤ i ∧ i < position + data.size
    · obtain ⟨j, rfl⟩ := Nat.exists_eq_add_of_le hin.1
      have hright := @getElem_splice_of_inside (bytes.extract lo hi) data position j hpart
        (by omega) hi₂
      rw [hright]
      have hleft := @getElem_splice_of_inside bytes data (lo + position) j hwhole (by omega)
        (by rw [hsize]; omega)
      simpa only [Nat.add_assoc] using hleft
    · have hi₃ : i < (bytes.extract lo hi).size := size_splice hpart ▸ hi₂
      have hright := @getElem_splice_of_outside (bytes.extract lo hi) data position i hpart
        (by omega) hi₂ hi₃
      rw [hright, getElem_splice_of_outside hwhole (by omega), ByteArray.getElem_extract]

namespace Heap

theorem Models.contents_congr (h : heap.Models m) {m' : BlockMap} (h' : next.Models m')
    (hc : c ∈ m.cells) (hc' : c ∈ m'.cells) (halloc : c.allocated = true)
    (hkeeps : heap.arena.Keeps next.arena c) : next.contents c.offset = heap.contents c.offset := by
  have hcm := h.represents.wellFormed.mem hc
  have hcm' := h'.represents.wellFormed.mem hc'
  have hbrk := h.represents.brk_eq
  have hbrk' := h'.represents.brk_eq
  rw [h.contents_eq hc halloc, h'.contents_eq hc' halloc]
  exact congrArg Except.ok (Arena.extract_congr (by omega) (by omega) fun i hi =>
    hkeeps _ (Nat.le_add_right _ _) (by omega))

/-- A request leaves every block in place that it does not spend, with its contents. -/
theorem Tracks.spared (h : Tracks settings heap live m) (hlegal : request.Legal heap live)
    (hdone : (request.perform heap).result = .ok (answer, next)) (hc : c ∈ m.cells)
    (hca : c.allocated = true) (hne : request.spent answer ≠ some c.offset) :
    c ∈ (m.perform settings request).2.cells ∧
      next.contents c.offset = heap.contents c.offset := by
  obtain ⟨-, htracks, hstep, -, hspares⟩ := h.done hlegal hdone
  have hreturned : some c.offset ≠ request.returned answer := fun heq =>
    hne (Request.spent_of_returned heq.symm)
  have hc' := hstep.keeps c hc hca hreturned
  exact ⟨hc', h.models.contents_congr htracks.models hc hc' hca (hspares c hc hca hne.symm)⟩

theorem Tracks.spared_live (h : Tracks settings heap live m) (hlegal : request.Legal heap live)
    (hdone : (request.perform heap).result = .ok (answer, next)) (hp : p ∈ live)
    (hne : request.spent answer ≠ some p) :
    p ∈ request.liveAfter live answer ∧ next.contents p = heap.contents p := by
  obtain ⟨c, hc, rfl, hca⟩ := (h.live_iff p).1 hp
  obtain ⟨hc', hsame⟩ := h.spared hlegal hdone hc hca hne
  exact ⟨((h.done hlegal hdone).2.1.live_iff _).2 ⟨c, hc', rfl, hca⟩, hsame⟩

/-! ## Holding a handle -/

/-- The handle `p` was the answer to a request for `n` bytes, which left the heap `issue`, and has
not been given back. Its block should have the contents it had then, and what was stored since. -/
inductive Holds (settings : Settings) (p : Nat) :
    List Turn → Heap → List Nat → Nat → Heap → ByteArray → Prop
  | issued {history : List Turn} {before issue : Heap} {live : List Nat} {request : Request}
      {expected : ByteArray} :
    Reached settings history before live → request.Legal before live →
    (request.perform before).result = .ok (some p, issue) → issue.contents p = .ok expected →
    Holds settings p (history ++ [⟨request, some p, issue.arena.brk - before.arena.brk⟩]) issue
      (request.liveAfter live (some p)) request.size issue expected
  | stored {history : List Turn} {heap next issue : Heap} {live : List Nat} {n position : Nat}
      {data expected : ByteArray} {answer : Option Nat} :
    Holds settings p history heap live n issue expected →
    (Request.store p position data).Legal heap live →
    ((Request.store p position data).perform heap).result = .ok (answer, next) →
    Holds settings p
      (history ++ [⟨.store p position data, answer, next.arena.brk - heap.arena.brk⟩]) next live n
      issue (Window.splice expected position data)
  | other {history : List Turn} {heap next issue : Heap} {live : List Nat} {n : Nat}
      {expected : ByteArray} {request : Request} {answer : Option Nat} :
    Holds settings p history heap live n issue expected → request.Legal heap live →
    (request.perform heap).result = .ok (answer, next) → request.spent answer ≠ some p →
    Holds settings p (history ++ [⟨request, answer, next.arena.brk - heap.arena.brk⟩]) next
      (request.liveAfter live answer) n issue expected

/-- What the holder of a handle has: a block of the map, as long as it was when it was handed out,
with the expected contents. -/
structure Kept (heap : Heap) (m : BlockMap) (n : Nat) (issue : Heap) (expected : ByteArray)
    (c : Cell) : Prop where
  mem : c ∈ m.cells
  allocated : c.allocated = true
  size_ge : n + 16 ≤ c.size
  usableSize_eq : issue.usableSize c.offset = .ok (c.size - 16)
  contents_eq : heap.contents c.offset = .ok expected

theorem Kept.issued (h : Tracks settings heap live m) (hlegal : request.Legal heap live)
    (hdone : (request.perform heap).result = .ok (some p, issue))
    (hcontents : issue.contents p = .ok expected) :
    ∃ c, c.offset = p ∧
      issue.Kept (m.perform settings request).2 request.size issue expected c := by
  obtain ⟨-, htracks, hstep, -⟩ := h.done hlegal hdone
  obtain ⟨c, hc, rfl, hca, hlen, -⟩ := hstep.answered
  exact ⟨c, rfl, hc, hca, hlen, htracks.models.usableSize_eq hc, hcontents⟩

theorem Kept.other (hkept : heap.Kept m n issue expected c) (h : Tracks settings heap live m)
    (hlegal : request.Legal heap live)
    (hdone : (request.perform heap).result = .ok (answer, next))
    (hne : request.spent answer ≠ some c.offset) :
    next.Kept (m.perform settings request).2 n issue expected c := by
  obtain ⟨hc, hca, hlen, husable, hcontents⟩ := hkept
  obtain ⟨hc', hsame⟩ := h.spared hlegal hdone hc hca hne
  exact ⟨hc', hca, hlen, husable, hsame.trans hcontents⟩

theorem Kept.stored {position : Nat} {data : ByteArray} (hkept : heap.Kept m n issue expected c)
    (h : Tracks settings heap live m)
    (hlegal : (Request.store c.offset position data).Legal heap live)
    (hdone : ((Request.store c.offset position data).perform heap).result = .ok (answer, next)) :
    next.Kept m n issue (Window.splice expected position data) c := by
  obtain ⟨hc, hca, hlen, husable, hcontents⟩ := hkept
  have hcm := h.wellFormed.mem hc
  have hbrk : heap.arena.bytes.size = m.brk := h.brk_eq
  obtain ⟨-, size, hsize, hfit⟩ := hlegal
  rw [h.models.writableSize_eq hc hca] at hsize
  obtain rfl := Except.ok.inj hsize
  obtain ⟨x, hx, hwrite, hmodels, -⟩ := h.models.store_spec hc hca position data (by omega)
  obtain rfl : ⟨x, heap.settings, heap.counters⟩ = next := by
    simp only [Request.perform, hx, Traced.result_bind, Traced.result_lift, Traced.result_pure,
      ok_bind] at hdone
    exact (Prod.mk.inj (Except.ok.inj hdone)).2
  refine ⟨hc, hca, hlen, husable, ?_⟩
  rw [h.models.contents_eq hc hca] at hcontents
  obtain rfl := Except.ok.inj hcontents
  rw [hmodels.contents_eq hc hca, (Arena.write_eq_ok hwrite).2.1,
    Window.extract_splice (by omega) (by omega)]

theorem Holds.kept (h : Holds settings p history heap live n issue expected) :
    Reached settings history heap live ∧
      ∃ m, Tracks settings heap live m ∧ ∃ c, c.offset = p ∧ heap.Kept m n issue expected c := by
  induction h with
  | issued reached hlegal hdone hcontents =>
    obtain ⟨-, -, htracks⟩ := reached.tracks
    exact ⟨reached.step hlegal hdone, _, (htracks.done hlegal hdone).2.1,
      Kept.issued htracks hlegal hdone hcontents⟩
  | stored _ hlegal hdone ih =>
    obtain ⟨reached, m, htracks, c, rfl, hkept⟩ := ih
    exact ⟨reached.step hlegal hdone, m, (htracks.done hlegal hdone).2.1, c, rfl,
      hkept.stored htracks hlegal hdone⟩
  | other _ hlegal hdone hne ih =>
    obtain ⟨reached, m, htracks, c, rfl, hkept⟩ := ih
    exact ⟨reached.step hlegal hdone, _, (htracks.done hlegal hdone).2.1, c, rfl,
      hkept.other htracks hlegal hdone hne⟩

/-- Every live handle is held since some request of the run. -/
theorem Reached.holds (reached : Reached settings history heap live) (hp : p ∈ live) :
    ∃ n issue expected, Holds settings p history heap live n issue expected := by
  induction reached with
  | create hmade => cases hp
  | @step history heap next live request answer reached hlegal hdone ih =>
    obtain ⟨-, -, htracks⟩ := reached.tracks
    obtain ⟨hanswer, htracks', -⟩ := htracks.done hlegal hdone
    -- Either this request gave the handle, or it was held before and the request did not take it.
    by_cases hnew : answer = some p
    · subst hnew
      obtain ⟨c, hc, hoff, hca⟩ := (htracks'.live_iff p).1 hp
      have hcontents := htracks'.models.contents_eq hc hca
      rw [hoff] at hcontents
      exact ⟨_, _, _, .issued reached hlegal hdone hcontents⟩
    · rw [← hanswer, BlockMap.liveAfter_eq, hanswer, List.mem_append, List.mem_filter,
        Option.mem_toList] at hp
      obtain ⟨hold, hkept⟩ := hp.resolve_left hnew
      have hne : some p ≠ request.returned answer := by simpa using hkept
      obtain ⟨n, issue, expected, hholds⟩ := ih hold
      by_cases hspent : request.spent answer = some p
      · cases request with
        | store q position data =>
          obtain rfl := Option.some.inj hspent
          exact ⟨n, issue, _, .stored hholds hlegal hdone⟩
        | allocate k => cases hspent
        | release handle => exact absurd hspent.symm hne
        | resize handle k => exact absurd hspent.symm hne
      · exact ⟨n, issue, expected, .other hholds hlegal hdone hspent⟩

/-! ## Words that belong to the allocator -/

/-- The words of a heap that hold tags or links: those of the sentinels, then of the blocks, then of
the nodes, the ring's own among them. -/
def bookkeeping (heap : Heap) : Except Fault (List Nat) := do
  let blocks ← heap.blocks
  let ring ← heap.arena.nodes
  return [8, 32, heap.arena.brk - 8] ++
    blocks.flatMap (fun b => [b.payload - 8, b.payload + b.tag.size - 16]) ++
    (prologue :: ring).flatMap fun q => [q, q + 8]

theorem Models.bookkeeping_eq (h : heap.Models m) :
    heap.bookkeeping = .ok ([8, 32, m.brk - 8] ++
      m.cells.flatMap (fun c => [c.offset - 8, c.offset + c.size - 16]) ++
      (prologue :: m.ring).flatMap fun q => [q, q + 8]) := by
  obtain ⟨blocks, hblocks, hcells⟩ := h.represents.blocks_eq
  simp only [bookkeeping, Heap.blocks, hblocks, h.represents.nodes_eq, ok_bind, ← hcells,
    List.flatMap_map, ← h.represents.brk_eq]
  rfl

/-- No word of the allocator reaches into the payload of an allocated block. -/
theorem Models.bookkeeping_apart (h : heap.Models m) (hc : c ∈ m.cells)
    (halloc : c.allocated = true) : ∃ words, heap.bookkeeping = .ok words ∧
      ∀ w ∈ words, w + 8 ≤ c.offset ∨ c.offset + (c.size - 16) ≤ w := by
  have hwf := h.represents.wellFormed
  have hcm := hwf.mem hc
  refine ⟨_, h.bookkeeping_eq, ?_⟩
  intro w hw
  simp only [List.mem_append, List.mem_flatMap, List.mem_cons, List.not_mem_nil, or_false] at hw
  rcases hw with (hw | ⟨d, hd, hw⟩) | ⟨q, hq, hw⟩
  · omega
  · have hdm := hwf.mem hd
    rcases hwf.row.apart hc hd with rfl | hfar | hfar <;> omega
  · have hapart := Arena.node_apart_of_allocated hwf hc halloc hq
    omega

/-! ## Isolation -/

/-- **Live data is never lost or shared.** A live handle is held since the request that gave it,
and whoever holds a handle has an aligned block of unchanged size, long enough for the request,
inside the heap, apart from all other live blocks and from all tags and links, with the contents
they expect. -/
theorem reached_isolates (reached : Reached settings history heap live) (hp : p ∈ live) :
    (∃ n issue expected, Holds settings p history heap live n issue expected) ∧
      ∀ n issue expected, Holds settings p history heap live n issue expected →
        p % 16 = 0 ∧ ∃ size, heap.usableSize p = .ok size ∧ issue.usableSize p = .ok size ∧
          n ≤ size ∧ 48 ≤ p ∧ p + size ≤ heap.arena.brk ∧
          (∀ q ∈ live, q ≠ p →
            ∃ size', heap.usableSize q = .ok size' ∧ (p + size ≤ q ∨ q + size' ≤ p)) ∧
          (∃ words, heap.bookkeeping = .ok words ∧ ∀ w ∈ words, w + 8 ≤ p ∨ p + size ≤ w) ∧
          heap.contents p = .ok expected := by
  refine ⟨reached.holds hp, ?_⟩
  intro n issue expected hholds
  obtain ⟨-, m, htracks, c, rfl, hc, hca, hlen, husable, hcontents⟩ := hholds.kept
  have hcm := htracks.wellFormed.mem hc
  have hbrk := htracks.brk_eq
  refine ⟨hcm.2.2.2.2, c.size - 16, htracks.models.usableSize_eq hc, husable, by omega, hcm.1,
    by omega, ?_, htracks.models.bookkeeping_apart hc hca, hcontents⟩
  intro q hq hne
  obtain ⟨d, hd, rfl, -⟩ := (htracks.live_iff q).1 hq
  refine ⟨d.size - 16, htracks.models.usableSize_eq hd, ?_⟩
  rcases htracks.wellFormed.row.apart hc hd with rfl | hfar | hfar
  · exact absurd rfl hne
  · exact .inl (by omega)
  · exact .inr (by omega)

/-- Three bytes stored, and then a growth that puts a block right behind them. -/
theorem reached_isolates_small : ∃ history heap n issue expected,
    Reached ⟨256, 64, .strict⟩ history heap [112, 48] ∧
      Holds ⟨256, 64, .strict⟩ 48 history heap [112, 48] n issue expected ∧
      heap.contents 48 = .ok expected := by
  obtain ⟨history, heap, -, hreached⟩ :=
    exists_reached ⟨256, 64, .strict⟩ (by constructor <;> decide) (by decide)
      (by decide) [.allocate 20, .store 48 1 ⟨#[7, 8, 9]⟩, .allocate 100] (by decide)
  obtain ⟨⟨n, issue, expected, hholds⟩, hall⟩ := reached_isolates (p := 48) hreached (by decide)
  obtain ⟨-, size, -, -, -, -, -, -, -, hcontents⟩ := hall n issue expected hholds
  exact ⟨history, heap, n, issue, expected, hreached, hholds, hcontents⟩

end Heap
end BoundaryHeap
