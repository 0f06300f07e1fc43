import BoundaryHeap.Proofs.Grants
import BoundaryHeap.Proofs.Isolation
import BoundaryHeap.Proofs.Refinement

/-!
# Moves keep the contents

A move is an allocation, a copy and a release. The allocation may cut the new block out of the bytes
right behind the old one, and the release may merge the old block with bytes right before the new
one and put links into it. **The new block still starts with what the old one held, as far as it
fits** (`Tracks.moved`), a move that cannot be met changes nothing (`Models.resize_refused`), and
through any number of moves what fitted into every block on the way is still there
(`reached_resize`).
-/

set_option autoImplicit false

namespace BoundaryHeap

variable {a b : Arena} {settings : Settings} {history : List Turn} {heap next first : Heap}
  {live held sizes : List Nat} {m : BlockMap} {request : Request} {answer : Option Nat}
  {c : Cell} {x y z : ByteArray} {p p₀ q n i j count size size' : Nat}

/-! ## Common prefixes -/

/-- Both arrays have `count` bytes, and the first `count` of them are the same. -/
structure SamePrefix (count : Nat) (x y : ByteArray) : Prop where
  le_left : count ≤ x.size
  le_right : count ≤ y.size
  extract_eq : y.extract 0 count = x.extract 0 count

namespace SamePrefix

theorem refl (x : ByteArray) : SamePrefix x.size x x := ⟨Nat.le_refl _, Nat.le_refl _, rfl⟩

theorem mono (h : SamePrefix j x y) (hle : i ≤ j) : SamePrefix i x y := by
  refine ⟨Nat.le_trans hle h.le_left, Nat.le_trans hle h.le_right, ?_⟩
  have hcut := congrArg (fun w : ByteArray => w.extract 0 i) h.extract_eq
  simpa only [ByteArray.extract_extract, Nat.zero_add, Nat.min_eq_left hle] using hcut

theorem trans (hxy : SamePrefix i x y) (hyz : SamePrefix j y z) : SamePrefix (min i j) x z := by
  have hleft := hxy.mono (Nat.min_le_left i j)
  have hright := hyz.mono (Nat.min_le_right i j)
  exact ⟨hleft.le_left, hright.le_right, hright.extract_eq.trans hleft.extract_eq⟩

theorem getElem_eq (h : SamePrefix count x y) (hi : i < count) {hx : i < x.size} {hy : i < y.size} :
    y[i] = x[i] := by
  have hcut : i < (y.extract 0 count).size := by
    rw [ByteArray.size_extract]
    omega
  have hbyte : (y.extract 0 count)[i] = y[i] := by
    simp only [ByteArray.getElem_extract, Nat.zero_add]
  rw [← hbyte]
  simp only [h.extract_eq, ByteArray.getElem_extract, Nat.zero_add]

end SamePrefix

theorem Arena.samePrefix (hsize : count ≤ size) (hin : p + size ≤ a.brk) (hsize' : count ≤ size')
    (hin' : q + size' ≤ b.brk) (hsame : ∀ i < count, b.byte? (q + i) = a.byte? (p + i)) :
    SamePrefix count (a.bytes.extract p (p + size)) (b.bytes.extract q (q + size')) := by
  have ha : a.bytes.size = a.brk := rfl
  have hb : b.bytes.size = b.brk := rfl
  refine ⟨?_, ?_, ?_⟩
  · rw [ByteArray.size_extract]
    omega
  · rw [ByteArray.size_extract]
    omega
  · rw [ByteArray.extract_extract, ByteArray.extract_extract, Nat.add_zero, Nat.add_zero,
      Nat.min_eq_left (by omega), Nat.min_eq_left (by omega)]
    exact Arena.extract_congr (by omega) (by omega) hsame

namespace Heap

/-! ## One move -/

theorem Models.size_contents (h : heap.Models m) (hc : c ∈ m.cells) :
    (heap.arena.bytes.extract c.offset (c.offset + (c.size - 16))).size = c.size - 16 := by
  have hcm := h.represents.wellFormed.mem hc
  have hbrk : heap.arena.bytes.size = m.brk := h.represents.brk_eq
  rw [ByteArray.size_extract]
  omega

theorem Models.resize_refused (h : heap.Models m) (hn : n ≠ 0)
    (hnone : (m.allocate heap.settings n).1 = none) (p : Nat) :
    (heap.resize (some p) n).result = .ok (none, heap.countFailure) := by
  have hrefused := h.allocate_refused hnone
  rw [if_neg hn] at hrefused
  simp only [resize, if_neg hn, hrefused, Traced.result_bind, Traced.result_pure, ok_bind]

/-- The answer to a move is the answer to its allocation, and what is answered holds a copy. -/
theorem Models.resize_copies (h : heap.Models m) (hc : c ∈ m.cells) (hca : c.allocated = true)
    (hn : n ≠ 0) (hdone : (heap.resize (some c.offset) n).result = .ok (some q, next)) :
    ∀ i < min n (c.size - 16), next.arena.byte? (q + i) = heap.arena.byte? (c.offset + i) := by
  cases hall : m.allocate heap.settings n with
  | mk answer m' =>
    cases answer with
    | none =>
      have hrefused := h.resize_refused hn (congrArg Prod.fst hall) c.offset
      cases (Prod.mk.inj (Except.ok.inj (hrefused.symm.trans hdone))).1
    | some r =>
      obtain ⟨next', hnext', -, -, -, -, hcopied⟩ := h.move_spec hc hca hn hall
      obtain ⟨hr, rfl⟩ := Prod.mk.inj (Except.ok.inj (hnext'.symm.trans hdone))
      obtain rfl := Option.some.inj hr
      exact hcopied

/-- What a move of the live block at `p` to `n` bytes comes to when the answer is `q`. -/
structure Moved (heap : Heap) (live : List Nat) (p n q : Nat) (next : Heap) : Prop where
  ne : q ≠ p
  contents_eq : ∃ data data', heap.contents p = .ok data ∧ heap.usableSize p = .ok data.size ∧
    next.contents q = .ok data' ∧ next.usableSize q = .ok data'.size ∧ n ≤ data'.size ∧
    SamePrefix (min n data.size) data data'
  /-- The old handle is not held any more, and no allocated block is there. -/
  gone : p ∉ (Request.resize (some p) n).liveAfter live (some q)
  freed : ∃ blocks, next.blocks = .ok blocks ∧
    ∀ b ∈ blocks, b.payload = p → b.tag.isFree = true
  others_eq : ∀ r ∈ live, r ≠ p →
    ∃ data, heap.contents r = .ok data ∧ next.contents r = .ok data

theorem Tracks.moved (h : Tracks settings heap live m) (hp : p ∈ live) (hlt : n < wordLimit)
    (hdone : (heap.resize (some p) n).result = .ok (some q, next)) :
    heap.Moved live p n q next := by
  have hlegal : (Request.resize (some p) n).Legal heap live := Request.legal_resize hp hlt
  obtain ⟨hanswer, htracks, hstep, -, -⟩ := h.done hlegal hdone
  have hn : n ≠ 0 := by
    rintro rfl
    cases hanswer
  obtain ⟨c, hc, rfl, hca⟩ := (h.live_iff p).1 hp
  obtain ⟨e, he, rfl, hea, hlen, hnew⟩ := hstep.answered
  have hlen' : n + 16 ≤ e.size := hlen
  have hne : e.offset ≠ c.offset := fun heq => hnew ⟨c, hc, heq.symm, hca⟩
  have hgone : c.offset ∉ (Request.resize (some c.offset) n).liveAfter live (some e.offset) := by
    simp [Request.liveAfter, hne.symm]
  refine ⟨hne, ?_, hgone, ?_, ?_⟩
  · have hcm := h.wellFormed.mem hc
    have hem := htracks.wellFormed.mem he
    have hbrk := h.brk_eq
    have hbrk' := htracks.brk_eq
    refine ⟨_, _, h.models.contents_eq hc hca, ?_, htracks.models.contents_eq he hea, ?_, ?_, ?_⟩
    · rw [h.models.size_contents hc, h.models.usableSize_eq hc]
    · rw [htracks.models.size_contents he, htracks.models.usableSize_eq he]
    · rw [htracks.models.size_contents he]
      omega
    · rw [h.models.size_contents hc]
      exact Arena.samePrefix (Nat.min_le_right _ _) (by omega) (by omega) (by omega)
        (h.models.resize_copies hc hca hn hdone)
  · obtain ⟨blocks, hblocks, hcells⟩ := htracks.models.represents.blocks_eq
    refine ⟨blocks, hblocks, fun b hb hoff => ?_⟩
    by_contra hfree
    exact hgone ((htracks.allocated_iff hcells).2 ⟨b, hb, hoff, by simpa [Tag.isFree] using hfree⟩)
  · intro r hr hrne
    obtain ⟨d, hd, rfl, hda⟩ := (h.live_iff r).1 hr
    have hspent : (Request.resize (some c.offset) n).spent (some e.offset) ≠ some d.offset := by
      simpa [Request.spent, Request.returned] using hrne.symm
    have hsame := (h.spared_live hlegal hdone hr hspent).2
    exact ⟨_, h.models.contents_eq hd hda, hsame.trans (h.models.contents_eq hd hda)⟩

/-! ## Chains of moves -/

/-- The block at `p` is what became of the block at `p₀` in the heap `first`, by moves to these
sizes and by requests that spend neither of the blocks on the way. -/
inductive Chain (first : Heap) (held : List Nat) (p₀ : Nat) :
    List Nat → Heap → List Nat → Nat → Prop
  | start : Chain first held p₀ [] first held p₀
  | moved {sizes : List Nat} {heap next : Heap} {live : List Nat} {p q n : Nat} :
    Chain first held p₀ sizes heap live p → (Request.resize (some p) n).Legal heap live →
    ((Request.resize (some p) n).perform heap).result = .ok (some q, next) →
    Chain first held p₀ (sizes ++ [n]) next
      ((Request.resize (some p) n).liveAfter live (some q)) q
  | other {sizes : List Nat} {heap next : Heap} {live : List Nat} {p : Nat} {request : Request}
      {answer : Option Nat} :
    Chain first held p₀ sizes heap live p → request.Legal heap live →
    (request.perform heap).result = .ok (answer, next) → request.spent answer ≠ some p →
    Chain first held p₀ sizes next (request.liveAfter live answer) p

theorem Chain.samePrefix (h : Chain first held p₀ sizes heap live p)
    (htracks : Tracks settings first held m) (hp₀ : p₀ ∈ held) :
    (∃ m', Tracks settings heap live m') ∧ p ∈ live ∧
      ∃ data data', first.contents p₀ = .ok data ∧ first.usableSize p₀ = .ok data.size ∧
        heap.contents p = .ok data' ∧ SamePrefix (sizes.foldl min data.size) data data' := by
  induction h with
  | start =>
    obtain ⟨c, hc, rfl, hca⟩ := (htracks.live_iff p₀).1 hp₀
    refine ⟨⟨m, htracks⟩, hp₀, _, _, htracks.models.contents_eq hc hca, ?_,
      htracks.models.contents_eq hc hca, SamePrefix.refl _⟩
    rw [htracks.models.size_contents hc, htracks.models.usableSize_eq hc]
  | @moved sizes heap next live p q n _ hlegal hdone ih =>
    obtain ⟨⟨m', htracks'⟩, hp, data, data', hcontents, husable, hcontents', hsame⟩ := ih
    obtain ⟨-, htracks'', -⟩ := htracks'.done hlegal hdone
    obtain ⟨-, ⟨old, new, hold, -, hnew, -, -, hcopied⟩, -⟩ :=
      htracks'.moved hp hlegal.2 hdone
    obtain rfl := Except.ok.inj (hold.symm.trans hcontents')
    refine ⟨⟨_, htracks''⟩, ?_, data, new, hcontents, husable, hnew, ?_⟩
    · simp [Request.liveAfter]
    · -- All that survived so far was in the old block, so only the new size can cut it.
      have hfit := hsame.le_right
      rw [List.foldl_append, List.foldl_cons, List.foldl_nil]
      exact (hsame.trans hcopied).mono (by omega)
  | @other sizes heap next live p request answer _ hlegal hdone hne ih =>
    obtain ⟨⟨m', htracks'⟩, hp, data, data', hcontents, husable, hcontents', hsame⟩ := ih
    obtain ⟨hp', hkept⟩ := htracks'.spared_live hlegal hdone hp hne
    exact ⟨⟨_, (htracks'.done hlegal hdone).2.1⟩, hp', data, data', hcontents, husable,
      hkept.trans hcontents', hsame⟩

/-- **A move keeps the contents, and one that cannot be met keeps everything.** The new block starts
with as much of the old one as both have room for; the old block is given up, and no other loses a
byte. A refusal is counted, and nothing else changes. Through a chain of moves, with other requests
in between that spend none of its blocks, the bytes for which all blocks on the way had room are
still those from before the first. -/
theorem reached_resize (reached : Reached settings history heap live) (hp : p ∈ live) :
    (∀ n, 0 < n → n < wordLimit → ∃ answer next,
      (heap.resize (some p) n).result = .ok (answer, next) ∧
        (∀ q, answer = some q → heap.Moved live p n q next) ∧
        (answer = none → (Request.resize (some p) n).liveAfter live answer = live ∧
          next = ⟨heap.arena, heap.settings, { heap.counters with
            failedAllocations := heap.counters.failedAllocations + 1 }⟩)) ∧
      ∀ sizes last held q, Chain heap live p sizes last held q →
        q ∈ held ∧ ∃ data data', heap.contents p = .ok data ∧
          heap.usableSize p = .ok data.size ∧ last.contents q = .ok data' ∧
          SamePrefix (sizes.foldl min data.size) data data' := by
  obtain ⟨m, htracks⟩ : ∃ m, Tracks settings heap live m := ⟨_, reached.tracks.2.2⟩
  refine ⟨?_, fun sizes last held q hchain => (hchain.samePrefix htracks hp).2⟩
  intro n hpos hlt
  have hn : n ≠ 0 := Nat.ne_of_gt hpos
  obtain ⟨c, hc, rfl, hca⟩ := (htracks.live_iff p).1 hp
  cases hall : m.allocate heap.settings n with
  | mk answer m' =>
    cases answer with
    | none =>
      have hrefused := htracks.models.resize_refused hn (congrArg Prod.fst hall) c.offset
      refine ⟨none, _, hrefused, by simp, fun _ => ⟨?_, rfl⟩⟩
      simp [Request.liveAfter, hn]
    | some q =>
      obtain ⟨next, hnext, -⟩ := htracks.models.move_spec hc hca hn hall
      refine ⟨some q, next, hnext, fun r hr => ?_, by simp⟩
      obtain rfl := Option.some.inj hr
      exact htracks.moved hp hlt hnext

/-- A block that has to move to the end, as there is no free one that is long enough. -/
theorem reached_resize_small : ∃ history heap next,
    Reached ⟨256, 64, .strict⟩ history heap [48] ∧ heap.Moved [48] 48 100 112 next ∧
      Chain heap [48] 48 [100] next [112] 112 ∧
      ∃ data data', heap.contents 48 = .ok data ∧ heap.usableSize 48 = .ok data.size ∧
        next.contents 112 = .ok data' ∧ SamePrefix (min data.size 100) data data' := by
  obtain ⟨history, heap, hrequests, hreached⟩ :=
    exists_reached ⟨256, 64, .strict⟩ (by constructor <;> decide) (by decide) (by decide)
      [.allocate 20] (by decide)
  obtain ⟨-, -, htracks⟩ := hreached.tracks
  rw [hrequests] at htracks
  have hlegal : (Request.resize (some 48) 100).Legal heap [48] := ⟨by decide, by decide⟩
  obtain ⟨next, ⟨hnext, -⟩, -⟩ := htracks.follow hlegal
  rw [htracks.settings_eq] at hnext
  have hmoved : ((Request.resize (some 48) 100).perform heap).result = .ok (some 112, next) := hnext
  have hchain : Chain heap [48] 48 [100] next [112] 112 := Chain.start.moved hlegal hmoved
  obtain ⟨hone, hall⟩ := reached_resize (p := 48) hreached (by decide)
  obtain ⟨answer, next', hnext', hmet, -⟩ := hone 100 (by decide) (by decide)
  obtain ⟨rfl, rfl⟩ := Prod.mk.inj (Except.ok.inj (hnext'.symm.trans hmoved))
  exact ⟨history, heap, next', hreached, hmet 112 rfl, hchain, (hall _ _ _ _ hchain).2⟩

end Heap
end BoundaryHeap
