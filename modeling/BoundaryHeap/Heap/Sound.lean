import BoundaryHeap.Audit.Report
import BoundaryHeap.FreeRing.Linked
import Mathlib.Data.List.Chain

/-!
# Sound heaps

What the bytes of a heap look like while nobody has misused it. The sentinels stand where they
should, blocks fill everything in between and no two free ones touch, and the ring has exactly the
free blocks as nodes. The blocks by address and the nodes in order are part of the statement, so
that an operation can be described by what it does to these two lists.

That blocks fill a span means that each starts where the one before ends, has some bytes, and carries
one and the same tag at both ends. **A walk over a tiled span that ends in an empty block lists the
tiles** (`blocksFrom_of_tiles`).
-/

set_option autoImplicit false

namespace BoundaryHeap

/-! ## Tilings -/

/-- No two blocks in a row are both free. -/
def Merged (blocks : List Block) : Prop :=
  blocks.IsChain fun b c => b.tag.allocated = true ∨ c.tag.allocated = true

namespace Arena

/-- The blocks fill the bytes from one payload offset up to another, and both tags of each are as
given. -/
def Tiles (a : Arena) : Nat → List Block → Nat → Prop
  | p, [], stop => p = stop
  | p, b :: rest, stop =>
    b.payload = p ∧ 0 < b.tag.size ∧ a.header p = .ok b.tag ∧ a.footer p = .ok b.tag ∧
      a.Tiles (p + b.tag.size) rest stop

theorem Tiles.le {a : Arena} {p stop : Nat} {blocks : List Block}
    (tiles : a.Tiles p blocks stop) : p ≤ stop := by
  induction blocks generalizing p with
  | nil => exact Nat.le_of_eq tiles
  | cons b rest ih => exact Nat.le_trans (Nat.le_add_right _ _) (ih tiles.2.2.2.2)

/-- A walk over tiles up to an empty block lists the tiles. -/
theorem blocksFrom_of_tiles {a : Arena} {p stop : Nat} {blocks : List Block} {last : Tag}
    (tiles : a.Tiles p blocks stop) (inside : stop ≤ a.brk) (header : a.header stop = .ok last)
    (empty : last.size = 0) : a.blocksFrom p = .ok blocks := by
  induction blocks generalizing p with
  | nil =>
    obtain rfl : p = stop := tiles
    rw [blocksFrom, if_neg (by omega), header]
    simp [empty]
  | cons b rest ih =>
    obtain ⟨rfl, pos, own, _, tail⟩ := tiles
    have reach := tail.le
    rw [blocksFrom, if_neg (by omega), own]
    simp only [wordSize]
    rw [if_neg (by omega), if_pos (by omega), ih tail]
    rfl

/-! ## Soundness -/

/-- The arena is a sound heap with these blocks, by address, and these nodes, in ring order. -/
structure Sound (a : Arena) (blocks : List Block) (ring : List Nat) : Prop where
  brk_mod : a.brk % 16 = 0
  prologueTags : a.prologueTags = .ok (Tag.sentinel, Tag.sentinel)
  tiles : a.Tiles firstPayload blocks a.brk
  sizes : ∀ b ∈ blocks, 32 ≤ b.tag.size
  epilogue : a.header a.brk = .ok Tag.epilogue
  merged : Merged blocks
  isRing : a.IsRing ring
  mem_ring : ∀ p, p ∈ ring ↔ ∃ b ∈ blocks, b.payload = p ∧ b.tag.isFree = true

variable {a : Arena} {blocks : List Block} {ring : List Nat}

theorem Sound.overhead_le_brk (sound : a.Sound blocks ring) : 48 ≤ a.brk :=
  sound.tiles.le

end Arena

end BoundaryHeap
