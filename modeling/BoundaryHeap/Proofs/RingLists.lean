import BoundaryHeap.Proofs.CleanReports

/-!
# The ring is a list

Nobody who uses the ring has to think of links. An arena whose links are a ring with some nodes
(`IsRing`) answers as the list of these nodes does, and its edits are edits of that list: **walks and
searches along the ring are walks and searches in the list, and the three edits put a node at its
front, take one out, and exchange one for another** (`IsRing.acts_as_list`). An edit writes the links
of the node that comes in and those that lead to the place from both sides (`Flanks`), and nothing
else.

That holds of lists of any length. In the short ones the sides of a place are one node, or the
sentinel twice.
-/

set_option autoImplicit false

namespace BoundaryHeap
namespace Arena

variable {a : Arena} {ring : List Nat} {p : Nat}

/-! ## Sizes -/

/-- The size that the header of `p` tells, if there is room for a header. -/
def headerSize (a : Arena) (p : Nat) : Nat :=
  match a.header p with
  | .ok tag => tag.size
  | .error _ => 0

theorem IsPlace.headerSize_eq (h : a.IsPlace p) :
    ∃ tag, a.header p = .ok tag ∧ tag.size = a.headerSize p := by
  have hlow := h.above
  have hfit := h.below
  obtain ⟨tag, htag⟩ := header_ok (a := a) (p := p) (by omega) (by omega)
  exact ⟨tag, htag, by rw [headerSize, htag]⟩

/-! ## Edits -/

theorem filter_ne_eq_erase (hnodup : ring.Nodup) : ring.filter (· ≠ p) = ring.erase p := by
  rw [hnodup.erase_eq_filter]
  apply List.filter_congr
  intro q _
  by_cases heq : q = p <;> simp [heq]

/-- **The ring is a list.** Walking it gives the list, at once or node by node, and ends; a search
gives the first node of the list whose header tells enough bytes. A new place is put in front, a node
is taken out, and a new place takes the position of a node, each by writing links of the node that
comes in and of the neighbours, where the sentinel may be a neighbour too. -/
theorem IsRing.acts_as_list (h : a.IsRing ring) :
    (a.nodes = .ok ring ∧ (∀ count, a.takeNodes count = .ok (ring.take count)) ∧
      ∀ budget, ring.length ≤ budget → a.nodesFrom (ring.headD prologue) budget = .ok ring) ∧
    (∀ p ∈ ring, ∃ tag, a.header p = .ok tag ∧ tag.size = a.headerSize p) ∧
    (∀ size, a.firstFit size = .ok (ring.find? fun p => size ≤ a.headerSize p)) ∧
    (∀ p, a.IsPlace p → p ∉ ring → ∃ b, a.insertAtHead p = .ok b ∧ b.IsRing (p :: ring) ∧
      a.Edit [p, p + 8, ring.headD prologue, prologue + 8] b) ∧
    (∀ p ∈ ring, ∃ b x y, a.removeNode p = .ok b ∧ b.IsRing (ring.erase p) ∧
      Flanks ring x p y ∧ a.Edit [x + 8, y] b) ∧
    ∀ p ∈ ring, ∀ r, a.IsPlace r → r ∉ ring → ∃ links b x y, a.links p = .ok links ∧
      a.takePosition links r = .ok b ∧ b.IsRing (ring.map fun q => if q = p then r else q) ∧
      Flanks ring x p y ∧ a.Edit [r, r + 8, x + 8, y] b := by
  refine ⟨⟨h.nodes_eq, h.takeNodes_eq, fun _ hbudget => h.nodesFrom_eq hbudget⟩, ?_,
    ?_, ?_, ?_, ?_⟩
  · intro p hp
    exact (h.place p hp).headerSize_eq
  · exact h.firstFit_eq fun p hp => (h.place p hp).headerSize_eq
  · intro p hplace hnew
    obtain ⟨b, hb, hedit, hring⟩ := h.insert hplace hnew rfl
    exact ⟨b, hb, hring, hedit⟩
  · intro p hp
    obtain ⟨b, x, y, hb, hflanks, hedit, hring⟩ := h.removeNode_spec hp
    rw [filter_ne_eq_erase h.nodup] at hring
    exact ⟨b, x, y, hb, hring, hflanks, hedit⟩
  · intro p hp r hplace hnew
    obtain ⟨links, hlinks, -⟩ := links_ok (h.place p hp).below
    obtain ⟨b, x, y, hb, hflanks, hedit, hring⟩ := h.takePosition_spec hp hlinks hplace hnew
    exact ⟨links, b, x, y, hlinks, hb, hring, hflanks, hedit⟩

set_option maxRecDepth 2000 in
/-- Two nodes: the first is taken out from between the sentinel and the second, and the place between
the two blocks takes its position. -/
theorem IsRing.acts_as_list_twoFree : twoFree.IsRing [112, 48] ∧ twoFree.nodes = .ok [112, 48] ∧
    twoFree.firstFit 32 = .ok (some 112) ∧ twoFree.firstFit 33 = .ok none ∧
    (∃ b, twoFree.removeNode 112 = .ok b ∧ b.IsRing [48]) ∧
    (twoFree.IsPlace 80 ∧ 80 ∉ [112, 48]) ∧ (∃ b, twoFree.insertAtHead 80 = .ok b ∧
      b.IsRing [80, 112, 48] ∧ twoFree.Edit [80, 88, 112, 24] b) ∧
    ∃ links b, twoFree.links 112 = .ok links ∧ twoFree.takePosition links 80 = .ok b ∧
      b.IsRing [80, 48] := by
  have hring : twoFree.IsRing [112, 48] := twoFree_sound.isRing
  have hplace : twoFree.IsPlace 80 := ⟨rfl, by decide, by decide⟩
  have hnew : 80 ∉ [112, 48] := by decide
  obtain ⟨⟨hnodes, -⟩, -, hfirst, hinsert, hremove, htake⟩ := hring.acts_as_list
  obtain ⟨b, -, -, hb, hremoved, -⟩ := hremove 112 (by decide)
  obtain ⟨c, hc, hinserted, hedit⟩ := hinsert 80 hplace hnew
  obtain ⟨links, d, -, -, hlinks, hd, htaken, -⟩ := htake 112 (by decide) 80 hplace hnew
  exact ⟨hring, hnodes, hfirst 32, hfirst 33, ⟨b, hb, hremoved⟩, ⟨hplace, hnew⟩,
    ⟨c, hc, hinserted, hedit⟩, links, d, hlinks, hd, htaken⟩

end Arena
end BoundaryHeap
