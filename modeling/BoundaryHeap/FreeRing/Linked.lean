import BoundaryHeap.FreeRing.Basic
import Mathlib.Data.List.Chain

/-!
# The ring as a list

What the link words of an arena say as a list of nodes. `Linked` is local: every two neighbours in
the row lead to each other. **A ring is the row with the sentinel at both ends** (`IsRing`), so that
the first node, the last node and the empty ring are no cases of their own, and an edit is read off
the two or three neighbours it touches.
-/

set_option autoImplicit false

namespace BoundaryHeap.Arena

def Adjacent (a : Arena) (x y : Nat) : Prop :=
  a.nextLink x = .ok y ∧ a.prevLink y = .ok x

/-- Every two neighbours in a row lead to each other. -/
def Linked (a : Arena) (row : List Nat) : Prop :=
  row.IsChain a.Adjacent

/-- A payload above the sentinel whose two links lie in the arena. -/
structure IsPlace (a : Arena) (p : Nat) : Prop where
  aligned : p % 16 = 0
  above : 32 ≤ p
  below : p + 16 ≤ a.brk

/-- The arena's links are a ring with the given nodes, in order, besides the sentinel. -/
structure IsRing (a : Arena) (ps : List Nat) : Prop where
  linked : a.Linked (prologue :: ps ++ [prologue])
  nodup : ps.Nodup
  place : ∀ p ∈ ps, a.IsPlace p

/-- A row and its continuation share one node. -/
theorem linked_append {a : Arena} {front back : List Nat} {x : Nat} :
    a.Linked (front ++ x :: back) ↔ a.Linked (front ++ [x]) ∧ a.Linked (x :: back) :=
  List.isChain_split

/-- A row stays linked in an arena that has the same links. -/
theorem Linked.transport {a b : Arena} {row : List Nat} (linked : a.Linked row)
    (same : ∀ x y, [x, y] <:+: row → b.nextLink x = a.nextLink x ∧ b.prevLink y = a.prevLink y) :
    b.Linked row := by
  induction row with
  | nil => exact List.IsChain.nil
  | cons x rest ih =>
    cases rest with
    | nil => exact List.IsChain.singleton x
    | cons y rest =>
      obtain ⟨⟨next, prev⟩, tail⟩ := List.isChain_cons_cons.1 linked
      have here := same x y ⟨[], rest, rfl⟩
      refine List.isChain_cons_cons.2 ⟨⟨here.1.trans next, here.2.trans prev⟩, ih tail ?_⟩
      rintro u v ⟨front, back, eq⟩
      exact same u v ⟨x :: front, back, by rw [← eq]; rfl⟩

/-- Following the ring from one of its nodes meets the nodes that come after. -/
theorem nodesFrom_of_linked {a : Arena} {p : Nat} {rest : List Nat} {budget : Nat}
    (linked : a.Linked (p :: rest ++ [prologue])) (inner : ∀ q ∈ p :: rest, q ≠ prologue)
    (enough : rest.length < budget) : a.nodesFrom p budget = .ok (p :: rest) := by
  induction rest generalizing p budget with
  | nil =>
    obtain ⟨n, rfl⟩ : ∃ n, budget = n + 1 := ⟨budget - 1, by omega⟩
    have next := (List.isChain_pair.1 linked).1
    have start := inner p (by simp)
    have stop : a.nodesFrom prologue n = .ok [] := by cases n <;> simp [nodesFrom]
    rw [nodesFrom, if_neg start, next]
    simp only [stop, Except.map]
  | cons q rest ih =>
    obtain ⟨n, rfl⟩ : ∃ n, budget = n + 1 := ⟨budget - 1, by omega⟩
    obtain ⟨⟨next, _⟩, tail⟩ := List.isChain_cons_cons.1 linked
    have start := inner p (by simp)
    have later := @ih q n tail (fun r hr => inner r (List.mem_cons_of_mem _ hr))
      (by simp only [List.length_cons] at enough; omega)
    rw [nodesFrom, if_neg start, next]
    simp only [later, Except.map]

end BoundaryHeap.Arena
