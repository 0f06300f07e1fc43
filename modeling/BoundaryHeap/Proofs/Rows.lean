import BoundaryHeap.BlockMap
import Mathlib.Data.List.Chain

/-!
# Rows of blocks

The addresses of a block map, without bytes and without the order of the search. A row is a list of
blocks that stand one right after the other. What later arguments use of it is pointwise: two
blocks of a row are the same or do not overlap (`Row.apart`), a row that is not empty starts and
ends with a block (`Row.starts`, `Row.ends`), and at an offset that no block straddles it falls
into two (`Row.split`). **With these, an edit of the row is checked on members and not on the
list.**
-/

set_option autoImplicit false

namespace BoundaryHeap

/-- The blocks stand one after the other from one offset up to another, and each is large enough to
stand alone. -/
def Row : Nat → List Cell → Nat → Prop
  | p, [], stop => p = stop
  | p, c :: rest, stop =>
    c.offset = p ∧ 32 ≤ c.size ∧ c.size % 16 = 0 ∧ Row (c.offset + c.size) rest stop

/-- No block has the offset strictly inside. -/
def Uncut (cells : List Cell) (q : Nat) : Prop :=
  ∀ c ∈ cells, c.offset + c.size ≤ q ∨ q ≤ c.offset

variable {p q r stop : Nat} {c d : Cell} {cells xs ys : List Cell}

theorem Row.le (h : Row p cells stop) : p ≤ stop := by
  induction cells generalizing p with
  | nil => exact Nat.le_of_eq h
  | cons c rest ih =>
    obtain ⟨rfl, -, -, hrest⟩ := h
    exact Nat.le_trans (Nat.le_add_right _ _) (ih hrest)

theorem Row.mem (h : Row p cells stop) (hc : c ∈ cells) :
    p ≤ c.offset ∧ c.offset + c.size ≤ stop ∧ 32 ≤ c.size ∧ c.size % 16 = 0 ∧
      c.offset % 16 = p % 16 := by
  induction cells generalizing p with
  | nil => cases hc
  | cons d rest ih =>
    obtain ⟨rfl, hmin, hmod, hrest⟩ := h
    have hle := hrest.le
    rcases List.mem_cons.1 hc with rfl | hc
    · exact ⟨Nat.le_refl _, hle, hmin, hmod, rfl⟩
    · obtain ⟨hlo, hhi, hmin', hmod', hal⟩ := ih hrest hc
      exact ⟨by omega, hhi, hmin', hmod', by omega⟩

theorem Row.stop_mod (h : Row p cells stop) : stop % 16 = p % 16 := by
  induction cells generalizing p with
  | nil => exact congrArg (· % 16) (Eq.symm h)
  | cons c rest ih =>
    obtain ⟨rfl, -, hmod, hrest⟩ := h
    have := ih hrest
    omega

theorem Row.append (h : Row p xs q) (h' : Row q ys stop) : Row p (xs ++ ys) stop := by
  induction xs generalizing p with
  | nil =>
    obtain rfl : p = q := h
    exact h'
  | cons c rest ih => exact ⟨h.1, h.2.1, h.2.2.1, ih h.2.2.2⟩

theorem Row.of_append (h : Row p (xs ++ ys) stop) : ∃ q, Row p xs q ∧ Row q ys stop := by
  induction xs generalizing p with
  | nil => exact ⟨p, rfl, h⟩
  | cons c rest ih =>
    obtain ⟨hoff, hmin, hmod, hrest⟩ := h
    obtain ⟨q, hxs, hys⟩ := ih hrest
    exact ⟨q, ⟨hoff, hmin, hmod, hxs⟩, hys⟩

/-- The blocks of a row are listed by address. -/
theorem Row.pairwise (h : Row p cells stop) : (cells.map Cell.offset).Pairwise (· < ·) := by
  induction cells generalizing p with
  | nil => exact List.Pairwise.nil
  | cons c rest ih =>
    obtain ⟨rfl, hmin, -, hrest⟩ := h
    refine List.pairwise_cons.2 ⟨?_, ih hrest⟩
    intro q hq
    obtain ⟨d, hd, rfl⟩ := List.mem_map.1 hq
    have := (hrest.mem hd).1
    omega

theorem Row.apart (h : Row p cells stop) (hc : c ∈ cells) (hd : d ∈ cells) :
    c = d ∨ c.offset + c.size ≤ d.offset ∨ d.offset + d.size ≤ c.offset := by
  induction cells generalizing p with
  | nil => cases hc
  | cons e rest ih =>
    obtain ⟨rfl, -, -, hrest⟩ := h
    rcases List.mem_cons.1 hc with rfl | hc' <;> rcases List.mem_cons.1 hd with rfl | hd'
    · exact .inl rfl
    · exact .inr (.inl (hrest.mem hd').1)
    · exact .inr (.inr (hrest.mem hc').1)
    · exact ih hrest hc' hd'

theorem Row.eq_of_offset (h : Row p cells stop) (hc : c ∈ cells) (hd : d ∈ cells)
    (he : c.offset = d.offset) : c = d := by
  have hcm := h.mem hc
  have hdm := h.mem hd
  rcases h.apart hc hd with heq | hlt | hlt
  · exact heq
  · omega
  · omega

theorem Row.eq_of_stop (h : Row p cells stop) (hc : c ∈ cells) (hd : d ∈ cells)
    (he : c.offset + c.size = d.offset + d.size) : c = d := by
  have hcm := h.mem hc
  have hdm := h.mem hd
  rcases h.apart hc hd with heq | hlt | hlt
  · exact heq
  · omega
  · omega

theorem Row.uncut_offset (h : Row p cells stop) (hc : c ∈ cells) : Uncut cells c.offset := by
  intro d hd
  have := h.mem hc
  rcases h.apart hc hd with rfl | hlt | hlt
  · exact .inr (Nat.le_refl _)
  · exact .inr (by omega)
  · exact .inl hlt

theorem Row.uncut_stop (h : Row p cells stop) (hc : c ∈ cells) :
    Uncut cells (c.offset + c.size) := by
  intro d hd
  have := h.mem hc
  rcases h.apart hc hd with rfl | hlt | hlt
  · exact .inl (Nat.le_refl _)
  · exact .inr hlt
  · exact .inl (by omega)

/-- The row falls into two at an offset that no block straddles. -/
theorem Row.split (h : Row p cells stop) (hlo : p ≤ q) (hhi : q ≤ stop) (hcut : Uncut cells q) :
    Row p (cells.filter (·.offset < q)) q ∧ Row q (cells.filter (q ≤ ·.offset)) stop := by
  induction cells generalizing p with
  | nil =>
    obtain rfl : p = stop := h
    exact ⟨Nat.le_antisymm hlo hhi, Nat.le_antisymm hhi hlo⟩
  | cons c rest ih =>
    have hall := fun d hd => (Row.mem h (c := d) hd).1
    obtain ⟨rfl, hmin, hmod, hrest⟩ := h
    have hcut' : Uncut rest q := fun d hd => hcut d (List.mem_cons_of_mem _ hd)
    rcases hcut c List.mem_cons_self with hle | hle
    · obtain ⟨hleft, hright⟩ := ih hrest hle hcut'
      rw [List.filter_cons_of_pos (by simp; omega), List.filter_cons_of_neg (by simp; omega)]
      exact ⟨⟨rfl, hmin, hmod, hleft⟩, hright⟩
    · -- The offset is where the row starts, so nothing lies before it.
      obtain rfl : c.offset = q := Nat.le_antisymm hlo hle
      rw [List.filter_eq_nil_iff.2 fun d hd => by simpa using hall d hd,
        List.filter_eq_self.2 fun d hd => by simpa using hall d hd]
      exact ⟨rfl, rfl, hmin, hmod, hrest⟩

theorem Row.starts (h : Row p cells stop) : p = stop ∨ ∃ c ∈ cells, c.offset = p := by
  cases cells with
  | nil => exact .inl h
  | cons c rest => exact .inr ⟨c, List.mem_cons_self, h.1⟩

theorem Row.ends (h : Row p cells stop) : p = stop ∨ ∃ c ∈ cells, c.offset + c.size = stop := by
  induction cells generalizing p with
  | nil => exact .inl h
  | cons c rest ih =>
    obtain ⟨rfl, -, -, hrest⟩ := h
    rcases ih hrest with heq | ⟨d, hd, hstop⟩
    · exact .inr ⟨c, List.mem_cons_self, heq⟩
    · exact .inr ⟨d, List.mem_cons_of_mem _ hd, hstop⟩

theorem Row.last (h : Row p cells stop) : (cells.getLast?.map Cell.stop).getD p = stop := by
  induction cells generalizing p with
  | nil => exact h
  | cons c rest ih =>
    obtain ⟨rfl, -, -, hrest⟩ := h
    cases rest with
    | nil => exact hrest
    | cons d rest =>
      have hlast := ih hrest
      obtain ⟨e, he⟩ : ∃ e, (d :: rest).getLast? = some e :=
        ⟨_, List.getLast?_eq_some_getLast (List.cons_ne_nil d rest)⟩
      rw [he] at hlast
      rw [List.getLast?_cons_cons, he]
      exact hlast

/-- Neighbours in the list are neighbours by address. -/
theorem Row.isChain {R : Cell → Cell → Prop} (h : Row p cells stop)
    (hR : ∀ c ∈ cells, ∀ d ∈ cells, c.offset + c.size = d.offset → R c d) : cells.IsChain R := by
  induction cells generalizing p with
  | nil => exact List.IsChain.nil
  | cons c rest ih =>
    obtain ⟨rfl, -, -, hrest⟩ := h
    have htail := ih hrest fun d hd e he => hR d (by simp [hd]) e (by simp [he])
    cases rest with
    | nil => exact List.IsChain.singleton c
    | cons d rest =>
      exact List.isChain_cons_cons.2 ⟨hR c (by simp) d (by simp) hrest.1.symm, htail⟩

/-- A row has no more blocks than its bytes have room for. -/
theorem Row.length_le (h : Row p cells stop) : p + 32 * cells.length ≤ stop := by
  induction cells generalizing p with
  | nil => exact Nat.le_of_eq h
  | cons c rest ih =>
    obtain ⟨rfl, hmin, -, hrest⟩ := h
    have := ih hrest
    simp only [List.length_cons]
    omega

end BoundaryHeap
