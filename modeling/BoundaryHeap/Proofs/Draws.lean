import BoundaryHeap.Proofs.Replays
import BoundaryHeap.Workload.Step

/-!
# Drawn workloads

A draw from a range multiplies a word by the size of the range and keeps the high half, which is
below the size. A carry from a second word may raise it by one, and **the high half can take it**: a
carry is only looked for where the low half is so long that the high half is not the largest one
(`KeyStream.carry_lt`). So all that is drawn lies in its range, up to the last number of a word.

In particular no step of a workload moves a block to nothing, and that is all that a replay has to
be spared to be exact.
-/

set_option autoImplicit false

namespace BoundaryHeap

variable {lo hi x size modulus maxSize k count : Nat} {step : Step}

/-! ## Draws from a range -/

namespace KeyStream

theorem nextWord_lt (s : KeyStream) (wide : Bool) :
    (s.nextWord wide).1 < if wide then UInt64.size else UInt32.size := by
  cases wide with
  | false => exact UInt32.toNat_lt_size _
  | true => exact UInt64.toNat_lt_size _

/-- The high half of a word times a size is below the size. -/
theorem high_lt (hx : x < modulus) (hpos : 0 < size) : x * size / modulus < size := by
  rw [Nat.div_lt_iff_lt_mul (by omega), Nat.mul_comm size]
  exact Nat.mul_lt_mul_of_pos_right hx hpos

/-- **Where a carry is looked for, there is room for one.** -/
theorem carry_lt (hx : x < modulus) (hlow : modulus - size < x * size % modulus) :
    x * size / modulus + 1 < size := by
  by_contra hge
  have hsplit := Nat.div_add_mod (x * size) modulus
  have hword : (x + 1) * size ≤ modulus * size := Nat.mul_le_mul_right size hx
  have hhigh : modulus * size ≤ modulus * (x * size / modulus + 1) :=
    Nat.mul_le_mul_left modulus (Nat.le_of_not_lt hge)
  rw [Nat.add_one_mul] at hword
  rw [Nat.mul_add_one] at hhigh
  omega

/-- The size of a range wraps around to zero if every word is in the range. -/
theorem size_mod (hle : lo ≤ hi) (hlt : hi < modulus) :
    (hi - lo + 1) % modulus = hi - lo + 1 ∨
      (hi - lo + 1 = modulus ∧ (hi - lo + 1) % modulus = 0) := by
  rcases Nat.lt_or_ge (hi - lo + 1) modulus with hpart | hfull
  · exact .inl (Nat.mod_eq_of_lt hpart)
  · have hall : hi - lo + 1 = modulus := by omega
    exact .inr ⟨hall, by rw [hall, Nat.mod_self]⟩

/-- The words are as wide as the end of the range needs. -/
theorem lt_modulus (hlt : hi < wordLimit) :
    hi < if decide (UInt32.size ≤ hi) then UInt64.size else UInt32.size := by
  split
  · exact hlt
  · next hnarrow => simpa using hnarrow

/-- **A draw from a range lies in the range.** -/
theorem range_mem (s : KeyStream) (hle : lo ≤ hi) (hlt : hi < wordLimit) :
    lo ≤ (s.range lo hi).1 ∧ (s.range lo hi).1 ≤ hi := by
  unfold range
  extract_lets wide modulus size
  have hbelow : hi < modulus := lt_modulus hlt
  have hx : (s.nextWord wide).1 < modulus := nextWord_lt s wide
  have hsize : size = hi - lo + 1 ∨ (hi - lo + 1 = modulus ∧ size = 0) := size_mod hle hbelow
  -- Nothing else matters about the word and the two sizes from here on.
  clear_value size modulus
  generalize s.nextWord wide = drawn at hx
  obtain ⟨x, s'⟩ := drawn
  simp only at hx ⊢
  rcases hsize with rfl | ⟨hall, rfl⟩
  · rw [if_neg (Nat.succ_ne_zero _)]
    have hhigh : x * (hi - lo + 1) / modulus < hi - lo + 1 := high_lt hx (Nat.succ_pos _)
    split
    · next hlow =>
      have hcarry := carry_lt hx hlow
      split
      · exact ⟨Nat.le_add_right_of_le (Nat.le_add_right _ _), by simp only; omega⟩
      · exact ⟨Nat.le_add_right _ _, by simp only; omega⟩
    · exact ⟨Nat.le_add_right _ _, by simp only; omega⟩
  · rw [if_pos rfl]
    exact ⟨Nat.le_add_right _ _, by simp only; omega⟩

end KeyStream

/-! ## Drawn steps -/

namespace Step

/-- What may be drawn: any slot below the last number of a word, and any size but zero up to the
limit, or up to 128 if that is more. -/
def InRange (maxSize : Nat) : Step → Prop
  | allocate size => 1 ≤ size ∧ size ≤ max 128 maxSize
  | release slot => slot < wordLimit - 1
  | resize slot size => slot < wordLimit - 1 ∧ 1 ≤ size ∧ size ≤ max 128 maxSize

theorem drawSize_mem (s : KeyStream) (hmax : maxSize < wordLimit) :
    1 ≤ (drawSize s maxSize).1 ∧ (drawSize s maxSize).1 ≤ max 128 maxSize := by
  have hlimit : max maxSize 1 < wordLimit := by
    simp only [wordLimit] at hmax ⊢
    omega
  unfold drawSize
  simp only
  split
  · obtain ⟨hge, hle⟩ : 1 ≤ _ ∧ _ ≤ 128 :=
      (s.range 0 9).2.range_mem (by omega) (by simp only [wordLimit]; omega)
    omega
  · obtain ⟨hge, hle⟩ : 1 ≤ _ ∧ _ ≤ max maxSize 1 :=
      (s.range 0 9).2.range_mem (by omega) hlimit
    omega

theorem slot_lt (s : KeyStream) : (s.range 0 slotLimit).1 < wordLimit - 1 := by
  have hlimit : slotLimit + 2 = wordLimit := rfl
  obtain ⟨-, hle⟩ := s.range_mem (Nat.zero_le slotLimit) (by omega)
  omega

theorem draw_inRange (s : KeyStream) (hmax : maxSize < wordLimit) :
    (draw s maxSize).1.InRange maxSize := by
  unfold draw
  split
  next kind s₁ hkind =>
  split
  · split
    next size s₂ hsize =>
    have hmem := drawSize_mem s₁ hmax
    rw [hsize] at hmem
    exact hmem
  · split
    · split
      next slot s₂ hslot =>
      have hlt := slot_lt s₁
      rw [hslot] at hlt
      exact hlt
    · split
      next slot s₂ hslot =>
      split
      next size s₃ hsize =>
      have hlt := slot_lt s₁
      have hmem := drawSize_mem s₂ hmax
      rw [hslot] at hlt
      rw [hsize] at hmem
      exact ⟨hlt, hmem⟩

theorem drawMany_succ (s : KeyStream) (maxSize count : Nat) :
    drawMany s maxSize (count + 1) =
      (draw s maxSize).1 :: drawMany (draw s maxSize).2 maxSize count := by
  rw [drawMany]

theorem length_drawMany (s : KeyStream) (maxSize count : Nat) :
    (drawMany s maxSize count).length = count := by
  induction count generalizing s with
  | zero => rfl
  | succ count ih => rw [drawMany_succ, List.length_cons, ih]

theorem drawMany_inRange (s : KeyStream) (hmax : maxSize < wordLimit) (count : Nat) :
    ∀ step ∈ drawMany s maxSize count, step.InRange maxSize := by
  induction count generalizing s with
  | zero => exact fun step hstep => by cases hstep
  | succ count ih =>
    rw [drawMany_succ, List.forall_mem_cons]
    exact ⟨draw_inRange s hmax, ih _⟩

/-- **The stream is threaded through,** so how many steps are drawn does not change the first. -/
theorem drawMany_take (s : KeyStream) (maxSize : Nat) (hle : k ≤ count) :
    drawMany s maxSize k = (drawMany s maxSize count).take k := by
  induction k generalizing s count with
  | zero => rfl
  | succ k ih =>
    cases count with
    | zero => cases hle
    | succ count =>
      rw [drawMany_succ, drawMany_succ, List.take_succ_cons, ← ih _ (Nat.le_of_succ_le_succ hle)]

theorem InRange.size_lt (h : step.InRange maxSize) (hmax : maxSize < wordLimit) :
    step.size < wordLimit := by
  have hlimit : max 128 maxSize < wordLimit := by
    simp only [wordLimit] at hmax ⊢
    omega
  cases step with
  | allocate size => exact Nat.lt_of_le_of_lt h.2 hlimit
  | release slot => exact Nat.lt_of_le_of_lt (Nat.zero_le _) hlimit
  | resize slot size => exact Nat.lt_of_le_of_lt h.2.2 hlimit

/-- **Drawn workloads are in range and safe to replay.** A seed fixes a sequence of steps, of which
a workload is as many as were asked for; and on any new heap a replay of them is exact. -/
theorem mixedWorkload_spec (seed : UInt64) (count maxSize : Nat) (hmax : maxSize < wordLimit) :
    (mixedWorkload seed count maxSize).length = count ∧
      (∀ step ∈ mixedWorkload seed count maxSize, step.InRange maxSize) ∧
      (∀ k ≤ count, mixedWorkload seed k maxSize = (mixedWorkload seed count maxSize).take k) ∧
      ∀ settings heap, (Heap.create settings).result = .ok (.ok heap) →
        ∃ live next, Exact heap (mixedWorkload seed count maxSize) live next := by
  have hrange := drawMany_inRange (KeyStream.ofSeed seed) hmax count
  refine ⟨length_drawMany _ _ _, hrange, fun k hle => drawMany_take _ _ hle, ?_⟩
  intro settings heap hmade
  refine exact_of_not_drops hmade (fun step hstep => (hrange step hstep).size_lt hmax) ?_
  refine not_drops fun slot hzero => ?_
  exact absurd (hrange _ hzero).2.1 (by decide)

/-- Twenty steps, of which the first ten are those of a shorter workload. -/
theorem mixedWorkload_spec_small : 4096 < wordLimit ∧ (mixedWorkload 7 20 4096).length = 20 ∧
    (∀ step ∈ mixedWorkload 7 20 4096, step.InRange 4096) ∧
    mixedWorkload 7 10 4096 = (mixedWorkload 7 20 4096).take 10 ∧
    ∃ heap live next, (Heap.create ⟨256, 64, .strict⟩).result = .ok (.ok heap) ∧
      Exact heap (mixedWorkload 7 20 4096) live next := by
  have hmax : 4096 < wordLimit := by decide
  obtain ⟨hlength, hrange, hprefix, hexact⟩ := mixedWorkload_spec 7 20 4096 hmax
  obtain ⟨heap, hmade⟩ : ∃ heap, (Heap.create ⟨256, 64, .strict⟩).result = .ok (.ok heap) :=
    Heap.create_eq_ok_iff.2 ⟨by constructor <;> decide, by decide, by decide⟩
  obtain ⟨live, next, hdone⟩ := hexact _ heap hmade
  exact ⟨hmax, hlength, hrange, hprefix 10 (by decide), heap, live, next, hmade, hdone⟩

end Step
end BoundaryHeap
