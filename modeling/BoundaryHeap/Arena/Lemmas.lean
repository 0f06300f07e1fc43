import BoundaryHeap.Arena.Basic

/-!
# Reading after writing

What the accesses of an arena have to do with each other. A write succeeds exactly when its window
lies below the mark, keeps the mark and the ceiling, and changes what is read through its own window
and through no other. **The word that was written is the word that is read** (`readWord_of_writeWord`),
and a word whose window is disjoint from a write reads as before (`readWord_of_write`).
-/

set_option autoImplicit false

namespace BoundaryHeap.Arena

variable {a a' : Arena} {start offset : Nat} {data : ByteArray} {w : UInt64}

/-! ## Where accesses succeed -/

theorem readWord_isOk_iff : (∃ w, a.readWord offset = .ok w) ↔ offset + 8 ≤ a.brk := by
  unfold readWord
  split
  · next h => exact ⟨fun _ => h, fun _ => ⟨_, rfl⟩⟩
  · next h => exact ⟨(by rintro ⟨_, ⟨⟩⟩), fun e => absurd e h⟩

theorem write_isOk_iff : (∃ a', a.write start data = .ok a') ↔ start + data.size ≤ a.brk := by
  obtain ⟨bytes, reserved, size_le, reserved_lt⟩ := a
  simp only [write, brk]
  split
  · next h => exact ⟨fun _ => h, fun _ => ⟨_, rfl⟩⟩
  · next h => exact ⟨(by rintro ⟨_, ⟨⟩⟩), fun e => absurd e h⟩

theorem writeWord_isOk_iff : (∃ a', a.writeWord offset w = .ok a') ↔ offset + 8 ≤ a.brk := by
  have size : (Window.digits wordSize w.toNat).toByteArray.size = 8 := by simp
  have key := @write_isOk_iff a offset (Window.digits wordSize w.toNat).toByteArray
  rwa [size] at key

/-! ## What a write keeps -/

theorem write_eq_ok (h : a.write start data = .ok a') :
    start + data.size ≤ a.brk ∧ a'.bytes = Window.splice a.bytes start data ∧
      a'.reserved = a.reserved := by
  have fits := write_isOk_iff.1 ⟨a', h⟩
  obtain ⟨bytes, reserved, size_le, reserved_lt⟩ := a
  simp only [write, brk] at h fits
  rw [dif_pos fits] at h
  cases h
  exact ⟨fits, rfl, rfl⟩

theorem brk_of_write (h : a.write start data = .ok a') : a'.brk = a.brk := by
  obtain ⟨fits, bytes, _⟩ := write_eq_ok h
  rw [brk, bytes, Window.size_splice fits, brk]

theorem reserved_of_write (h : a.write start data = .ok a') : a'.reserved = a.reserved :=
  (write_eq_ok h).2.2

theorem brk_of_writeWord (h : a.writeWord offset w = .ok a') : a'.brk = a.brk :=
  brk_of_write h

theorem reserved_of_writeWord (h : a.writeWord offset w = .ok a') : a'.reserved = a.reserved :=
  reserved_of_write h

/-! ## What a read sees of it -/

theorem readWord_of_write (h : a.write start data = .ok a')
    (apart : offset + 8 ≤ start ∨ start + data.size ≤ offset) :
    a'.readWord offset = a.readWord offset := by
  obtain ⟨fits, bytes, _⟩ := write_eq_ok h
  have mark := brk_of_write h
  unfold readWord
  by_cases inside : offset + wordSize ≤ a.brk
  · rw [dif_pos inside, dif_pos (by rw [mark]; exact inside)]
    refine congrArg (fun n => Except.ok (UInt64.ofNat n)) (Window.number_congr _ _ fun i hi => ?_)
    simp only [wordSize] at hi
    simp only [bytes]
    exact Window.getElem_splice_of_outside fits (by omega)
  · rw [dif_neg inside, dif_neg (by rw [mark]; exact inside)]

theorem readWord_of_writeWord (h : a.writeWord offset w = .ok a') :
    a'.readWord offset = .ok w := by
  obtain ⟨fits, bytes, _⟩ := write_eq_ok h
  have mark := brk_of_write h
  have room : offset + wordSize ≤ a.brk := by simpa using fits
  have bound : w.toNat < Window.limit wordSize := w.toNat_lt
  unfold readWord
  rw [dif_pos (by rw [mark]; exact room)]
  simp only [bytes]
  rw [Window.number_splice room, Nat.mod_eq_of_lt bound, UInt64.ofNat_toNat]

theorem readOffset_of_writeOffset {value : Nat} (h : a.writeOffset offset value = .ok a')
    (small : value < 0x10000000000000000) : a'.readOffset offset = .ok value := by
  rw [readOffset, readWord_of_writeWord h, Except.map, UInt64.toNat_ofNat', Nat.mod_eq_of_lt small]

/-! ## Growing -/

/-- Which extensions are granted, and what is answered. -/
theorem extend_eq_ok {increment : Int} {old : Nat} (h : a.extend increment = (.ok old, a')) :
    0 ≤ increment ∧ increment ≤ a.remaining ∧ old = a.brk ∧
      a'.bytes = Window.pad a.bytes 0 increment.toNat ∧ a'.reserved = a.reserved := by
  obtain ⟨bytes, reserved, size_le, reserved_lt⟩ := a
  cases increment with
  | negSucc n => simp [extend] at h
  | ofNat n =>
    simp only [extend] at h
    split at h
    · next fits =>
      simp only [Prod.mk.injEq, Except.ok.injEq] at h
      obtain ⟨rfl, rfl⟩ := h
      exact ⟨Int.natCast_nonneg n, Int.ofNat_le.2 fits, rfl, rfl, rfl⟩
    · simp at h

/-- Why an extension is refused, and that the arena is then as it was. -/
theorem extend_eq_error {increment : Int} {e : ArenaError}
    (h : a.extend increment = (.error e, a')) :
    a' = a ∧ (increment < 0 ∧ e = .negativeIncrement increment ∨
      a.remaining < increment ∧ e = .exhausted increment.toNat a.remaining) := by
  obtain ⟨bytes, reserved, size_le, reserved_lt⟩ := a
  cases increment with
  | negSucc n =>
    simp only [extend, Prod.mk.injEq, Except.error.injEq] at h
    exact ⟨h.2.symm, .inl ⟨Int.negSucc_lt_zero n, h.1.symm⟩⟩
  | ofNat n =>
    simp only [extend] at h
    split at h
    · simp at h
    · next full =>
      simp only [Prod.mk.injEq, Except.error.injEq] at h
      exact ⟨h.2.symm, .inr ⟨Int.ofNat_lt.2 (Nat.lt_of_not_le full), h.1.symm⟩⟩

end BoundaryHeap.Arena
