import BoundaryHeap.Arena.Lifecycle
import BoundaryHeap.Proofs.Edits

/-!
# The mark of an arena

An arena grows and never shrinks, and nothing but a granted extension makes it grow: **at every point
of a run the mark is the sum of the increments granted so far** (`reached_mark`), and what is left is
the rest of the ceiling. From that rest one can tell what becomes of an extension (`Extension`): it is
granted and brings zeros, or it is refused and changes nothing. The writes put bytes in the place of
others, so they cannot move the mark.
-/

set_option autoImplicit false

namespace BoundaryHeap.Arena

variable {a b : Arena} {reserved source target count : Nat} {history : List Record}
  {change : Change} {answer : Option (Except ArenaError Nat)}

/-! ## Copies -/

theorem copyWithin_eq_ok_iff : a.copyWithin source target count = .ok b ↔
    source + count ≤ a.brk ∧ a.write target (a.bytes.extract source (source + count)) = .ok b := by
  rw [copyWithin, bind_eq_ok_iff]
  unfold window
  split
  · next hfit => simp [hfit]
  · next hout => simp [hout]

theorem size_extract_of_le (hfit : source + count ≤ a.brk) :
    (a.bytes.extract source (source + count)).size = count := by
  simp only [brk] at hfit
  rw [ByteArray.size_extract]
  omega

/-! ## Single changes -/

namespace Change

theorem perform_extend (a : Arena) (increment : Int) :
    ((extend increment).perform a).result =
      .ok (some (a.extend increment).1, (a.extend increment).2) := by
  simp only [perform, grow]
  rcases a.extend increment with ⟨_ | _, _⟩ <;> rfl

/-- What the three kinds of writes have in common. -/
theorem silent_eq_ok_iff {x : Except Fault Arena} :
    (do return (none, ← x) : Traced (Option (Except ArenaError Nat) × Arena)).result =
      .ok (answer, b) ↔ answer = none ∧ x = .ok b := by
  rw [Traced.result_bind, Traced.result_lift, bind_eq_ok_iff]
  constructor
  · rintro ⟨c, hc, hpair⟩
    cases hpair
    exact ⟨rfl, hc⟩
  · rintro ⟨rfl, hb⟩
    exact ⟨b, hb, rfl⟩

/-- **A change is made if and only if it fits.** -/
theorem perform_isOk_iff (a : Arena) (change : Change) :
    (∃ answer b, (change.perform a).result = .ok (answer, b)) ↔ change.Fits a := by
  cases change with
  | extend increment => exact ⟨fun _ => trivial, fun _ => ⟨_, _, perform_extend a increment⟩⟩
  | writeWord offset w =>
    simp only [perform, silent_eq_ok_iff, exists_and_left, exists_eq_left]
    exact writeWord_isOk_iff
  | write start data =>
    simp only [perform, silent_eq_ok_iff, exists_and_left, exists_eq_left]
    exact write_isOk_iff
  | copyWithin source target count =>
    simp only [perform, silent_eq_ok_iff, exists_and_left, exists_eq_left, copyWithin_eq_ok_iff,
      write_isOk_iff, Fits]
    apply and_congr_right
    intro hfit
    rw [size_extract_of_le hfit]

/-- Writes answer nothing, and move neither the mark nor the ceiling. -/
theorem perform_silent (h : (change.perform a).result = .ok (answer, b))
    (hwrite : ∀ increment, change ≠ .extend increment) :
    answer = none ∧ b.brk = a.brk ∧ b.reserved = a.reserved := by
  cases change with
  | extend increment => exact absurd rfl (hwrite increment)
  | writeWord offset w =>
    obtain ⟨hanswer, hdone⟩ := silent_eq_ok_iff.1 h
    exact ⟨hanswer, brk_of_writeWord hdone, reserved_of_writeWord hdone⟩
  | write start data =>
    obtain ⟨hanswer, hdone⟩ := silent_eq_ok_iff.1 h
    exact ⟨hanswer, brk_of_write hdone, reserved_of_write hdone⟩
  | copyWithin source target count =>
    obtain ⟨hanswer, hdone⟩ := silent_eq_ok_iff.1 h
    obtain ⟨-, hwritten⟩ := copyWithin_eq_ok_iff.1 hdone
    exact ⟨hanswer, brk_of_write hwritten, reserved_of_write hwritten⟩

/-- The mark moves up by what is granted. -/
theorem brk_of_perform (h : (change.perform a).result = .ok (answer, b)) :
    (b.brk : Int) = a.brk + Record.granted ⟨change, answer⟩ ∧
      0 ≤ Record.granted ⟨change, answer⟩ ∧ b.reserved = a.reserved := by
  cases change with
  | extend increment =>
    rw [perform_extend] at h
    have hresult := extension a increment
    generalize a.extend increment = result at hresult h
    cases h
    cases hresult with
    | @granted b hpos _ hextended =>
      have hbrk : (b.brk : Int) = a.brk + increment := by
        rw [hextended.brk_eq, Int.natCast_add, Int.toNat_of_nonneg hpos]
      exact ⟨hbrk, hpos, hextended.reserved_eq⟩
    | negative _ => exact ⟨(Int.add_zero _).symm, Int.le_refl 0, rfl⟩
    | exhausted _ => exact ⟨(Int.add_zero _).symm, Int.le_refl 0, rfl⟩
  | writeWord _ _ | write _ _ | copyWithin _ _ _ =>
    obtain ⟨rfl, hbrk, hreserved⟩ := perform_silent h fun _ => Change.noConfusion
    rw [hbrk]
    exact ⟨(Int.add_zero _).symm, Int.le_refl 0, hreserved⟩

end Change

/-! ## Runs -/

theorem granted_concat (history : List Record) (r : Record) :
    granted (history ++ [r]) = granted history + r.granted := by
  induction history with
  | nil => simp [granted]
  | cons s rest ih => rw [List.cons_append, granted, ih, granted, Int.add_assoc]

theorem reserve_eq_ok (h : (Arena.reserve reserved).result = .ok (.ok a)) :
    a.brk = 0 ∧ a.reserved = reserved := by
  unfold Arena.reserve at h
  split at h
  · cases h
  · split at h
    · cases h
      exact ⟨rfl, rfl⟩
    · cases h

theorem Reached.brk_eq (h : Reached reserved history a) :
    (a.brk : Int) = granted history ∧ a.reserved = reserved := by
  induction h with
  | reserve hmade =>
    obtain ⟨hbrk, hreserved⟩ := reserve_eq_ok hmade
    exact ⟨congrArg Nat.cast hbrk, hreserved⟩
  | step _ hdone ih =>
    obtain ⟨hbrk, -, hreserved⟩ := Change.brk_of_perform hdone
    rw [granted_concat, hbrk, ih.1, hreserved]
    exact ⟨rfl, ih.2⟩

theorem Extension.isOk_iff {increment : Int} {answer : Except ArenaError Nat}
    (h : Extension a increment (answer, b)) :
    (∃ old, answer = .ok old) ↔ 0 ≤ increment ∧ increment ≤ a.remaining := by
  cases h with
  | granted hpos hfit _ => exact ⟨fun _ => ⟨hpos, hfit⟩, fun _ => ⟨_, rfl⟩⟩
  | negative hneg =>
    constructor
    · rintro ⟨_, hok⟩
      cases hok
    · intro hfit
      exact absurd hfit.1 (Int.not_le.2 hneg)
  | exhausted hfull =>
    constructor
    · rintro ⟨_, hok⟩
      cases hok
    · intro hfit
      exact absurd hfit.2 (Int.not_le.2 hfull)

/-- **The mark is what was granted.** At every point of a run the mark is the sum of the granted
increments, and what remains makes up the ceiling with it. The next extension is answered by the mark
before if it asks for no less than nothing and no more than what remains, and it then brings zeros
behind the old bytes; it is refused otherwise, with the reason, and the arena stays as it is. Every
change can be made whose bytes lie below the mark; none moves the mark down, and no write moves it. -/
theorem reached_mark (h : Reached reserved history a) :
    (a.brk : Int) = granted history ∧ a.brk + a.remaining = reserved ∧
    (∀ increment, ∃ answer b,
      ((Change.extend increment).perform a).result = .ok (some answer, b) ∧
      ((∃ old, answer = .ok old) ↔ 0 ≤ increment ∧ increment ≤ a.remaining) ∧
      Extension a increment (answer, b)) ∧
    (∀ change : Change,
      (∃ answer b, (change.perform a).result = .ok (answer, b)) ↔ change.Fits a) ∧
    ∀ (change : Change) answer b, (change.perform a).result = .ok (answer, b) →
      a.brk ≤ b.brk ∧ b.brk ≤ reserved ∧
      ((∀ increment, change ≠ .extend increment) → answer = none ∧ b.brk = a.brk) := by
  obtain ⟨hbrk, hreserved⟩ := h.brk_eq
  refine ⟨hbrk, ?_, ?_, Change.perform_isOk_iff a, ?_⟩
  · rw [← hreserved]
    exact Nat.add_sub_cancel' a.size_le_reserved
  · intro increment
    have hresult := extension a increment
    exact ⟨_, _, Change.perform_extend a increment, hresult.isOk_iff, hresult⟩
  · intro change answer b hdone
    obtain ⟨hmoved, hup, hkept⟩ := Change.brk_of_perform hdone
    have hceiling : b.brk ≤ b.reserved := b.size_le_reserved
    rw [hkept, hreserved] at hceiling
    refine ⟨by omega, hceiling, ?_⟩
    intro hwrite
    obtain ⟨hanswer, hsame, -⟩ := Change.perform_silent hdone hwrite
    exact ⟨hanswer, hsame⟩

set_option maxRecDepth 2000 in
/-- An arena of 64 bytes of which 48 are granted: one is not given back, 17 more are too many, and 16
are what is left. -/
theorem reached_mark_small : ∃ b : Arena,
    Reached 64 [⟨.extend 48, some (.ok 0)⟩, ⟨.writeWord 8 33, none⟩,
      ⟨.extend (-1), some (.error (.negativeIncrement (-1)))⟩,
      ⟨.extend 17, some (.error (.exhausted 17 16))⟩] b ∧
    b.brk = 48 ∧ b.brk + b.remaining = 64 ∧
    ∃ answer c, ((Change.extend 16).perform b).result = .ok (some answer, c) ∧
      (∃ old, answer = .ok old) ∧ b.brk ≤ c.brk := by
  let a : Arena := ⟨Window.pad .empty 0 48, 64, by rw [Window.size_pad]; decide, by decide⟩
  obtain ⟨b, hb⟩ : ∃ b, a.writeWord 8 33 = .ok b := writeWord_isOk_iff.2 (by decide)
  have hremaining : b.remaining = 16 := by
    rw [remaining, brk_of_writeWord hb, reserved_of_writeWord hb]
    decide
  have hstart : Reached 64 [] (Arena.empty 64 (by decide)) := .reserve rfl
  have hgrown : Reached 64 [⟨.extend 48, some (.ok 0)⟩] a := hstart.step rfl
  have hdone : ((Change.writeWord 8 33).perform a).result = .ok (none, b) :=
    Change.silent_eq_ok_iff.2 ⟨rfl, hb⟩
  have hnegative := (hgrown.step hdone).step (Change.perform_extend b (-1))
  have hfull : b.reserved < b.brk + 17 := by
    rw [brk_of_writeWord hb, reserved_of_writeWord hb]
    decide
  have hrefused : b.extend 17 = (.error (.exhausted 17 16), b) := hremaining ▸ extend_refused hfull
  have hanswer : ((Change.extend 17).perform b).result =
      .ok (some (.error (.exhausted 17 16)), b) := by
    rw [Change.perform_extend, hrefused]
  have hexhausted := hnegative.step hanswer
  obtain ⟨hbrk, hceiling, hextend, -, hmark⟩ := reached_mark hexhausted
  obtain ⟨answer, c, hgrow, hgranted, -⟩ := hextend 16
  exact ⟨b, hexhausted, Int.ofNat_inj.1 hbrk, hceiling, answer, c, hgrow,
    hgranted.2 ⟨by decide, by omega⟩, (hmark _ _ _ hgrow).1⟩

end BoundaryHeap.Arena
