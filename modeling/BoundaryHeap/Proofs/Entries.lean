import BoundaryHeap.Proofs.Edits
import BoundaryHeap.Workload.Replay
import Mathlib.Data.List.Perm.Basic

/-!
# What a step enters in the ledger

That a ledger never complains says little of a client that enters nothing. What a step of the client
does to the ledger is therefore said apart from the heap (`Step.record_enters`): **a step that is
handed a block enters it with the bytes that were asked for,** stamped with the next pattern, and
nothing else comes in. So every entry that is found after a run was asked for by one of its steps
(`Step.recordFrom_entries`).
-/

set_option autoImplicit false

namespace BoundaryHeap

variable {heap next : Heap} {ledger ledger' base : Ledger} {e d : Entry} {answer : Option Nat}
  {p n slot : Nat} {step : Step} {steps : List Step}

/-- A check that throws comes to something if it passes. -/
theorem check_eq_ok_iff {α : Type} {c : Prop} [Decidable c] {f : Fault}
    {k : PUnit → Except Fault α} {x : Except Fault α} {y : α} :
    (if c then throw f >>= k else x) = .ok y ↔ ¬ c ∧ x = .ok y := by
  by_cases h : c <;> simp [h, throw, throwThe, MonadExceptOf.throw, bind, Except.bind]

/-! ## Entries -/

namespace Ledger

/-- The entry of a block that is handed out next. -/
def nextEntry (ledger : Ledger) (p n : Nat) : Entry :=
  ⟨p, n, patternAfter ledger.lastPattern⟩

/-- The ledger with that entry behind all others. -/
def withNext (ledger : Ledger) (p n : Nat) : Ledger :=
  ⟨ledger.entries ++ [ledger.nextEntry p n], patternAfter ledger.lastPattern⟩

theorem mem_withNext :
    e ∈ (ledger.withNext p n).entries ↔ e ∈ ledger.entries ∨ e = ledger.nextEntry p n := by
  simp [withNext]

theorem indexOf?_isSome_iff :
    (ledger.indexOf? p).isSome = true ↔ p ∈ ledger.entries.map Entry.payload := by
  simp [indexOf?, List.findIdx?_isSome]

/-- **What a block has to pass to be recorded.** -/
theorem adopt_eq_ok_iff : ledger.adopt heap p n = .ok (ledger', next) ↔
    p % 16 = 0 ∧ (∃ room, heap.usableSize p = .ok room ∧ n ≤ room) ∧
      heap.stamp p n (patternAfter ledger.lastPattern) = .ok next ∧
      p ∉ ledger.entries.map Entry.payload ∧ ledger' = ledger.withNext p n ∧
      (ledger.withNext p n).requireDisjoint next = .ok () := by
  rw [← indexOf?_isSome_iff]
  simp only [adopt, check_eq_ok_iff, bind_eq_ok_iff]
  constructor
  · rintro ⟨hmod, room, hroom, hfit, x, hstamp, hnew, ⟨⟩, hdisjoint, hresult⟩
    cases hresult
    exact ⟨Decidable.not_not.1 hmod, ⟨room, hroom, Nat.le_of_not_lt hfit⟩, hstamp, hnew, rfl,
      hdisjoint⟩
  · rintro ⟨hmod, ⟨room, hroom, hfit⟩, hstamp, hnew, rfl, hdisjoint⟩
    exact ⟨not_not_intro hmod, room, hroom, Nat.not_lt.2 hfit, next, hstamp, hnew, (), hdisjoint,
      rfl⟩

/-- Who is struck out is gone, and everyone else is still there. -/
theorem forget_perm (he : e ∈ ledger.entries) : ∃ d, d.payload = e.payload ∧
    ledger.entries.Perm (d :: (ledger.forget e.payload).2.entries) := by
  cases hindex : ledger.indexOf? e.payload with
  | none =>
    have hnot := List.findIdx?_eq_none_iff.1 hindex e he
    simp at hnot
  | some i =>
    obtain ⟨hi, hpayload, -⟩ := List.findIdx?_eq_some_iff_getElem.1 hindex
    refine ⟨ledger.entries[i], by simpa using hpayload, ?_⟩
    simp only [forget, hindex]
    exact (List.getElem_cons_eraseIdx_perm hi).symm.trans
      ((Slots.vacate_perm_eraseIdx hi).symm.cons _)

theorem mem_of_mem_forget (he : e ∈ ledger.entries)
    (hd : d ∈ (ledger.forget e.payload).2.entries) : d ∈ ledger.entries := by
  obtain ⟨x, -, hperm⟩ := forget_perm he
  exact hperm.mem_iff.2 (List.mem_cons_of_mem _ hd)

theorem lastPattern_forget : (ledger.forget p).2.lastPattern = ledger.lastPattern := by
  unfold forget
  cases ledger.indexOf? p <;> rfl

theorem mem_of_pick (h : ledger.pick slot = some e) : e ∈ ledger.entries :=
  List.mem_of_getElem? h

end Ledger

/-! ## Steps -/

namespace Step

/-- The bytes that are asked for. -/
def size : Step → Nat
  | allocate n => n
  | release _ => 0
  | resize _ n => n

/-- The block that the heap hands out for a step, if there is one. -/
def handed (step : Step) (ledger : Ledger) (heap : Heap) : Except Fault (Option Nat) :=
  match step with
  | allocate n => (heap.allocate n).result.map Prod.fst
  | release _ => .ok none
  | resize slot n =>
    match ledger.pick slot with
    | none => .ok none
    | some e => (heap.resize (some e.payload) n).result.map Prod.fst

/-- What a step enters if it is handed `answer`: that block, for as many bytes as were asked for,
and nothing else. -/
structure Enters (step : Step) (answer : Option Nat) (ledger ledger' : Ledger) : Prop where
  handed : ∀ p, answer = some p → ledger.nextEntry p step.size ∈ ledger'.entries
  new : ∀ e ∈ ledger'.entries, e ∈ ledger.entries ∨
    ∃ p, answer = some p ∧ e = ledger.nextEntry p step.size

theorem enters_none (hkept : ∀ e ∈ ledger'.entries, e ∈ ledger.entries) :
    step.Enters none ledger ledger' where
  handed _ hp := by cases hp
  new e he := .inl (hkept e he)

/-- What is struck out before does not change what is entered. -/
theorem enters_of_adopt (hkept : ∀ e ∈ base.entries, e ∈ ledger.entries)
    (hlast : base.lastPattern = ledger.lastPattern)
    (hadopt : base.adopt heap p step.size = .ok (ledger', next)) :
    step.Enters (some p) ledger ledger' := by
  obtain ⟨-, -, -, -, rfl, -⟩ := Ledger.adopt_eq_ok_iff.1 hadopt
  have hentry : base.nextEntry p step.size = ledger.nextEntry p step.size := by
    rw [Ledger.nextEntry, hlast, Ledger.nextEntry]
  constructor
  · rintro q ⟨⟩
    exact Ledger.mem_withNext.2 (.inr hentry.symm)
  · intro e he
    obtain he | rfl := Ledger.mem_withNext.1 he
    · exact .inl (hkept e he)
    · exact .inr ⟨p, rfl, hentry⟩

theorem allocate_enters
    (hdone : ((allocate n).record ledger heap).result = .ok (ledger', next)) :
    ∃ answer, (allocate n).handed ledger heap = .ok answer ∧
      (allocate n).Enters answer ledger ledger' := by
  simp only [record, Traced.result_bind] at hdone
  obtain ⟨⟨answer, x⟩, hanswer, hrest⟩ := bind_eq_ok_iff.1 hdone
  refine ⟨answer, map_eq_ok_iff.2 ⟨_, hanswer, rfl⟩, ?_⟩
  cases answer with
  | none =>
    cases hrest
    exact enters_none fun e he => he
  | some p =>
    simp only [Traced.result_lift] at hrest
    exact enters_of_adopt (fun e he => he) rfl hrest

theorem release_enters
    (hdone : ((release slot).record ledger heap).result = .ok (ledger', next)) :
    (release slot).Enters none ledger ledger' := by
  cases hpick : ledger.pick slot with
  | none =>
    simp only [record, hpick] at hdone
    cases hdone
    exact enters_none fun e he => he
  | some e =>
    simp only [record, hpick, Traced.result_bind] at hdone
    obtain ⟨x, -, hrest⟩ := bind_eq_ok_iff.1 hdone
    cases hrest
    exact enters_none fun d => Ledger.mem_of_mem_forget (Ledger.mem_of_pick hpick)

theorem resize_enters
    (hdone : ((resize slot n).record ledger heap).result = .ok (ledger', next)) :
    ∃ answer, (resize slot n).handed ledger heap = .ok answer ∧
      (resize slot n).Enters answer ledger ledger' := by
  cases hpick : ledger.pick slot with
  | none =>
    simp only [record, hpick] at hdone
    cases hdone
    exact ⟨none, by rw [handed, hpick], enters_none fun e he => he⟩
  | some e =>
    have hkept := fun d => Ledger.mem_of_mem_forget (d := d) (Ledger.mem_of_pick hpick)
    simp only [record, hpick, Traced.result_bind] at hdone
    obtain ⟨⟨answer, x⟩, hanswer, hrest⟩ := bind_eq_ok_iff.1 hdone
    refine ⟨answer, by simp only [handed, hpick, hanswer, Except.map], ?_⟩
    cases answer with
    | none =>
      cases hrest
      apply enters_none
      split
      · exact hkept
      · exact fun d hd => hd
    | some p =>
      simp only [Traced.result_bind, Traced.result_lift] at hrest
      obtain ⟨-, -, hadopt⟩ := bind_eq_ok_iff.1 hrest
      exact enters_of_adopt hkept Ledger.lastPattern_forget hadopt

/-- **One step of the client.** -/
theorem record_enters (hdone : (step.record ledger heap).result = .ok (ledger', next)) :
    ∃ answer, step.handed ledger heap = .ok answer ∧ step.Enters answer ledger ledger' := by
  cases step with
  | allocate n => exact allocate_enters hdone
  | release slot => exact ⟨none, rfl, release_enters hdone⟩
  | resize slot n => exact resize_enters hdone

/-- **A whole run of the client.** Whatever was not there before was asked for by one of the steps,
and its pattern is not that of fresh bytes. -/
theorem recordFrom_entries (hdone : (recordFrom ledger heap steps).result = .ok (ledger', next)) :
    ∀ e ∈ ledger'.entries, e ∈ ledger.entries ∨
      e.pattern ≠ 0 ∧ ∃ step ∈ steps, e.requested = step.size := by
  induction steps generalizing ledger heap with
  | nil =>
    cases hdone
    exact fun e he => .inl he
  | cons step rest ih =>
    simp only [recordFrom, Traced.result_bind] at hdone
    obtain ⟨⟨middle, x⟩, hfirst, hrest⟩ := bind_eq_ok_iff.1 hdone
    obtain ⟨_, -, henters⟩ := record_enters hfirst
    intro e he
    obtain hmiddle | ⟨hpattern, later, hlater, hrequested⟩ := ih hrest e he
    · obtain hold | ⟨p, -, rfl⟩ := henters.new e hmiddle
      · exact .inl hold
      · exact .inr ⟨Ledger.patternAfter_ne_zero _, step, List.mem_cons_self, rfl⟩
    · exact .inr ⟨hpattern, later, List.mem_cons_of_mem _ hlater, hrequested⟩

end Step

end BoundaryHeap
