import BoundaryHeap.Proofs.Accounting
import BoundaryHeap.Proofs.Entries
import BoundaryHeap.Proofs.Moves
import BoundaryHeap.Proofs.Overlaps
import BoundaryHeap.Proofs.Releases

/-!
# Ledgers never complain

A client that keeps a ledger and a heap are two machines that take their steps together. What ties
them together is said once (`Ledger.Faithful`): the ledger lists the allocated blocks, each of them
once, and each still holds the pattern it was stamped with. Every step of the client keeps it and
passes all checks on the way (`Step.record_spec`), so **no check fails, whatever the steps are**
(`Step.recordAll_faithful`). What a step enters depends on none of this and is said before
(`Step.record_enters`).
-/

set_option autoImplicit false

namespace BoundaryHeap

variable {settings : Settings} {heap next : Heap} {live live' : List Nat} {m : BlockMap}
  {request : Request} {answer : Option Nat} {ledger : Ledger} {e : Entry}
  {entries : List Entry} {p q n room slot : Nat} {b : UInt8}

/-! ## Stamps -/

/-- The block still holds its pattern in all of the bytes that were asked for. -/
def Entry.Stamped (e : Entry) (heap : Heap) : Prop :=
  ∃ data, heap.contents e.payload = .ok data ∧ e.requested ≤ data.size ∧
    ∀ i (h : i < data.size), i < e.requested → data[i] = e.pattern

theorem findFinIdx?_loop_eq_none_iff (bytes : ByteArray) (f : UInt8 → Bool) (i : Nat) :
    ByteArray.findFinIdx?.loop bytes f i = none ↔
      ∀ j (h : j < bytes.size), i ≤ j → f bytes[j] = false := by
  fun_induction ByteArray.findFinIdx?.loop bytes f i with
  | case1 i hi hfound =>
    simp only [reduceCtorEq, false_iff, not_forall]
    exact ⟨i, hi, Nat.le_refl _, by simp [hfound]⟩
  | case2 i hi hnot ih =>
    rw [ih]
    constructor
    · intro h j hj hle
      rcases Nat.eq_or_lt_of_le hle with rfl | hlt
      · simpa using hnot
      · exact h j hj hlt
    · intro h j hj hlt
      exact h j hj (Nat.le_of_lt hlt)
  | case3 i hi =>
    simp only [true_iff]
    intro j hj hle
    omega

/-- The search for a byte that differs finds none if the front is all of one byte. -/
theorem findFinIdx?_front_eq_none_iff {bytes : ByteArray} :
    (bytes.extract 0 n).findFinIdx? (· != b) = none ↔
      ∀ i (h : i < bytes.size), i < n → bytes[i] = b := by
  have hsize : (bytes.extract 0 n).size = min n bytes.size := by simp [ByteArray.size_extract]
  rw [ByteArray.findFinIdx?, findFinIdx?_loop_eq_none_iff]
  constructor
  · intro h i hi hlt
    have hbyte := h i (by omega) (Nat.zero_le i)
    simpa [ByteArray.getElem_extract] using hbyte
  · intro h i hi _
    have hbyte := h i (by omega) (by omega)
    simpa [ByteArray.getElem_extract] using hbyte

/-- **The check of a stamp is exact.** -/
theorem Ledger.verifyEntry_eq_ok_iff : verifyEntry heap e = .ok () ↔ e.Stamped heap := by
  unfold verifyEntry Entry.Stamped
  simp only [bind_eq_ok_iff, check_eq_ok_iff, Nat.not_lt]
  refine exists_congr fun data => and_congr_right fun _ => and_congr_right fun _ => ?_
  rw [← findFinIdx?_front_eq_none_iff]
  cases hfind : (data.extract 0 e.requested).findFinIdx? (· != e.pattern) with
  | none => simp [pure, Except.pure]
  | some i => simp [throw, throwThe, MonadExceptOf.throw]

theorem Ledger.verify_eq_ok_iff :
    ledger.verify heap = .ok () ↔ ∀ e ∈ ledger.entries, e.Stamped heap := by
  unfold verify
  induction ledger.entries with
  | nil => simp [pure, Except.pure]
  | cons e rest ih =>
    rw [List.forall_mem_cons, ← ih, ← verifyEntry_eq_ok_iff]
    show (verifyEntry heap e >>= fun _ => rest.forM (verifyEntry heap)) = _ ↔ _
    cases hfirst : verifyEntry heap e with
    | error f => simp [bind, Except.bind]
    | ok u => simp [bind, Except.bind]

/-! ## What the heap does to stamps -/

namespace Heap

theorem Tracks.of_perm (h : Tracks settings heap live m) (hperm : live.Perm live') :
    Tracks settings heap live' m :=
  ⟨h.models, h.settings_eq, h.room, fun p => hperm.mem_iff.symm.trans (h.live_iff p),
    hperm.nodup_iff.1 h.nodup⟩

theorem Tracks.stamp_spec (h : Tracks settings heap live m) (hp : p ∈ live)
    (hsize : heap.usableSize p = .ok room) (hfit : n ≤ room) (b : UInt8) :
    ∃ next, heap.stamp p n b = .ok next ∧ Tracks settings next live m ∧
      (∀ q ∈ live, q ≠ p → next.contents q = heap.contents q) ∧
      Entry.Stamped ⟨p, n, b⟩ next := by
  obtain ⟨c, hc, rfl, hca⟩ := (h.live_iff p).1 hp
  rw [h.models.usableSize_eq hc] at hsize
  obtain rfl := Except.ok.inj hsize
  have hcm := h.wellFormed.mem hc
  have hbrk : heap.arena.bytes.size = m.brk := h.brk_eq
  have hlen : (Window.pad ByteArray.empty b n).size = n := by simp
  obtain ⟨x, -, hwrite, hmodels, hkeeps⟩ :=
    h.models.store_spec hc hca 0 (Window.pad ByteArray.empty b n) (by omega)
  have hwritable := h.models.writableSize_eq hc hca
  refine ⟨⟨x, heap.settings, heap.counters⟩, ?_, ?_, ?_, ?_⟩
  · obtain ⟨a, s, k⟩ := heap
    simp only [stamp, hwritable, ok_bind, if_pos hfit]
    simp only [Nat.add_zero] at hwrite
    simp only [hwrite, ok_bind]
    rfl
  · exact ⟨hmodels, h.settings_eq, h.room, h.live_iff, h.nodup⟩
  · intro q hq hne
    obtain ⟨d, hd, rfl, hda⟩ := (h.live_iff q).1 hq
    exact h.models.contents_congr hmodels hd hd hda (hkeeps d hd hda hne)
  · refine ⟨_, hmodels.contents_eq hc hca, ?_, ?_⟩
    · rw [hmodels.size_contents hc]
      exact hfit
    · intro i hi hlt
      have hlt' : i < n := hlt
      have hin : c.offset + i < x.bytes.size := by
        have hbrk' : x.bytes.size = m.brk := hmodels.represents.brk_eq
        omega
      have hbyte := Arena.byte?_of_write_inside hwrite (i := i) (by omega)
      rw [Nat.add_zero, Arena.byte?_eq_some hin] at hbyte
      rw [ByteArray.getElem_extract, Option.some.inj hbyte]
      exact Window.getElem_pad_of_ge (Nat.zero_le i)

/-- A block that a request does not spend keeps its stamp. -/
theorem Tracks.stamped_after (h : Tracks settings heap live m) (hlegal : request.Legal heap live)
    (hdone : (request.perform heap).result = .ok (answer, next)) (he : e.payload ∈ live)
    (hne : request.spent answer ≠ some e.payload) (hstamped : e.Stamped heap) : e.Stamped next := by
  obtain ⟨data, hdata, hfacts⟩ := hstamped
  exact ⟨data, (h.spared_live hlegal hdone he hne).2.trans hdata, hfacts⟩

/-- What moved brings its stamp along, as far as it fits. -/
theorem Moved.stamped (h : heap.Moved live e.payload n q next) (hstamped : e.Stamped heap) :
    Entry.Stamped ⟨q, min n e.requested, e.pattern⟩ next := by
  obtain ⟨data, hdata, hlong, hbytes⟩ := hstamped
  obtain ⟨old, new, hold, -, hnew, -, hroom, hsame⟩ := h.contents_eq
  obtain rfl := Except.ok.inj (hold.symm.trans hdata)
  refine ⟨new, hnew, Nat.le_trans (Nat.min_le_left _ _) hroom, ?_⟩
  intro i hi hlt
  have hlt' : i < min n e.requested := hlt
  have hold' : i < old.size := by omega
  have hcopied : new[i] = old[i] := hsame.getElem_eq (by omega)
  exact hcopied.trans (hbytes i hold' (by omega))

end Heap

/-! ## Overlaps -/

namespace Ledger

/-- The usable bytes of the block at an offset. -/
def spanAt (m : BlockMap) (p : Nat) : Nat × Nat :=
  (p, p + (m.sizeAt p - 16))

theorem spans_eq (h : Heap.Tracks settings heap live m)
    (hlive : ∀ e ∈ ledger.entries, e.payload ∈ live) :
    ledger.spans heap = .ok (ledger.entries.map fun e => spanAt m e.payload) := by
  apply spans_eq_map
  intro e he
  obtain ⟨c, hc, hoff, -⟩ := (h.live_iff _).1 (hlive e he)
  have hcm := h.wellFormed.mem hc
  have hlt := heap.arena.brk_lt
  have hbrk := h.brk_eq
  have husable := h.models.usableSize_eq hc
  rw [← hoff]
  refine ⟨c.size - 16, husable, ?_, ?_⟩
  · simp only [wordLimit]
    omega
  · rw [spanAt, h.wellFormed.sizeAt_eq hc]

theorem requireDisjoint_eq_ok (h : Heap.Tracks settings heap (ledger.entries.map Entry.payload) m) :
    ledger.requireDisjoint heap = .ok () := by
  have hlive : ∀ e ∈ ledger.entries, e.payload ∈ ledger.entries.map Entry.payload :=
    fun e he => List.mem_map_of_mem he
  rw [requireDisjoint_eq_ok_iff (spans_eq h hlive)]
  · have hne : ledger.entries.Pairwise fun d e => d.payload ≠ e.payload :=
      List.pairwise_map.1 h.nodup
    refine List.pairwise_map.2 (hne.imp_of_mem ?_)
    intro d e hd he hde
    obtain ⟨x, hx, hxoff, -⟩ := (h.live_iff _).1 (hlive d hd)
    obtain ⟨y, hy, hyoff, -⟩ := (h.live_iff _).1 (hlive e he)
    have hfar := h.wellFormed.apart_of_ne hx hy (by rw [hxoff, hyoff]; exact hde)
    simp only [Apart, spanAt, ← hxoff, ← hyoff, h.wellFormed.sizeAt_eq hx,
      h.wellFormed.sizeAt_eq hy]
    omega
  · intro x hx
    obtain ⟨e, -, rfl⟩ := List.mem_map.1 hx
    exact Nat.le_add_right _ _
  · rw [List.map_map]
    exact h.nodup

/-! ## Entries -/

/-- **The ledger and the heap go together:** what is recorded is what is allocated, and holds its
pattern. -/
structure Faithful (settings : Settings) (ledger : Ledger) (heap : Heap) : Prop where
  tracks : ∃ m, Heap.Tracks settings heap (ledger.entries.map Entry.payload) m
  stamped : ∀ e ∈ ledger.entries, e.Stamped heap

/-- A block that was just handed out passes every check. -/
theorem adopt_spec (h : Heap.Tracks settings heap (p :: ledger.entries.map Entry.payload) m)
    (hstamped : ∀ e ∈ ledger.entries, e.Stamped heap) (hsize : heap.usableSize p = .ok room)
    (hfit : n ≤ room) : ∃ ledger' next, ledger.adopt heap p n = .ok (ledger', next) ∧
      ledger'.Faithful settings next := by
  obtain ⟨c, hc, rfl, -⟩ := (h.live_iff p).1 List.mem_cons_self
  have hmod : c.offset % 16 = 0 := (h.wellFormed.mem hc).2.2.2.2
  obtain ⟨hfresh, -⟩ := List.nodup_cons.1 h.nodup
  obtain ⟨next, hnext, htracks, hothers, hown⟩ :=
    h.stamp_spec List.mem_cons_self hsize hfit (patternAfter ledger.lastPattern)
  have htracks' : Heap.Tracks settings next
      ((ledger.withNext c.offset n).entries.map Entry.payload) m := by
    refine htracks.of_perm ?_
    rw [withNext, List.map_append, List.map_singleton]
    exact (List.perm_append_singleton _ _).symm
  refine ⟨ledger.withNext c.offset n, next, ?_, ⟨m, htracks'⟩, ?_⟩
  · exact adopt_eq_ok_iff.2
      ⟨hmod, ⟨room, hsize, hfit⟩, hnext, hfresh, rfl, requireDisjoint_eq_ok htracks'⟩
  · intro d hd
    obtain hd | rfl := mem_withNext.1 hd
    · have hlive := List.mem_map_of_mem (f := Entry.payload) hd
      obtain ⟨data, hdata, hfacts⟩ := hstamped d hd
      refine ⟨data, ?_, hfacts⟩
      rw [hothers _ (List.mem_cons_of_mem _ hlive) fun heq => hfresh (heq ▸ hlive), hdata]
    · exact hown

theorem forget_payloads (hnodup : (ledger.entries.map Entry.payload).Nodup)
    (he : e ∈ ledger.entries) :
    ((ledger.entries.map Entry.payload).filter fun p => some p ≠ some e.payload).Perm
      ((ledger.forget e.payload).2.entries.map Entry.payload) := by
  obtain ⟨d, hd, hperm⟩ := forget_perm he
  have hpayloads := hperm.map Entry.payload
  rw [List.map_cons, hd] at hpayloads
  have hothers := Heap.perm_cons_filter_ne hnodup (List.mem_map_of_mem he)
  exact (hothers.symm.trans hpayloads).cons_inv

end Ledger

/-! ## Steps -/

namespace Ledger

/-- A request that gives nothing back keeps all that is recorded. The answer is held, but not
recorded yet. -/
theorem keep_spec (h : Heap.Tracks settings heap (ledger.entries.map Entry.payload) m)
    (hstamped : ∀ e ∈ ledger.entries, e.Stamped heap)
    (hlegal : request.Legal heap (ledger.entries.map Entry.payload))
    (hdone : (request.perform heap).result = .ok (answer, next))
    (hspent : request.spent answer = none) :
    (∃ m', Heap.Tracks settings next (answer.toList ++ ledger.entries.map Entry.payload) m') ∧
      ∀ e ∈ ledger.entries, e.Stamped next := by
  constructor
  · have htracks := h.held_after hlegal hdone
    rwa [Request.returned_of_spent hspent, List.filter_eq_self.2 fun p _ => by simp] at htracks
  · intro e he
    exact h.stamped_after hlegal hdone (List.mem_map_of_mem he) (by simp [hspent]) (hstamped e he)

/-- A block that is given back is struck out, and all else that is recorded is kept. -/
theorem forget_spec (h : Heap.Tracks settings heap (ledger.entries.map Entry.payload) m)
    (hstamped : ∀ e ∈ ledger.entries, e.Stamped heap) (he : e ∈ ledger.entries)
    (hlegal : request.Legal heap (ledger.entries.map Entry.payload))
    (hdone : (request.perform heap).result = .ok (answer, next))
    (hreturned : request.returned answer = some e.payload) :
    (∃ m', Heap.Tracks settings next
      (answer.toList ++ (ledger.forget e.payload).2.entries.map Entry.payload) m') ∧
      ∀ d ∈ (ledger.forget e.payload).2.entries, d.Stamped next := by
  have hpayloads := forget_payloads h.nodup he
  constructor
  · obtain ⟨m', htracks⟩ := h.held_after hlegal hdone
    rw [hreturned] at htracks
    exact ⟨m', htracks.of_perm (hpayloads.append_left _)⟩
  · intro d hd
    have hfiltered := hpayloads.mem_iff.2 (List.mem_map_of_mem hd)
    obtain ⟨hlive, hne⟩ := List.mem_filter.1 hfiltered
    refine h.stamped_after hlegal hdone hlive ?_ (hstamped d (mem_of_mem_forget he hd))
    rw [Request.spent_of_returned hreturned]
    exact Ne.symm (by simpa using hne)

end Ledger

namespace Step

theorem record_allocate (h : ledger.Faithful settings heap) (hn : n < wordLimit) :
    ∃ ledger' next, ((allocate n).record ledger heap).result = .ok (ledger', next) ∧
      ledger'.Faithful settings next := by
  obtain ⟨⟨m, htracks⟩, hstamped⟩ := h
  have hlegal : (Request.allocate n).Legal heap (ledger.entries.map Entry.payload) := hn
  obtain ⟨next, ⟨hdone, -⟩, -⟩ := htracks.follow hlegal
  generalize (m.perform heap.settings (.allocate n)).1 = answer at hdone
  have hresult : (heap.allocate n).result = .ok (answer, next) := hdone
  obtain ⟨⟨m', htracks'⟩, hkept⟩ := Ledger.keep_spec htracks hstamped hlegal hdone rfl
  cases answer with
  | none =>
    refine ⟨ledger, next, ?_, ⟨m', htracks'⟩, hkept⟩
    simp only [record, Traced.result_bind, hresult, ok_bind, Traced.result_pure]
  | some p =>
    obtain ⟨-, hnext, hstep, -⟩ := htracks.done hlegal hdone
    obtain ⟨c, hc, rfl, -, hlen, -⟩ := hstep.answered
    have hroom : n ≤ c.size - 16 := Nat.le_sub_of_add_le hlen
    obtain ⟨ledger', last, hadopt, hfaithful⟩ :=
      Ledger.adopt_spec htracks' hkept (hnext.models.usableSize_eq hc) hroom
    refine ⟨ledger', last, ?_, hfaithful⟩
    simp only [record, Traced.result_bind, hresult, ok_bind, Traced.result_lift, hadopt]

theorem record_release (h : ledger.Faithful settings heap) (slot : Nat) :
    ∃ ledger' next, ((release slot).record ledger heap).result = .ok (ledger', next) ∧
      ledger'.Faithful settings next := by
  cases hpick : ledger.pick slot with
  | none =>
    refine ⟨ledger, heap, ?_, h⟩
    simp only [record, hpick, Traced.result_pure]
  | some e =>
    obtain ⟨⟨m, htracks⟩, hstamped⟩ := h
    have he := Ledger.mem_of_pick hpick
    have hlive := List.mem_map_of_mem (f := Entry.payload) he
    obtain ⟨next, hnext, -⟩ := htracks.models.release_spec ((htracks.live_iff _).1 hlive)
    have hresult : (heap.releaseBlock e.payload).result = .ok next := hnext
    refine ⟨(ledger.forget e.payload).2, next, ?_, ?_⟩
    · simp only [record, hpick, hresult, Traced.result_bind, Traced.result_pure, ok_bind]
    · obtain ⟨htracks', hkept⟩ :=
        Ledger.forget_spec htracks hstamped he (Request.legal_release hlive)
          (Heap.perform_release hnext) rfl
      exact ⟨htracks', hkept⟩

/-- What moved is adopted in its new place. -/
theorem record_moved (h : ledger.Faithful settings heap) (hpick : ledger.pick slot = some e)
    (hn : n < wordLimit) (hdone : (heap.resize (some e.payload) n).result = .ok (some q, next)) :
    ∃ ledger' last, ((resize slot n).record ledger heap).result = .ok (ledger', last) ∧
      ledger'.Faithful settings last := by
  obtain ⟨⟨m, htracks⟩, hstamped⟩ := h
  have he := Ledger.mem_of_pick hpick
  have hlive := List.mem_map_of_mem (f := Entry.payload) he
  have hmoved := htracks.moved hlive hn hdone
  have hcheck := Ledger.verifyEntry_eq_ok_iff.2 (hmoved.stamped (hstamped e he))
  have hreturned : (Request.resize (some e.payload) n).returned (some q) = some e.payload := by
    simp [Request.returned]
  obtain ⟨⟨m', htracks'⟩, hkept⟩ :=
    Ledger.forget_spec htracks hstamped he (Request.legal_resize hlive hn) hdone hreturned
  obtain ⟨data, data', -, -, -, husable, hroom, -⟩ := hmoved.contents_eq
  obtain ⟨ledger', last, hadopt, hfaithful⟩ := Ledger.adopt_spec htracks' hkept husable hroom
  refine ⟨ledger', last, ?_, hfaithful⟩
  simp only [record, hpick, hdone, hcheck, hadopt, Traced.result_bind, Traced.result_lift, ok_bind]

/-- A move to nothing is struck out, and one that cannot be met changes nothing. -/
theorem record_unmoved (h : ledger.Faithful settings heap) (hpick : ledger.pick slot = some e)
    (hn : n < wordLimit) (hdone : (heap.resize (some e.payload) n).result = .ok (none, next)) :
    ∃ ledger' last, ((resize slot n).record ledger heap).result = .ok (ledger', last) ∧
      ledger'.Faithful settings last := by
  obtain ⟨⟨m, htracks⟩, hstamped⟩ := h
  have he := Ledger.mem_of_pick hpick
  have hlive := List.mem_map_of_mem (f := Entry.payload) he
  have hlegal : (Request.resize (some e.payload) n).Legal heap
      (ledger.entries.map Entry.payload) := Request.legal_resize hlive hn
  refine ⟨if n = 0 then (ledger.forget e.payload).2 else ledger, next, ?_, ?_⟩
  · simp only [record, hpick, hdone, Traced.result_bind, Traced.result_pure, ok_bind]
  by_cases hzero : n = 0
  · have hreturned : (Request.resize (some e.payload) n).returned none = some e.payload :=
      if_pos (.inr hzero)
    obtain ⟨htracks', hkept⟩ := Ledger.forget_spec htracks hstamped he hlegal hdone hreturned
    rw [if_pos hzero]
    exact ⟨htracks', hkept⟩
  · have hspent : (Request.resize (some e.payload) n).spent none = none :=
      if_neg (by simp [hzero])
    obtain ⟨htracks', hkept⟩ := Ledger.keep_spec htracks hstamped hlegal hdone hspent
    rw [if_neg hzero]
    exact ⟨htracks', hkept⟩

theorem record_resize (h : ledger.Faithful settings heap) (slot : Nat) (hn : n < wordLimit) :
    ∃ ledger' next, ((resize slot n).record ledger heap).result = .ok (ledger', next) ∧
      ledger'.Faithful settings next := by
  cases hpick : ledger.pick slot with
  | none =>
    refine ⟨ledger, heap, ?_, h⟩
    simp only [record, hpick, Traced.result_pure]
  | some e =>
    obtain ⟨m, htracks⟩ := h.tracks
    have hlive := List.mem_map_of_mem (f := Entry.payload) (Ledger.mem_of_pick hpick)
    obtain ⟨next, ⟨hdone, -⟩, -⟩ := htracks.follow (Request.legal_resize hlive hn)
    generalize (m.perform heap.settings (.resize (some e.payload) n)).1 = answer at hdone
    cases answer with
    | none => exact record_unmoved h hpick hn hdone
    | some q => exact record_moved h hpick hn hdone

/-- **Every step of the client passes its checks,** and ledger and heap still go together. -/
theorem record_spec (h : ledger.Faithful settings heap) (step : Step)
    (hsize : step.size < wordLimit) :
    ∃ ledger' next, (step.record ledger heap).result = .ok (ledger', next) ∧
      ledger'.Faithful settings next := by
  cases step with
  | allocate n => exact record_allocate h hsize
  | release slot => exact record_release h slot
  | resize slot n => exact record_resize h slot hsize

theorem recordFrom_spec (h : ledger.Faithful settings heap) (steps : List Step)
    (hsizes : ∀ step ∈ steps, step.size < wordLimit) :
    ∃ ledger' next, (recordFrom ledger heap steps).result = .ok (ledger', next) ∧
      ledger'.Faithful settings next := by
  induction steps generalizing ledger heap with
  | nil => exact ⟨ledger, heap, rfl, h⟩
  | cons step rest ih =>
    obtain ⟨ledger₁, heap₁, hfirst, hfaithful⟩ :=
      record_spec h step (hsizes step List.mem_cons_self)
    obtain ⟨ledger', next, hrest, hfaithful'⟩ :=
      ih hfaithful fun s hs => hsizes s (List.mem_cons_of_mem _ hs)
    refine ⟨ledger', next, ?_, hfaithful'⟩
    simp only [recordFrom, Traced.result_bind, hfirst, ok_bind, hrest]

end Step

/-! ## Runs -/

namespace Ledger

theorem Faithful.fresh (hmade : (Heap.create settings).result = .ok (.ok heap)) :
    Faithful settings {} heap :=
  ⟨⟨_, (Heap.create_tracks hmade).1⟩, fun e he => by cases he⟩

end Ledger

/-- **No check of the ledger ever fails.** Whatever steps a client takes on a new heap, each of them
passes all checks, the ones a move has to pass before it is adopted included; and where it has led,
every pattern is intact, no two blocks overlap, the ledger is as long as the walk finds blocks
allocated and lists exactly these, whatever moves next brings its pattern along, and giving
everything back leaves one free block. Nor does the ledger pass by leaving blocks out: each entry is
for as many bytes as one of the steps asked for, and any next step enters what it is handed. -/
theorem Step.recordAll_faithful (hmade : (Heap.create settings).result = .ok (.ok heap))
    (steps : List Step) (hsizes : ∀ step ∈ steps, step.size < wordLimit) :
    ∃ ledger next, (recordAll steps heap).result = .ok (ledger, next) ∧
      ledger.verify next = .ok () ∧ ledger.requireDisjoint next = .ok () ∧
      (∃ stats, next.stats = .ok stats ∧ stats.allocatedBlocks = ledger.entries.length) ∧
      (ledger.entries.map Entry.payload).Nodup ∧
      (∃ blocks, next.blocks = .ok blocks ∧ ∀ p, p ∈ ledger.entries.map Entry.payload ↔
        ∃ b ∈ blocks, b.payload = p ∧ b.tag.allocated = true) ∧
      (∀ slot e n q last, ledger.pick slot = some e → n < wordLimit →
        (next.resize (some e.payload) n).result = .ok (some q, last) →
        Entry.Stamped ⟨q, min n e.requested, e.pattern⟩ last) ∧
      (∀ e ∈ ledger.entries, e.pattern ≠ 0 ∧ ∃ step ∈ steps, e.requested = step.size) ∧
      (∀ step : Step, step.size < wordLimit → ∃ ledger' last answer,
        (step.record ledger next).result = .ok (ledger', last) ∧
          step.handed ledger next = .ok answer ∧ step.Enters answer ledger ledger') ∧
      ∃ empty b, (next.releaseAll ledger.drain.1).result = .ok empty ∧
        empty.arena.brk = next.arena.brk ∧ b.cell = ⟨48, next.arena.brk - 48, false⟩ ∧
        empty.blocks = .ok [b] ∧ ∀ count, empty.freeBlocks count = .ok ([b].take count) := by
  obtain ⟨ledger, next, hdone, ⟨m, htracks⟩, hstamped⟩ :=
    recordFrom_spec (Ledger.Faithful.fresh hmade) steps hsizes
  obtain ⟨blocks, hblocks, hcells⟩ := htracks.models.represents.blocks_eq
  obtain ⟨stats, hstats, hcount⟩ := htracks.allocatedBlocks_eq
  rw [List.length_map] at hcount
  refine ⟨ledger, next, hdone, Ledger.verify_eq_ok_iff.2 hstamped,
    Ledger.requireDisjoint_eq_ok htracks, ⟨stats, hstats, hcount⟩, htracks.nodup,
    ⟨blocks, hblocks, fun p => htracks.allocated_iff hcells⟩, ?_, ?_, ?_, ?_⟩
  · intro slot e n q last hpick hn hmove
    have he := Ledger.mem_of_pick hpick
    exact (htracks.moved (List.mem_map_of_mem he) hn hmove).stamped (hstamped e he)
  · intro e he
    obtain hold | hnew := recordFrom_entries hdone e he
    · cases hold
    · exact hnew
  · intro step hsize
    obtain ⟨ledger', last, hstep, -⟩ := record_spec ⟨⟨m, htracks⟩, hstamped⟩ step hsize
    obtain ⟨answer, hanswer, henters⟩ := record_enters hstep
    exact ⟨ledger', last, answer, hstep, hanswer, henters⟩
  · obtain ⟨empty, hempty, -, hreleased⟩ := htracks.released htracks.nodup fun p hp => hp
    obtain ⟨b, hcell, hone, hfree⟩ := hreleased.emptied fun p hp => hp
    exact ⟨empty, b, hempty, hreleased.brk_eq, hcell, hone, hfree⟩

/-- A growth, a move and a move to nothing, with slot numbers that wrap around. -/
theorem Step.recordAll_faithful_small : ∃ heap ledger next,
    (Heap.create ⟨256, 64, .strict⟩).result = .ok (.ok heap) ∧
      (recordAll [allocate 20, allocate 100, resize 2 8, release 7, resize 0 0] heap).result =
        .ok (ledger, next) ∧
      ledger.verify next = .ok () ∧ ledger.requireDisjoint next = .ok () := by
  obtain ⟨heap, hmade⟩ : ∃ heap, (Heap.create ⟨256, 64, .strict⟩).result = .ok (.ok heap) :=
    Heap.create_eq_ok_iff.2 ⟨by constructor <;> decide, by decide, by decide⟩
  obtain ⟨ledger, next, hdone, hverify, hdisjoint, -⟩ := recordAll_faithful hmade
    [allocate 20, allocate 100, resize 2 8, release 7, resize 0 0] (by decide)
  exact ⟨heap, ledger, next, hmade, hdone, hverify, hdisjoint⟩

end BoundaryHeap
