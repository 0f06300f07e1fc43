import BoundaryHeap.Proofs.Requests

/-!
# Making a heap

A heap is made by writing the sentinels, which is the map without blocks (`Arena.format_spec`), and
growing that map once. On the way the settings are looked at, the arena is reserved and extended twice,
and each of these can be the end of it. **What comes of it depends on the settings alone**
(`Heap.create_outcome`): for each exit there is a lemma that says when it is taken, and what is not
refused is a heap that is a single free block (`Heap.create_eq_ok_iff`).
-/

set_option autoImplicit false

namespace BoundaryHeap

variable {a : Arena} {settings : Settings}

/-! ## The sentinels -/

namespace Arena

theorem wellFormed_empty : BlockMap.WellFormed ⟨[], []⟩ := by
  refine BlockMap.WellFormed.of_row 48 rfl ?_ List.nodup_nil ?_
  · intro c hc
    cases hc
  · intro p
    simp

theorem format_spec (hbrk : a.brk = 48) :
    ∃ x, a.format = .ok x ∧ x.reserved = a.reserved ∧ x.Represents ⟨[], []⟩ := by
  obtain ⟨b₁, hb₁, he₁, -⟩ := writeWord_spec (a := a) (o := 0) 0 (by omega)
  have hbrk₁ := he₁.brk_eq
  obtain ⟨b₂, hb₂, he₂, hhead, hfoot⟩ := setTags_spec (a := b₁) (p := 16) (t := Tag.sentinel)
    (by omega) (by decide) (by simp only [Tag.sentinel]; omega)
  have hbrk₂ := he₂.brk_eq
  simp only [Tag.sentinel] at he₂ hfoot
  obtain ⟨b₃, hb₃, he₃, hprev⟩ :=
    setPrevLink_spec (a := b₂) (p := 16) (v := 16) (by omega) (by omega)
  have hbrk₃ := he₃.brk_eq
  obtain ⟨b₄, hb₄, he₄, hnext⟩ :=
    setNextLink_spec (a := b₃) (p := 16) (v := 16) (by omega) (by omega)
  have hbrk₄ := he₄.brk_eq
  have hheader : b₄.header 16 = .ok Tag.sentinel := by
    rw [header_eq (by omega), (he₃.trans he₄).tagAt_eq (by simp), hhead]
  have hstop : b₄.nextBlock 16 = .ok 48 := nextBlock_eq hheader (by decide)
  obtain ⟨b₅, hb₅, he₅, hepi⟩ :=
    setHeader_spec (a := b₄) (p := 48) (t := Tag.epilogue) (by omega) (by omega)
  have hbrk₅ := he₅.brk_eq
  have hlinks := (he₃.trans he₄).trans he₅
  refine ⟨b₅, ?_, ?_, wellFormed_empty, ?_, ⟨Tag.sentinel, rfl, rfl, ?_, ?_⟩, ?_, ?_, ⟨?_, ?_, ?_⟩⟩
  · simp only [format, initRing, prologue, wordSize, hb₁, hb₂, hb₃, hb₄, hstop, hb₅, bind,
      Except.bind]
  · rw [he₅.reserved_eq, he₄.reserved_eq, he₃.reserved_eq, he₂.reserved_eq, he₁.reserved_eq]
  · show b₅.brk = 48
    omega
  · rw [hlinks.tagAt_eq (by simp)]
    exact hhead
  · rw [hlinks.tagAt_eq (by simp)]
    exact hfoot
  · rw [show b₅.brk = 48 by omega]
    exact hepi
  · intro c hc
    cases hc
  · refine List.isChain_pair.2 ⟨?_, ?_⟩
    · exact (he₅.nextLink_eq (by simp) (by simp) (by simp)).trans hnext
    · exact ((he₄.trans he₅).prevLink_eq (by simp) (by simp) (by simp)).trans hprev
  · exact List.nodup_nil
  · intro p hp
    cases hp

end Arena

/-! ## Settings -/

namespace Settings

theorem refusal?_of_ceiling (hbad : settings.reserved = 0 ∨ settings.reserved % 16 ≠ 0) :
    ∃ reason, settings.refusal? = some (.arena (.invalidConfig reason)) := by
  unfold refusal? Arena.refusal?
  by_cases hzero : settings.reserved = 0
  · rw [if_pos hzero]
    exact ⟨_, rfl⟩
  · have hmod : settings.reserved % Arena.granule ≠ 0 := hbad.resolve_left hzero
    rw [if_neg hzero, if_pos hmod]
    exact ⟨_, rfl⟩

theorem refusal?_of_chunk (hpos : settings.reserved ≠ 0) (hmod : settings.reserved % 16 = 0)
    (hbad : settings.chunk < 32 ∨ settings.chunk % 16 ≠ 0) :
    ∃ reason, settings.refusal? = some (.invalidConfig reason) := by
  have hmod' : ¬ settings.reserved % Arena.granule ≠ 0 := not_not.2 hmod
  unfold refusal? Arena.refusal?
  rw [if_neg hpos, if_neg hmod']
  exact ⟨_, if_pos hbad⟩

end Settings

/-! ## The first block -/

namespace Heap

theorem reserve_accepts (hvalid : settings.Valid) : Arena.refusal? settings.reserved = none := by
  have hpos := hvalid.reserved_pos
  have hmod := hvalid.reserved_mod
  simp [Arena.refusal?, Arena.granule, hmod]
  omega

theorem reserve_eq (hvalid : settings.Valid) (hlt : settings.reserved < 0x8000000000000000) :
    (Arena.reserve settings.reserved).result = .ok (.ok (Arena.empty settings.reserved hlt)) := by
  have hnone := reserve_accepts hvalid
  simp only [Arena.reserve, hnone, Traced.result_bind, Traced.result_emit, dif_pos hlt,
    Traced.result_pure, ok_bind]

/-- The sentinels go in first. -/
theorem format_empty (hvalid : settings.Valid) (hlt : settings.reserved < 0x8000000000000000)
    (hroom : 48 ≤ settings.reserved) :
    ∃ x y, ((Arena.empty settings.reserved hlt).grow initialHeapSize).result = .ok (.ok 0, x) ∧
      x.format = .ok y ∧ Models ⟨y, settings, {}⟩ ⟨[], []⟩ := by
  have hfit : (Arena.empty settings.reserved hlt).brk + 48 ≤ settings.reserved :=
    (Nat.zero_add 48).symm ▸ hroom
  obtain ⟨x, hx, hxbrk, hxres, -⟩ := Arena.extend_spec hfit
  have hxbrk' : x.brk = 48 := hxbrk
  have hxres' : x.reserved = settings.reserved := hxres
  have hx' : (Arena.empty settings.reserved hlt).extend initialHeapSize = (.ok 0, x) := hx
  obtain ⟨y, hy, hyres, hrep⟩ := Arena.format_spec hxbrk'
  refine ⟨x, y, ?_, hy, hrep, hvalid, hyres.trans hxres'⟩
  simp only [Arena.grow, hx', Traced.result_bind, Traced.result_emit, Traced.result_pure, ok_bind]

/-! ## Exit by exit -/

theorem create_refused {e : HeapError} (hrefusal : settings.refusal? = some e) :
    (create settings).result = .ok (.error e) := by
  rw [create, hrefusal]
  rfl

/-- A ceiling that no address space can have is not refused. -/
theorem create_overflow (hvalid : settings.Valid)
    (hbig : 0x8000000000000000 ≤ settings.reserved) :
    (create settings).result = .error (.capacityOverflow settings.reserved) := by
  have hnone := Settings.refusal?_eq_none_iff.2 hvalid
  have haccepts := reserve_accepts hvalid
  simp only [create, hnone, Arena.reserve, haccepts, dif_neg (Nat.not_lt.2 hbig),
    Traced.result_bind, Traced.result_emit, Traced.result_fault, ok_bind]
  rfl

/-- There is not even room for the sentinels. -/
theorem create_short (hvalid : settings.Valid) (hroom : settings.reserved < 48) :
    (create settings).result = .ok (.error (.arena (.exhausted 48 settings.reserved))) := by
  have hlt : settings.reserved < 0x8000000000000000 := Nat.lt_trans hroom (by decide)
  have hnone := Settings.refusal?_eq_none_iff.2 hvalid
  have hreserve := reserve_eq hvalid hlt
  have hx : (Arena.empty settings.reserved hlt).extend initialHeapSize =
      (.error (.exhausted 48 settings.reserved), Arena.empty settings.reserved hlt) :=
    Arena.extend_refused ((Nat.zero_add 48).symm ▸ hroom)
  simp only [create, hnone, hreserve, Arena.grow, hx, Traced.result_bind, Traced.result_pure,
    ok_bind]

/-- There is room for the sentinels, but not for a chunk behind them. -/
theorem create_exhausted (hvalid : settings.Valid) (hlt : settings.reserved < 0x8000000000000000)
    (hfirst : 48 ≤ settings.reserved) (hroom : settings.reserved < 48 + settings.chunk) :
    (create settings).result =
      .ok (.error (.arena (.exhausted settings.chunk (settings.reserved - 48)))) := by
  have hnone := Settings.refusal?_eq_none_iff.2 hvalid
  have hreserve := reserve_eq hvalid hlt
  obtain ⟨x, y, hx, hy, hstart⟩ := format_empty hvalid hlt hfirst
  have hrefused := hstart.extend_refused hroom
  have hremaining : y.remaining = settings.reserved - 48 := by
    rw [Arena.remaining, hstart.reserved_eq, hstart.represents.brk_eq]
    rfl
  rw [hremaining] at hrefused
  simp only [create, hnone, hreserve, hx, hy, hrefused, Traced.result_bind, Traced.result_lift,
    Traced.result_pure, ok_bind]

/-- With room for the sentinels and one chunk, there is a heap, and it is one free block. -/
theorem create_spec (hvalid : settings.Valid) (hlt : settings.reserved < 0x8000000000000000)
    (hroom : 48 + settings.chunk ≤ settings.reserved) :
    ∃ b, (create settings).result = .ok (.ok ⟨b, settings, { extensions := 1 }⟩) ∧
      Models ⟨b, settings, { extensions := 1 }⟩ (BlockMap.fresh settings) := by
  have hnone := Settings.refusal?_eq_none_iff.2 hvalid
  have hreserve := reserve_eq hvalid hlt
  obtain ⟨x, y, hx, hy, hstart⟩ := format_empty hvalid hlt (by omega)
  obtain ⟨b, hb, hmodels, -⟩ := hstart.extend_spec hvalid.chunk_ge hvalid.chunk_mod hroom
  rw [BlockMap.grow_empty] at hb hmodels
  refine ⟨b, ?_, hmodels⟩
  simp only [create, hnone, hreserve, hx, hy, hb, Traced.result_bind, Traced.result_emit,
    Traced.result_lift, Traced.result_pure, ok_bind]

/-- What can come of settings, and when it does. The conditions exclude each other. -/
inductive Outcome (settings : Settings) : Except Fault (Except HeapError Heap) → Prop where
  | noCeiling (reason : String) (hbad : settings.reserved = 0 ∨ settings.reserved % 16 ≠ 0) :
    Outcome settings (.ok (.error (.arena (.invalidConfig reason))))
  | noChunk (reason : String) (hpos : settings.reserved ≠ 0) (hmod : settings.reserved % 16 = 0)
    (hbad : settings.chunk < 32 ∨ settings.chunk % 16 ≠ 0) :
    Outcome settings (.ok (.error (.invalidConfig reason)))
  | overflow (hvalid : settings.Valid) (hbig : 0x8000000000000000 ≤ settings.reserved) :
    Outcome settings (.error (.capacityOverflow settings.reserved))
  | short (hvalid : settings.Valid) (hroom : settings.reserved < 48) :
    Outcome settings (.ok (.error (.arena (.exhausted 48 settings.reserved))))
  | exhausted (hvalid : settings.Valid) (hlt : settings.reserved < 0x8000000000000000)
    (hfirst : 48 ≤ settings.reserved) (hroom : settings.reserved < 48 + settings.chunk) :
    Outcome settings (.ok (.error (.arena (.exhausted settings.chunk (settings.reserved - 48)))))
  | made (a : Arena) (hvalid : settings.Valid) (hlt : settings.reserved < 0x8000000000000000)
    (hroom : 48 + settings.chunk ≤ settings.reserved)
    (hmodels : Models ⟨a, settings, { extensions := 1 }⟩ (BlockMap.fresh settings)) :
    Outcome settings (.ok (.ok ⟨a, settings, { extensions := 1 }⟩))

/-- **All settings have their outcome.** The ceiling is looked at before the chunk, both before anything
is reserved, and the room for the sentinels before the room for the chunk. -/
theorem create_outcome (settings : Settings) : Outcome settings (create settings).result := by
  by_cases hceiling : settings.reserved = 0 ∨ settings.reserved % 16 ≠ 0
  · obtain ⟨reason, hrefusal⟩ := Settings.refusal?_of_ceiling hceiling
    rw [create_refused hrefusal]
    exact .noCeiling reason hceiling
  obtain ⟨hpos, hmod⟩ := not_or.1 hceiling
  have hmod := not_not.1 hmod
  by_cases hchunk : settings.chunk < 32 ∨ settings.chunk % 16 ≠ 0
  · obtain ⟨reason, hrefusal⟩ := Settings.refusal?_of_chunk hpos hmod hchunk
    rw [create_refused hrefusal]
    exact .noChunk reason hpos hmod hchunk
  obtain ⟨hge, hmod'⟩ := not_or.1 hchunk
  have hvalid : settings.Valid :=
    ⟨Nat.pos_of_ne_zero hpos, hmod, Nat.le_of_not_lt hge, not_not.1 hmod'⟩
  by_cases hbig : 0x8000000000000000 ≤ settings.reserved
  · rw [create_overflow hvalid hbig]
    exact .overflow hvalid hbig
  have hlt := Nat.lt_of_not_le hbig
  by_cases hshort : settings.reserved < 48
  · rw [create_short hvalid hshort]
    exact .short hvalid hshort
  have hfirst := Nat.le_of_not_lt hshort
  by_cases hroom : settings.reserved < 48 + settings.chunk
  · rw [create_exhausted hvalid hlt hfirst hroom]
    exact .exhausted hvalid hlt hfirst hroom
  have hroom := Nat.le_of_not_lt hroom
  obtain ⟨a, ha, hmodels⟩ := create_spec hvalid hlt hroom
  rw [ha]
  exact .made a hvalid hlt hroom hmodels

/-- **Which settings make a heap:** those that are valid and leave room for one chunk. -/
theorem create_eq_ok_iff :
    (∃ heap, (create settings).result = .ok (.ok heap)) ↔
      settings.Valid ∧ settings.reserved < 0x8000000000000000 ∧
        48 + settings.chunk ≤ settings.reserved := by
  constructor
  · rintro ⟨heap, hmade⟩
    have houtcome := create_outcome settings
    rw [hmade] at houtcome
    cases houtcome with
    | made a hvalid hlt hroom hmodels => exact ⟨hvalid, hlt, hroom⟩
  · rintro ⟨hvalid, hlt, hroom⟩
    obtain ⟨b, hb, -⟩ := create_spec hvalid hlt hroom
    exact ⟨_, hb⟩

end Heap
end BoundaryHeap
