import BoundaryHeap.Arena.Lemmas
import BoundaryHeap.Block.Tags

/-!
# Edits, word by word

Every operation of the allocator but a copy of contents is a handful of writes to single words. What
such an operation leaves alone is all that the rest of the theory needs of it, so it is said once:
`a.Edit ws b` says that `b` is `a` with nothing changed but the words at `ws`. Edits compose, a word
apart from all of `ws` reads as before, and **each primitive is known from then on by its edit and
by what the edited words read** (`writeWord_spec`, `writeOffset_spec`, `setTags_spec`).
-/

set_option autoImplicit false

namespace BoundaryHeap

theorem ok_bind {α β : Type} (x : α) (f : α → Except Fault β) : (Except.ok x >>= f) = f x := rfl

/-- What does not fault had both of its parts done. -/
theorem bind_eq_ok_iff {α β : Type} {x : Except Fault α} {f : α → Except Fault β} {y : β} :
    x >>= f = .ok y ↔ ∃ z, x = .ok z ∧ f z = .ok y := by
  cases x with
  | error e => simp [bind, Except.bind]
  | ok z => simp [ok_bind]

theorem map_eq_ok_iff {α β : Type} {x : Except Fault α} {f : α → β} {y : β} :
    x.map f = .ok y ↔ ∃ z, x = .ok z ∧ f z = y := by
  cases x with
  | error e => simp [Except.map]
  | ok z => simp [Except.map]

namespace Arena

variable {a b c : Arena} {ws vs : List Nat} {o p : Nat}

/-! ## Bytes -/

def byte? (a : Arena) (i : Nat) : Option UInt8 := a.bytes.data[i]?

theorem byte?_eq_some {i : Nat} (h : i < a.bytes.size) : a.byte? i = some a.bytes[i] := by
  rw [byte?, ByteArray.getElem_eq_getElem_data]
  exact Array.getElem?_eq_getElem h

theorem readWord_congr (ha : o + 8 ≤ a.brk) (hb : o + 8 ≤ b.brk)
    (h : ∀ i, o ≤ i → i < o + 8 → b.byte? i = a.byte? i) : b.readWord o = a.readWord o := by
  unfold readWord
  rw [dif_pos ha, dif_pos hb]
  refine congrArg (fun n => Except.ok (UInt64.ofNat n)) (Window.number_congr _ _ ?_)
  intro i hi
  simp only [brk, wordSize] at ha hb hi
  have hsame := h (o + i) (by omega) (by omega)
  rw [byte?_eq_some (by omega), byte?_eq_some (by omega)] at hsame
  exact Option.some.inj hsame

theorem byte?_of_write {start i : Nat} {data : ByteArray} (h : a.write start data = .ok b)
    (hout : i < start ∨ start + data.size ≤ i) : b.byte? i = a.byte? i := by
  obtain ⟨hfit, hbytes, -⟩ := write_eq_ok h
  have hsize : b.bytes.size = a.bytes.size := brk_of_write h
  by_cases hi : i < a.bytes.size
  · rw [byte?_eq_some hi, byte?_eq_some (by rw [hsize]; exact hi)]
    simp only [hbytes]
    exact congrArg some (Window.getElem_splice_of_outside hfit hout)
  · rw [byte?, byte?, Array.getElem?_eq_none (Nat.le_of_not_lt hi),
      Array.getElem?_eq_none (by rw [ByteArray.size_data, hsize]; exact Nat.le_of_not_lt hi)]

theorem byte?_of_write_inside {start i : Nat} {data : ByteArray} (h : a.write start data = .ok b)
    (hi : i < data.size) : b.byte? (start + i) = some data[i] := by
  obtain ⟨hfit, hbytes, -⟩ := write_eq_ok h
  have hsize : b.bytes.size = a.bytes.size := brk_of_write h
  simp only [brk] at hfit
  rw [byte?_eq_some (by omega)]
  simp only [hbytes]
  exact congrArg some (Window.getElem_splice_of_inside hfit hi)

/-! ## Edits -/

/-- `b` is `a` with nothing changed but the words at `ws`. -/
structure Edit (a : Arena) (ws : List Nat) (b : Arena) : Prop where
  brk_eq : b.brk = a.brk
  reserved_eq : b.reserved = a.reserved
  byte_eq : ∀ i, (∀ w ∈ ws, i < w ∨ w + 8 ≤ i) → b.byte? i = a.byte? i

theorem Edit.trans (hab : a.Edit ws b) (hbc : b.Edit vs c) : a.Edit (ws ++ vs) c := by
  refine ⟨hbc.brk_eq.trans hab.brk_eq, hbc.reserved_eq.trans hab.reserved_eq, ?_⟩
  intro i hi
  rw [hbc.byte_eq i fun w hw => hi w (List.mem_append_right _ hw),
    hab.byte_eq i fun w hw => hi w (List.mem_append_left _ hw)]

theorem Edit.readWord_eq (h : a.Edit ws b) (hout : ∀ w ∈ ws, o + 8 ≤ w ∨ w + 8 ≤ o) :
    b.readWord o = a.readWord o := by
  by_cases hin : o + 8 ≤ a.brk
  · refine readWord_congr hin (by rw [h.brk_eq]; exact hin) fun i hlo hhi => h.byte_eq i ?_
    intro w hw
    have := hout w hw
    omega
  · unfold readWord
    rw [dif_neg hin, dif_neg (by rw [h.brk_eq]; exact hin)]

theorem Edit.readOffset_eq (h : a.Edit ws b) (hout : ∀ w ∈ ws, o + 8 ≤ w ∨ w + 8 ≤ o) :
    b.readOffset o = a.readOffset o := by
  rw [readOffset, readOffset, h.readWord_eq hout]

/-! ## The primitives -/

theorem readWord_ok (h : o + 8 ≤ a.brk) : ∃ w, a.readWord o = .ok w := readWord_isOk_iff.2 h

/-- A word that is written is read, and nothing else is written. -/
theorem writeWord_eq_ok {w : UInt64} (h : a.writeWord o w = .ok b) :
    a.Edit [o] b ∧ b.readWord o = .ok w := by
  refine ⟨⟨brk_of_writeWord h, reserved_of_writeWord h, ?_⟩, readWord_of_writeWord h⟩
  intro i hi
  have hout := hi o (List.mem_singleton_self o)
  exact byte?_of_write h (by simpa using hout)

theorem writeWord_spec (w : UInt64) (h : o + 8 ≤ a.brk) :
    ∃ b, a.writeWord o w = .ok b ∧ a.Edit [o] b ∧ b.readWord o = .ok w := by
  obtain ⟨b, hb⟩ := writeWord_isOk_iff (w := w) |>.2 h
  exact ⟨b, hb, writeWord_eq_ok hb⟩

theorem writeOffset_spec {v : Nat} (h : o + 8 ≤ a.brk) (hv : v < 0x10000000000000000) :
    ∃ b, a.writeOffset o v = .ok b ∧ a.Edit [o] b ∧ b.readOffset o = .ok v := by
  obtain ⟨b, hb, hedit, -⟩ := writeWord_spec (UInt64.ofNat v) h
  exact ⟨b, hb, hedit, readOffset_of_writeOffset hb hv⟩

/-! ## Growing -/

/-- `b` is `a` with `count` more bytes, all zero, behind the others. -/
structure Extended (a : Arena) (count : Nat) (b : Arena) : Prop where
  brk_eq : b.brk = a.brk + count
  reserved_eq : b.reserved = a.reserved
  byte_eq : ∀ i < a.brk, b.byte? i = a.byte? i
  zero : ∀ i, a.brk ≤ i → i < b.brk → b.byte? i = some 0

/-- What comes of an extension: the answer, and the arena behind it. -/
inductive Extension (a : Arena) (increment : Int) : Except ArenaError Nat × Arena → Prop
  | granted {b : Arena} : 0 ≤ increment → increment ≤ a.remaining →
    a.Extended increment.toNat b → Extension a increment (.ok a.brk, b)
  | negative : increment < 0 → Extension a increment (.error (.negativeIncrement increment), a)
  | exhausted : a.remaining < increment →
    Extension a increment (.error (.exhausted increment.toNat a.remaining), a)

theorem extended_of_pad {count : Nat} (hbytes : b.bytes = Window.pad a.bytes 0 count)
    (hres : b.reserved = a.reserved) : a.Extended count b := by
  have hsize : b.bytes.size = a.bytes.size + count := by rw [hbytes, Window.size_pad]
  refine ⟨hsize, hres, ?_, ?_⟩
  · intro i hi
    have hold : i < a.bytes.size := hi
    rw [byte?_eq_some hold, byte?_eq_some (hsize ▸ Nat.lt_add_right _ hold)]
    simp only [hbytes]
    exact congrArg some (Window.getElem_pad_of_lt hold)
  · intro i hge hlt
    rw [byte?_eq_some hlt]
    simp only [hbytes]
    exact congrArg some (Window.getElem_pad_of_ge hge)

theorem extension (a : Arena) (increment : Int) : Extension a increment (a.extend increment) := by
  rcases hresult : a.extend increment with ⟨e | old, b⟩
  · obtain ⟨rfl, ⟨hneg, rfl⟩ | ⟨hfull, rfl⟩⟩ := extend_eq_error hresult
    · exact .negative hneg
    · exact .exhausted hfull
  · obtain ⟨hpos, hfit, rfl, hbytes, hres⟩ := extend_eq_ok hresult
    exact .granted hpos hfit (extended_of_pad hbytes hres)

/-- The mark moves up if there is room. -/
theorem extend_spec {count : Nat} (hroom : a.brk + count ≤ a.reserved) :
    ∃ b, a.extend count = (.ok a.brk, b) ∧ a.Extended count b := by
  have hfit : count ≤ a.remaining := Nat.le_sub_of_add_le' hroom
  have hresult := extension a count
  generalize a.extend count = result at hresult
  cases hresult with
  | granted _ _ hextended => exact ⟨_, rfl, hextended⟩
  | negative hneg => omega
  | exhausted hfull => omega

theorem extend_refused {count : Nat} (hroom : a.reserved < a.brk + count) :
    a.extend count = (.error (.exhausted count a.remaining), a) := by
  have hfull : a.remaining < count := Nat.sub_lt_left_of_lt_add a.size_le_reserved hroom
  have hresult := extension a count
  generalize a.extend count = result at hresult
  cases hresult with
  | granted _ hfit _ => omega
  | negative hneg => omega
  | exhausted _ => rfl

/-! ## Tags -/

/-- What the word at an offset means as a tag. -/
def tagAt (a : Arena) (w : Nat) : Except Fault Tag := (a.readWord w).map Tag.decode

theorem Edit.tagAt_eq (h : a.Edit ws b) (hout : ∀ w ∈ ws, o + 8 ≤ w ∨ w + 8 ≤ o) :
    b.tagAt o = a.tagAt o := by
  rw [tagAt, tagAt, h.readWord_eq hout]

theorem header_eq (h : 8 ≤ p) : a.header p = a.tagAt (p - 8) := by
  have hplace : headerOf p = .ok (p - 8) := subOffset_of_le h
  simp only [header, hplace, tagAt, bind, Except.bind]
  cases a.readWord (p - 8) <;> rfl

theorem prevFooter_eq (h : 16 ≤ p) : a.prevFooter p = a.tagAt (p - 16) := by
  have hplace : headerOf p = .ok (p - 8) := subOffset_of_le (by simp only [wordSize]; omega)
  have hbelow : subOffset (p - 8) wordSize = .ok (p - 16) :=
    subOffset_of_le (by simp only [wordSize]; omega)
  simp only [prevFooter, hplace, hbelow, tagAt, bind, Except.bind]
  cases a.readWord (p - 16) <;> rfl

theorem nextBlock_eq {t : Tag} (h : a.header p = .ok t) (hsum : p + t.size < 0x10000000000000000) :
    a.nextBlock p = .ok (p + t.size) := by
  simp only [nextBlock, h, bind, Except.bind]
  exact addOffset_of_lt hsum

theorem prevBlock_eq {t : Tag} (h : a.prevFooter p = .ok t) (hle : t.size ≤ p) :
    a.prevBlock p = .ok (p - t.size) := by
  simp only [prevBlock, h, bind, Except.bind]
  exact subOffset_of_le hle

theorem footerOf_eq {t : Tag} (h : a.header p = .ok t) (hlow : 16 ≤ p + t.size)
    (hsum : p + t.size < 0x10000000000000000) : a.footerOf p = .ok (p + t.size - 16) := by
  simp only [footerOf, h, addOffset_of_lt hsum, bind, Except.bind]
  exact subOffset_of_le hlow

theorem footer_eq {t : Tag} (h : a.header p = .ok t) (hlow : 16 ≤ p + t.size)
    (hsum : p + t.size < 0x10000000000000000) : a.footer p = a.tagAt (p + t.size - 16) := by
  simp only [footer, footerOf_eq h hlow hsum, tagAt, bind, Except.bind]
  cases a.readWord (p + t.size - 16) <;> rfl

theorem setHeader_spec {t : Tag} (hp : 8 ≤ p) (hfit : p ≤ a.brk) :
    ∃ b, a.setHeader p t = .ok b ∧ a.Edit [p - 8] b ∧ b.tagAt (p - 8) = .ok t := by
  obtain ⟨b, hb, hedit, hread⟩ := writeWord_spec (a := a) (o := p - 8) t.encode (by omega)
  have hplace : headerOf p = .ok (p - 8) := subOffset_of_le hp
  refine ⟨b, ?_, hedit, ?_⟩
  · simp only [setHeader, hplace, bind, Except.bind]
    exact hb
  · simp only [tagAt, hread, Except.map, Tag.decode_encode]

theorem brk_lt (a : Arena) : a.brk < 0x8000000000000000 :=
  Nat.lt_of_le_of_lt a.size_le_reserved a.reserved_lt

/-- Tags may be written over anything: the footer goes where the new header puts it. -/
theorem setTags_spec {t : Tag} (hp : 8 ≤ p) (hsize : 16 ≤ t.size) (hfit : p + t.size ≤ a.brk + 8) :
    ∃ b, a.setTags p t = .ok b ∧ a.Edit [p - 8, p + t.size - 16] b ∧
      b.tagAt (p - 8) = .ok t ∧ b.tagAt (p + t.size - 16) = .ok t := by
  obtain ⟨b, hb, hedit, hown⟩ := setHeader_spec (a := a) (t := t) hp (by omega)
  have hheader : b.header p = .ok t := (header_eq hp).trans hown
  have hbrk := hedit.brk_eq
  have hlt := a.brk_lt
  have hplace : b.footerOf p = .ok (p + t.size - 16) := footerOf_eq hheader (by omega) (by omega)
  obtain ⟨c, hc, hedit', hread⟩ :=
    writeWord_spec (a := b) (o := p + t.size - 16) t.encode (by omega)
  -- The footer lies above the header, as every block has room for both.
  refine ⟨c, ?_, hedit.trans hedit', ?_, ?_⟩
  · simp only [setTags, hb, hplace, bind, Except.bind]
    exact hc
  · rw [hedit'.tagAt_eq (by simp; omega), hown]
  · simp only [tagAt, hread, Except.map, Tag.decode_encode]

end Arena
end BoundaryHeap
