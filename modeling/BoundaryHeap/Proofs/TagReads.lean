import BoundaryHeap.Proofs.BlockWalks

/-!
# What tags tell

Five readers look at the tags of a block: its header, its footer, the way to the next block, and from
there the footer before it and the way back. All of them rest on two words, and **the five readers
agree on a tag if and only if both words say it** (`declares_iff`). So it is enough to follow the two
words. Writing the tags of a block puts them there over whatever stood there before, since the footer
is looked up by the header that was just written; and later writes of other tags leave them alone as
long as they are made elsewhere (`Retagged.declares`).
-/

set_option autoImplicit false

namespace BoundaryHeap

theorem addOffset_eq_ok_iff {m n k : Nat} :
    addOffset m n = .ok k ↔ m + n < 0x10000000000000000 ∧ k = m + n := by
  unfold addOffset
  split
  · next hlt => exact ⟨fun h => ⟨hlt, (Except.ok.inj h).symm⟩, fun h => h.2 ▸ rfl⟩
  · next hge => exact ⟨(by cases ·), fun h => absurd h.1 hge⟩

theorem subOffset_eq_ok_iff {m n k : Nat} : subOffset m n = .ok k ↔ n ≤ m ∧ k = m - n := by
  unfold subOffset
  split
  · next hle => exact ⟨fun h => ⟨hle, (Except.ok.inj h).symm⟩, fun h => h.2 ▸ rfl⟩
  · next hgt => exact ⟨(by cases ·), fun h => absurd h.1 hgt⟩

namespace Arena

variable {a b c : Arena} {p q o : Nat} {t u : Tag} {vs ws : List Nat}

/-! ## The two words -/

/-- Where the tags of a block are if they say `t`. -/
def tagWords (p : Nat) (t : Tag) : List Nat :=
  [p - 8, p + t.size - 16]

/-- No word of the one list shares a byte with a word of the other. -/
def WordsApart (vs ws : List Nat) : Prop :=
  ∀ v ∈ vs, ∀ w ∈ ws, v + 8 ≤ w ∨ w + 8 ≤ v

/-- All that is read of a block, from both of its sides, agrees on its tag. -/
structure Declares (a : Arena) (p : Nat) (t : Tag) : Prop where
  header : a.header p = .ok t
  footer : a.footer p = .ok t
  nextBlock : a.nextBlock p = .ok (p + t.size)
  prevFooter : a.prevFooter (p + t.size) = .ok t
  prevBlock : a.prevBlock (p + t.size) = .ok p

theorem declares_iff (hp : 8 ≤ p) (hpos : 0 < t.size) (hsum : p + t.size < 0x10000000000000000) :
    a.Declares p t ↔ ∀ w ∈ tagWords p t, a.tagAt w = .ok t := by
  have hmod := t.size_mod
  have hnext : 16 ≤ p + t.size := by omega
  constructor
  · intro h w hw
    rcases List.mem_pair.1 hw with rfl | rfl
    · exact (header_eq hp).symm.trans h.header
    · exact (prevFooter_eq hnext).symm.trans h.prevFooter
  · intro h
    have hheader : a.header p = .ok t := (header_eq hp).trans (h _ (List.mem_pair.2 (.inl rfl)))
    have hfoot : a.tagAt (p + t.size - 16) = .ok t := h _ (List.mem_pair.2 (.inr rfl))
    have hprev : a.prevFooter (p + t.size) = .ok t := (prevFooter_eq hnext).trans hfoot
    refine ⟨hheader, (footer_eq hheader hnext hsum).trans hfoot, nextBlock_eq hheader hsum, hprev, ?_⟩
    rw [prevBlock_eq hprev (Nat.le_add_left _ _), Nat.add_sub_cancel]

/-! ## What the writers write -/

theorem headerOf_eq_ok (h : headerOf p = .ok o) : 8 ≤ p ∧ o = p - 8 :=
  subOffset_eq_ok_iff.1 h

theorem le_of_header (h : a.header p = .ok t) : 8 ≤ p := by
  obtain ⟨o, hplace, -⟩ := bind_eq_ok_iff.1 h
  exact (headerOf_eq_ok hplace).1

theorem setHeader_eq_ok (h : a.setHeader q u = .ok b) :
    a.Edit [q - 8] b ∧ b.header q = .ok u := by
  obtain ⟨o, hplace, hwrite⟩ := bind_eq_ok_iff.1 h
  obtain ⟨hq, rfl⟩ := headerOf_eq_ok hplace
  obtain ⟨hedit, hread⟩ := writeWord_eq_ok hwrite
  refine ⟨hedit, ?_⟩
  rw [header_eq hq, tagAt, hread]
  exact congrArg Except.ok (Tag.decode_encode u)

/-- The footer is where the tag that was written puts it. -/
theorem setTags_eq_ok (h : a.setTags q u = .ok b) : a.Edit (tagWords q u) b := by
  obtain ⟨x, hheader, hrest⟩ := bind_eq_ok_iff.1 h
  obtain ⟨o, hplace, hwrite⟩ := bind_eq_ok_iff.1 hrest
  obtain ⟨hedit, hown⟩ := setHeader_eq_ok hheader
  obtain ⟨tag, htag, hfooter⟩ := bind_eq_ok_iff.1 hplace
  obtain rfl : u = tag := Except.ok.inj (hown.symm.trans htag)
  obtain ⟨stop, hstop, hbelow⟩ := bind_eq_ok_iff.1 hfooter
  obtain ⟨-, rfl⟩ := addOffset_eq_ok_iff.1 hstop
  obtain ⟨-, rfl⟩ := subOffset_eq_ok_iff.1 hbelow
  exact hedit.trans (writeWord_eq_ok hwrite).1

/-! ## Later writes -/

theorem Declares.of_edit (h : a.Declares p t) (hpos : 0 < t.size) (hedit : a.Edit ws b)
    (hapart : WordsApart (tagWords p t) ws) : b.Declares p t := by
  obtain ⟨s, hs, hsum⟩ := bind_eq_ok_iff.1 h.nextBlock
  obtain rfl : t = s := Except.ok.inj (h.header.symm.trans hs)
  have hword := (addOffset_eq_ok_iff.1 hsum).1
  have hwords := (declares_iff (le_of_header h.header) hpos hword).1 h
  apply (declares_iff (le_of_header h.header) hpos hword).2
  intro w hw
  rw [hedit.tagAt_eq (hapart w hw)]
  exact hwords w hw

/-- Any number of writes of tags, each made without reaching into the given words. -/
inductive Retagged (vs : List Nat) (a : Arena) : Arena → Prop
  | refl : Retagged vs a a
  | setTags {b c : Arena} {q : Nat} {u : Tag} : Retagged vs a b →
    WordsApart vs (tagWords q u) → b.setTags q u = .ok c → Retagged vs a c
  | setHeader {b c : Arena} {q : Nat} {u : Tag} : Retagged vs a b →
    WordsApart vs [q - 8] → b.setHeader q u = .ok c → Retagged vs a c

theorem Retagged.declares (hlater : Retagged (tagWords p t) a b) (h : a.Declares p t)
    (hpos : 0 < t.size) : b.Declares p t := by
  induction hlater with
  | refl => exact h
  | setTags _ hapart hdone ih => exact ih.of_edit hpos (setTags_eq_ok hdone) hapart
  | setHeader _ hapart hdone ih => exact ih.of_edit hpos (setHeader_eq_ok hdone).1 hapart

/-- **Tags that are written are read,** by everyone who looks for them. In an arena of any content,
the tags of a block that lies in it can be written, which changes no byte outside their two words;
from then on both of its sides tell its tag, whatever tags are written elsewhere. A tag word tells the
tag that it was written for, and a tag is written as the word that it was read from, less the bits that
mean nothing. -/
theorem setTags_declares (hp : 8 ≤ p) (hpos : 0 < t.size) (hfit : p + t.size ≤ a.brk + 8) :
    (∃ b, a.setTags p t = .ok b ∧ a.Edit (tagWords p t) b ∧ b.Declares p t ∧
      ∀ c, Retagged (tagWords p t) b c → c.Declares p t) ∧
    (∀ s : Tag, Tag.decode s.encode = s) ∧
    ∀ w : UInt64, (Tag.decode w).encode = w &&& ~~~Tag.reservedMask := by
  have hmod := t.size_mod
  have hsum : p + t.size < 0x10000000000000000 := by
    have hlt := a.brk_lt
    omega
  obtain ⟨b, hb, hedit, hhead, hfoot⟩ := setTags_spec (t := t) hp (by omega) hfit
  have hdeclares : b.Declares p t := by
    apply (declares_iff hp hpos hsum).2
    intro w hw
    rcases List.mem_pair.1 hw with rfl | rfl
    · exact hhead
    · exact hfoot
  refine ⟨⟨b, hb, hedit, hdeclares, ?_⟩, Tag.decode_encode, Tag.encode_decode⟩
  intro c hlater
  exact hlater.declares hdeclares hpos

/-- Eight words, with a header at 8 that tells of a block as large as a word can say. -/
def staleHeader : Arena :=
  ofWords [0, 0xFFFFFFFFFFFFFFF1, 7, 7, 7, 7, 7, 7] (by decide)

/-- A block of two tags and nothing else, and a tag that is written right behind it. -/
theorem setTags_declares_staleHeader : ∃ t : Tag, t.size = 16 ∧
    8 ≤ 16 ∧ 0 < t.size ∧ 16 + t.size ≤ staleHeader.brk + 8 ∧
    ∃ b c, staleHeader.setTags 16 t = .ok b ∧ staleHeader.Edit [8, 16] b ∧ b.Declares 16 t ∧
      b.setHeader 32 Tag.epilogue = .ok c ∧ c.Declares 16 t := by
  let t : Tag := ⟨16, false, rfl, by decide⟩
  have hpos : 0 < t.size := by decide
  have hfit : 16 + t.size ≤ staleHeader.brk + 8 := by decide
  obtain ⟨⟨b, hb, hedit, hdeclares, hlater⟩, -⟩ := setTags_declares (by decide : 8 ≤ 16) hpos hfit
  have hbrk : 32 ≤ b.brk := by
    rw [hedit.brk_eq]
    decide
  obtain ⟨c, hc, -⟩ := setHeader_spec (t := Tag.epilogue) (by decide : 8 ≤ 32) hbrk
  have hapart : WordsApart (tagWords 16 t) [32 - 8] := by
    unfold WordsApart
    decide
  exact ⟨t, rfl, by decide, hpos, hfit, b, c, hb, hedit, hdeclares, hc,
    hlater c (.setHeader .refl hapart hc)⟩

end Arena
end BoundaryHeap
