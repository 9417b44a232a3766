/-
What `readfile` tells `getline` about its buffer. The capacity it passes is the header of the record, and a header that
is not larger than all before passes without an allocation, on the assumption that the block still has the size of the
largest. `getline` changes the block behind its back: it allocates a fresh one for a capacity of 0 and for a NULL that
an oversized header has left, and it resizes the block, down as well as up, when the line does not fit the capacity.

- `truthful_iff`: every call of `getline` gets NULL or a block with at least the capacity it is told, if and only if the
  first header is not 0, and every header that is not larger than all before it fits the block that `getline` has left
  if it has changed it since the last largest header;
- `buffer_lies`: an empty file, a negative header, and a file of three records.

`sizeAfter` is the size of the block after some turns, in terms of the headers, the lines and the answers of the C
library; `after_data` says that this is what `main` has.
-/
import Cse422.Records.Stream

namespace Cse422.Records

open Words Lts

/-! ## The property -/

/-- NULL, or a block with at least that capacity -/
def Call.Truthful (c : Call) : Prop :=
  match c.data with
  | .uninit => False
  | .null => True
  | .block size _ => c.len ≤ size

instance (c : Call) : Decidable c.Truthful := by
  unfold Call.Truthful
  split <;> infer_instance

/-- at every call of `getline` of the loop -/
def ReadsTruthfully (L : Libc) (f : Stream) : Prop :=
  ∀ l s, Run (Takes (Session.step L)) (.start f) l s → s.fp.eof = false → (s.call L).Truthful

/-! ## Headers and lines -/

/-- the stream after `i` turns -/
def streamAfter (f : Stream) (i : ℕ) : Stream := Stream.turn^[i] f

/-- the header that is read in turn `i` -/
def header (f : Stream) (i : ℕ) : ℕ := (streamAfter f i).header

/-- the length of the line that is read in turn `i` -/
def lineLength (f : Stream) (i : ℕ) : ℕ := (streamAfter f i).afterHeader.line.length

/-- the header of turn `t` is larger than all before it -/
def Largest (f : Stream) (t : ℕ) : Prop := 0 < header f t ∧ ∀ j < t, header f j < header f t

instance (f : Stream) (t : ℕ) : Decidable (Largest f t) := by unfold Largest; infer_instance

/-- the header of turn `t` is larger than all before it, and there is no memory for it -/
def Refused (L : Libc) (f : Stream) (t : ℕ) : Prop := Largest f t ∧ L.grants t (header f t) = false

instance (L : Libc) (f : Stream) (t : ℕ) : Decidable (Refused L f t) := by unfold Refused; infer_instance

/-- `getline` allocates or resizes in turn `t` -/
def Resizes (L : Libc) (f : Stream) (t : ℕ) : Prop := header f t ≤ lineLength f t ∨ Refused L f t

instance (L : Libc) (f : Stream) (t : ℕ) : Decidable (Resizes L f t) := by unfold Resizes; infer_instance

/-- the size of the block that it then leaves -/
def resized (L : Libc) (f : Stream) (t : ℕ) : ℕ :=
  L.getlineSize t (if Refused L f t then 0 else header f t) (lineLength f t)

/-- the first header is not 0, and a header that is not the largest so far fits the block that `getline` left last, if
it has changed it after the largest -/
def HeadersFit (L : Libc) (f : Stream) : Prop :=
  header f 0 ≠ 0 ∧ ∀ t u, t < u → (streamAfter f u).eof = false → Resizes L f t →
    (∀ m, t < m → m < u → ¬ Largest f m ∧ ¬ Resizes L f m) → ¬ Largest f u → header f u ≤ resized L f t

/-! ## Turns -/

/-- `main` after `i` turns -/
def after (L : Libc) (f : Stream) (i : ℕ) : Session := (Session.turn L)^[i] (.start f)

section Turns

variable {L : Libc} {f : Stream} {s : Session} {i t u : ℕ}

theorem after_succ (L : Libc) (f : Stream) (i : ℕ) : after L f (i + 1) = (after L f i).turn L :=
  Function.iterate_succ_apply' _ _ _

theorem streamAfter_succ (f : Stream) (i : ℕ) : streamAfter f (i + 1) = (streamAfter f i).turn :=
  Function.iterate_succ_apply' _ _ _

theorem after_fp (L : Libc) (f : Stream) (i : ℕ) : (after L f i).fp = streamAfter f i ∧ (after L f i).turns = i := by
  induction i with
  | zero => exact ⟨rfl, rfl⟩
  | succ i ih =>
    rw [after_succ, streamAfter_succ]
    exact ⟨congrArg Stream.turn ih.1, congrArg Nat.succ ih.2⟩

theorem turn_eof (h : f.turn.eof = false) : f.eof = false := by
  cases he : f.eof with
  | false => rfl
  | true => simp [Stream.turn, Stream.afterLine, Stream.afterHeader, he] at h

/-- the loop is in its turn `i` if the flag is not set then -/
theorem run_after (h : (streamAfter f i).eof = false) :
    Run (Takes (Session.step L)) (.start f) (List.replicate i ()) (after L f i) := by
  induction i with
  | zero => exact .nil _
  | succ i ih =>
    have he : (streamAfter f i).eof = false := turn_eof (streamAfter_succ f i ▸ h)
    rw [List.replicate_succ']
    refine run_append_iff.2 ⟨_, ih he, .cons ?_ (.nil _)⟩
    rw [after_succ, Takes, Session.step, (after_fp L f i).1, he]
    rfl

theorem run_eq_after {l : List Unit} (h : Run (Takes (Session.step L)) (.start f) l s) : s = after L f l.length := by
  have hrun : ∀ {s t : Session} {l : List Unit}, Run (Takes (Session.step L)) s l t → t = (Session.turn L)^[l.length] s := by
    intro s t l h
    induction h with
    | nil => rfl
    | cons hst _ ih =>
      obtain ⟨-, rfl⟩ := step_eq hst
      exact ih
  exact hrun h

theorem readsTruthfully_iff : ReadsTruthfully L f ↔
    ∀ u, (streamAfter f u).eof = false → ((after L f u).call L).Truthful := by
  constructor
  · intro h u he
    exact h _ _ (run_after he) ((after_fp L f u).1.symm ▸ he)
  · intro h l s hr he
    obtain rfl := run_eq_after hr
    exact h _ ((after_fp L f _).1 ▸ he)

/-! ## The largest header -/

theorem after_maxlen (L : Libc) (f : Stream) (u : ℕ) : (∀ j < u, header f j ≤ (after L f u).maxlen) ∧
    ((after L f u).maxlen = 0 ∨ ∃ j < u, (after L f u).maxlen = header f j) := by
  induction u with
  | zero => exact ⟨fun j hj => absurd hj (Nat.not_lt_zero j), Or.inl rfl⟩
  | succ u ih =>
    obtain ⟨hle, hatt⟩ := ih
    have hheader : ((after L f u).call L).len = header f u := by
      rw [Session.call, (after_fp L f u).1]
      rfl
    have hmax : (after L f (u + 1)).maxlen =
        if header f u > (after L f u).maxlen then header f u else (after L f u).maxlen := by
      rw [after_succ, Session.turn, hheader]
    rw [hmax]
    split_ifs with hgt
    · refine ⟨?_, Or.inr ⟨u, Nat.lt_succ_self u, rfl⟩⟩
      intro j hj
      rcases Nat.lt_succ_iff_lt_or_eq.1 hj with hj | rfl
      · exact (hle j hj).trans hgt.le
      · exact le_rfl
    · constructor
      · intro j hj
        rcases Nat.lt_succ_iff_lt_or_eq.1 hj with hj | rfl
        · exact hle j hj
        · exact not_lt.1 hgt
      · rcases hatt with hzero | ⟨j, hj, heq⟩
        · exact Or.inl hzero
        · exact Or.inr ⟨j, Nat.lt_succ_of_lt hj, heq⟩

theorem largest_iff (L : Libc) (f : Stream) (u : ℕ) : (after L f u).maxlen < header f u ↔ Largest f u := by
  obtain ⟨hle, hatt⟩ := after_maxlen L f u
  constructor
  · intro h
    exact ⟨Nat.zero_lt_of_lt h, fun j hj => lt_of_le_of_lt (hle j hj) h⟩
  · intro h
    rcases hatt with hzero | ⟨j, hj, heq⟩
    · rw [hzero]
      exact h.1
    · rw [heq]
      exact h.2 j hj

/-- no header is larger than the largest so far -/
theorem header_le (ht : Largest f t) (hno : ∀ m, t < m → m ≤ u → ¬ Largest f m) (hu : t < u) : header f u ≤ header f t := by
  induction u using Nat.strong_induction_on with
  | _ u ih =>
    by_contra hgt
    apply hno u hu le_rfl
    refine ⟨Nat.zero_lt_of_lt (not_le.1 hgt), ?_⟩
    intro j hj
    refine lt_of_le_of_lt ?_ (not_le.1 hgt)
    rcases lt_trichotomy j t with hjt | rfl | hjt
    · exact (ht.2 j hjt).le
    · exact le_rfl
    · exact ih j hj (fun m hm hmj => hno m hm (hmj.trans hj.le)) hjt

/-! ## The block -/

/-- the size of the block after `i` turns -/
def sizeAfter (L : Libc) (f : Stream) : ℕ → ℕ
  | 0 => 0
  | t + 1 => if Resizes L f t then resized L f t else if Largest f t then header f t else sizeAfter L f t

theorem call_len (L : Libc) (f : Stream) (u : ℕ) : ((after L f u).call L).len = header f u := by
  rw [Session.call, (after_fp L f u).1]
  rfl

/-- the pointer that `getline` gets -/
theorem call_data (L : Libc) (f : Stream) (u : ℕ) : ((after L f u).call L).data =
    if Largest f u then if Refused L f u then .null else .block (header f u) none else (after L f u).data := by
  obtain ⟨hfp, hturns⟩ := after_fp L f u
  have hheader : (after L f u).fp.header = header f u := by rw [hfp]; rfl
  simp only [Session.call, hheader, hturns, gt_iff_lt, largest_iff]
  by_cases hl : Largest f u
  · rw [if_pos hl, if_pos hl]
    cases hg : L.grants u (header f u) with
    | true => simp [Refused, hg]
    | false => simp [Refused, hg, hl]
  · rw [if_neg hl, if_neg hl]

theorem after_succ_data (L : Libc) (f : Stream) (u : ℕ) : (after L f (u + 1)).data =
    L.getlineBlock u ((after L f u).call L).data (header f u) (streamAfter f u).afterHeader.line := by
  obtain ⟨hfp, hturns⟩ := after_fp L f u
  rw [after_succ, Session.turn, call_len, hfp, hturns]

/-- what `getline` makes of NULL, and of a block with a capacity -/
theorem getlineBlock_null (L : Libc) (turn n : ℕ) (line : List Byte) :
    ∃ text, L.getlineBlock turn .null n line = .block (L.getlineSize turn 0 line.length) text := ⟨_, rfl⟩

theorem getlineBlock_block (L : Libc) (turn size n : ℕ) (text : Option (List Byte)) (line : List Byte) :
    ∃ text', L.getlineBlock turn (.block size text) n line =
      .block (if n ≤ line.length then L.getlineSize turn n line.length else size) text' := by
  unfold Libc.getlineBlock
  simp only
  by_cases hn : n = 0
  · subst hn
    rw [if_pos rfl, if_pos (Nat.zero_le _)]
    exact ⟨_, rfl⟩
  · rw [if_neg hn]
    by_cases hle : n ≤ line.length
    · rw [if_neg (by omega), if_pos hle]
      exact ⟨_, rfl⟩
    · rw [if_pos (by omega), if_neg hle]
      exact ⟨_, rfl⟩

/-- the first turn allocates, whatever the header -/
theorem first_changes (L : Libc) (f : Stream) : Largest f 0 ∨ Resizes L f 0 := by
  rcases Nat.eq_zero_or_pos (header f 0) with hzero | hpos
  · exact Or.inr (Or.inl (hzero.le.trans (Nat.zero_le _)))
  · exact Or.inl ⟨hpos, fun j hj => absurd hj (Nat.not_lt_zero j)⟩

/-- **After a turn the pointer is a block of that size.** -/
theorem after_data (L : Libc) (f : Stream) (u : ℕ) :
    ∃ text, (after L f (u + 1)).data = .block (sizeAfter L f (u + 1)) text := by
  rw [after_succ_data, call_data, sizeAfter]
  set line := (streamAfter f u).afterHeader.line with hline
  have hlen : line.length = lineLength f u := rfl
  by_cases hl : Largest f u
  · rw [if_pos hl]
    by_cases hr : Refused L f u
    · have hres : Resizes L f u := Or.inr hr
      obtain ⟨text, htext⟩ := getlineBlock_null L u (header f u) line
      exact ⟨text, by rw [if_pos hr, htext, if_pos hres, resized, if_pos hr, hlen]⟩
    · obtain ⟨text, htext⟩ := getlineBlock_block L u (header f u) (header f u) none line
      have hres : Resizes L f u ↔ header f u ≤ line.length := or_iff_left hr
      refine ⟨text, ?_⟩
      rw [if_neg hr, htext, if_congr hres rfl rfl, if_pos hl, resized, if_neg hr, hlen]
  · have hr : ¬ Refused L f u := fun hr => hl hr.1
    have hres : Resizes L f u ↔ header f u ≤ line.length := or_iff_left hr
    rw [if_neg hl, if_neg hl, if_congr hres rfl rfl, resized, if_neg hr]
    cases u with
    | zero =>
      have hle : header f 0 ≤ line.length := hres.1 ((first_changes L f).resolve_left hl)
      have hzero : header f 0 = 0 := by
        by_contra hne
        exact hl ⟨Nat.pos_of_ne_zero hne, fun j hj => absurd hj (Nat.not_lt_zero j)⟩
      rw [if_pos hle, hzero]
      exact ⟨_, rfl⟩
    | succ u =>
      obtain ⟨text, htext⟩ := after_data L f u
      rw [htext]
      obtain ⟨text', htext'⟩ := getlineBlock_block L (u + 1) (sizeAfter L f (u + 1)) (header f (u + 1)) text line
      exact ⟨text', htext'⟩

/-- when a call is truthful -/
theorem call_truthful_iff (L : Libc) (f : Stream) (u : ℕ) : ((after L f u).call L).Truthful ↔
    Largest f u ∨ (u ≠ 0 ∧ header f u ≤ sizeAfter L f u) := by
  unfold Call.Truthful
  rw [call_data, call_len]
  by_cases hl : Largest f u
  · rw [if_pos hl]
    split_ifs <;> simp [hl]
  · rw [if_neg hl]
    cases u with
    | zero =>
      have huninit : (after L f 0).data = .uninit := rfl
      simp [huninit, hl]
    | succ u =>
      obtain ⟨text, htext⟩ := after_data L f u
      simp [htext, hl]

/-! ## The last change -/

theorem sizeAfter_eq (ht : t < u) (hno : ∀ m, t < m → m < u → ¬ Largest f m ∧ ¬ Resizes L f m) :
    sizeAfter L f u = sizeAfter L f (t + 1) := by
  induction u with
  | zero => exact absurd ht (Nat.not_lt_zero t)
  | succ u ih =>
    rcases Nat.lt_succ_iff_lt_or_eq.1 ht with htu | rfl
    · obtain ⟨hl, hr⟩ := hno u htu (Nat.lt_succ_self u)
      rw [sizeAfter, if_neg hr, if_neg hl]
      exact ih htu fun m hm hmu => hno m hm (Nat.lt_succ_of_lt hmu)
    · rfl

theorem last_change (hu : 0 < u) : ∃ t < u, (Largest f t ∨ Resizes L f t) ∧
    ∀ m, t < m → m < u → ¬ Largest f m ∧ ¬ Resizes L f m := by
  induction u with
  | zero => exact absurd hu (Nat.lt_irrefl 0)
  | succ u ih =>
    by_cases hchange : Largest f u ∨ Resizes L f u
    · exact ⟨u, Nat.lt_succ_self u, hchange, fun m hm hmu => absurd hm (by omega)⟩
    · rcases Nat.eq_zero_or_pos u with rfl | hpos
      · exact absurd (first_changes L f) hchange
      · obtain ⟨t, ht, htc, hno⟩ := ih hpos
        refine ⟨t, Nat.lt_succ_of_lt ht, htc, ?_⟩
        intro m hm hmu
        rcases Nat.lt_succ_iff_lt_or_eq.1 hmu with hmu | rfl
        · exact hno m hm hmu
        · exact not_or.1 hchange

end Turns

/-! ## Result -/

/-- **`getline` is told the truth** if and only if the headers fit. -/
theorem truthful_iff (L : Libc) (file : List Byte) :
    ReadsTruthfully L (fopen file none) ↔ HeadersFit L (fopen file none) := by
  set f := fopen file none with hf
  rw [readsTruthfully_iff]
  simp only [call_truthful_iff]
  constructor
  · intro h
    refine ⟨?_, ?_⟩
    · rcases h 0 rfl with hl | ⟨hne, -⟩
      · exact hl.1.ne'
      · exact absurd rfl hne
    · intro t u htu he hres hno hl
      obtain ⟨-, hle⟩ := (h u he).resolve_left hl
      rwa [sizeAfter_eq htu hno, sizeAfter, if_pos hres] at hle
  · intro ⟨hfirst, hfit⟩ u he
    by_cases hl : Largest f u
    · exact Or.inl hl
    · have hu : u ≠ 0 := by
        rintro rfl
        exact hl ⟨Nat.pos_of_ne_zero hfirst, fun j hj => absurd hj (Nat.not_lt_zero j)⟩
      refine Or.inr ⟨hu, ?_⟩
      obtain ⟨t, htu, hchange, hno⟩ := last_change (L := L) (f := f) (Nat.pos_of_ne_zero hu)
      rw [sizeAfter_eq htu hno, sizeAfter]
      by_cases hres : Resizes L f t
      · rw [if_pos hres]
        exact hfit t u htu he hres hno hl
      · have hlt : Largest f t := hchange.resolve_right hres
        rw [if_neg hres, if_pos hlt]
        apply header_le hlt _ htu
        intro m hm hmu
        rcases hmu.lt_or_eq with hmu | rfl
        · exact (hno m hm hmu).1
        · exact hl

/-- `-1 a`, then `500 b` -/
def negativeHeader : List Byte := [45, 49, 32, 97, 10] ++ [53, 48, 48, 32, 98, 10]

/-- three runs of `appendfile_count`, with bodies of 18, 8 and 18 bytes -/
def threeRecords : List Byte :=
  [49, 56, 32, 105, 115, 32, 116, 104, 105, 115, 32, 99, 111, 114, 114, 101, 99, 116, 63, 32, 10] ++
    [56, 32, 72, 101, 108, 108, 111, 44, 32, 10] ++
    [49, 56, 32, 105, 115, 32, 116, 104, 105, 115, 32, 99, 111, 114, 114, 101, 99, 116, 63, 32, 10]

theorem not_readsTruthfully {L : Libc} {f : Stream} (u : ℕ) (he : (streamAfter f u).eof = false)
    (hc : ¬ ((after L f u).call L).Truthful) : ¬ ReadsTruthfully L f := by
  rw [readsTruthfully_iff]
  intro h
  exact hc (h u he)

/-- **What `getline` is told.** An empty file: the pointer is not initialised. A negative header: 500 bytes for a block
of 120. Records of 18, 8 and 18 bytes: 18 bytes for a block that the second record has shrunk to 16. -/
theorem buffer_lies :
    (((after ampleLibc (fopen [] none) 0).call ampleLibc) = ⟨.uninit, 0⟩ ∧
      ¬ ReadsTruthfully ampleLibc (fopen [] none)) ∧
    ((∃ text, (after ampleLibc (fopen negativeHeader none) 1).call ampleLibc = ⟨.block 120 text, 500⟩) ∧
      ¬ ReadsTruthfully ampleLibc (fopen negativeHeader none)) ∧
    (∃ text, (after ampleLibc (fopen threeRecords none) 2).call ampleLibc = ⟨.block 16 text, 18⟩) ∧
      ¬ ReadsTruthfully ampleLibc (fopen threeRecords none) := by
  refine ⟨⟨by decide, not_readsTruthfully 0 rfl (by decide)⟩, ⟨⟨some [97, 10], by decide⟩, ?_⟩,
    ⟨some [72, 101, 108, 108, 111, 44, 32, 10], by decide⟩, ?_⟩
  · exact not_readsTruthfully 1 (by decide) (by decide)
  · exact not_readsTruthfully 2 (by decide) (by decide)

end Cse422.Records
