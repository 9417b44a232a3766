/-
Reading back. The reader learns that it is at the end of the file only in a turn that has nothing left to read, and
prints its buffer in that turn too.

- `round_trip_never`: for every sequence of appends, none included, what `readfile` gives to `printf` last is a buffer
  that holds no text, so the round trip never holds; and what it has printed before is the bodies of the records if and
  only if no argument contains a newline;
- `read_one_record`: a file of one record.

The file is cut into chunks that are empty or end in a space and a newline (`Closed`): the reader never stops within a
chunk, and each turn takes at least the space that ends a header away from what is printed (`chunk_read`).
-/
import Mathlib.Data.List.TakeWhile
import Cse422.Records.Programs

namespace Cse422.Records

open Words

/-! ## The property -/

/-- the bodies of the records, in order -/
def bodies (runs : List AppendRun) : List Byte := (runs.map fun r => recordBody r.args).flatten

/-- the bytes that `printf` puts out for texts -/
def Printed.bytes : Printed → List Byte
  | .text s => s
  | .indeterminate => []

def Printed.initialised : Printed → Bool
  | .text _ => true
  | .indeterminate => false

/-- `readfile` prints the bodies of the records and nothing else, and only from buffers that hold a text -/
def RoundTrip (ok : ℕ → Bool) (runs : List AppendRun) : Prop :=
  ∃ out, readfile ok (produced runs) = some out ∧ (out.map Printed.bytes).flatten = bodies runs ∧
    ∀ p ∈ out, p.initialised

/-- no argument contains a newline -/
def AppendRun.OneLine (r : AppendRun) : Prop := ∀ a ∈ r.args, newline ∉ a

/-! ## Bytes of a record -/

theorem decimal_digit {n : ℕ} {c : Byte} (h : c ∈ decimal n) : 48 ≤ c.toNat ∧ c.toNat ≤ 57 := by
  obtain ⟨d, hd, rfl⟩ := List.mem_map.1 h
  have hdig := Nat.isDigit_of_mem_toDigits (by decide) (by decide) hd
  obtain ⟨h1, h2⟩ := Char.isDigit_iff_toNat.1 hdig
  have h48 : 48 ≤ d.toNat := h1
  have h57 : d.toNat ≤ 57 := h2
  rw [BitVec.toNat_ofNat]
  omega

theorem space_notMem_decimal (n : ℕ) : space ∉ decimal n := by
  intro h
  have hd := decimal_digit h
  simp [space] at hd

/-- the arguments, each with its space, without the newline -/
def recordArgs (args : List (List Byte)) : List Byte := (args.map fun a => a ++ [space]).flatten

theorem recordBody_eq (args : List (List Byte)) : recordBody args = recordArgs args ++ [newline] := rfl

theorem suffix_recordBody {args : List (List Byte)} (h : args ≠ []) : [space, newline] <:+ recordBody args := by
  refine ⟨recordArgs args.dropLast ++ args.getLast h, ?_⟩
  conv_rhs => rw [← List.dropLast_append_getLast h]
  simp [recordBody, recordArgs]

theorem mem_recordArgs {args : List (List Byte)} {c : Byte} :
    c ∈ recordArgs args ↔ (∃ a ∈ args, c ∈ a) ∨ (c = space ∧ args ≠ []) := by
  unfold recordArgs
  simp only [List.mem_flatten, List.mem_map]
  constructor
  · rintro ⟨l, ⟨a, ha, rfl⟩, hc⟩
    rcases List.mem_append.1 hc with hc | hc
    · exact Or.inl ⟨a, ha, hc⟩
    · exact Or.inr ⟨List.mem_singleton.1 hc, List.ne_nil_of_mem ha⟩
  · rintro (⟨a, ha, hc⟩ | ⟨rfl, hne⟩)
    · exact ⟨_, ⟨a, ha, rfl⟩, List.mem_append_left _ hc⟩
    · obtain ⟨a, ha⟩ := List.exists_mem_of_ne_nil args hne
      exact ⟨_, ⟨a, ha, rfl⟩, by simp⟩

theorem zero_notMem_recordBody (r : AppendRun) : (0 : Byte) ∉ recordBody r.args := by
  rw [recordBody_eq, List.mem_append, mem_recordArgs]
  rintro ((⟨a, ha, h0⟩ | ⟨h0, -⟩) | h0)
  · exact r.noNul a ha h0
  · cases h0
  · cases List.mem_singleton.1 h0

theorem newline_mem_recordArgs (r : AppendRun) : newline ∈ recordArgs r.args ↔ ¬ r.OneLine := by
  rw [mem_recordArgs]
  unfold AppendRun.OneLine
  push Not
  refine or_iff_left ?_
  rintro ⟨h, -⟩
  cases h

/-! ## Chunks -/

/-- empty, or it ends in a space and a newline -/
def Closed (b : List Byte) : Prop := b = [] ∨ [space, newline] <:+ b

/-- what follows a newline in a closed chunk is closed -/
theorem closed_tail {b l t : List Byte} (h : [space, newline] <:+ b) (hb : b = l ++ newline :: t) : Closed t := by
  have ht : t <:+ b := ⟨l ++ [newline], by rw [hb, List.append_assoc]; rfl⟩
  have hnt : newline :: t <:+ b := ⟨l, hb.symm⟩
  rcases Nat.lt_or_ge t.length 2 with hlt | hge
  · have h2 : newline :: t <:+ [space, newline] := List.suffix_of_suffix_length_le hnt h (by simp; omega)
    match t, h2 with
    | [], _ => exact Or.inl rfl
    | [c], h2 => cases h2.eq_of_length rfl
  · exact Or.inr (List.suffix_of_suffix_length_le h ht hge)

/-- a chunk that is not empty has a space, and a newline after it -/
theorem closed_split {b : List Byte} (h : [space, newline] <:+ b) :
    ∃ hd l t, b = hd ++ space :: (l ++ newline :: t) ∧ space ∉ hd ∧ newline ∉ l ∧ Closed t := by
  have hsp : space ∈ b := h.subset (by simp)
  obtain ⟨hd, b₁, hb, hhd⟩ := List.eq_append_cons_of_mem hsp
  have hb₁ : b₁ <:+ b := ⟨hd ++ [space], by rw [hb, List.append_assoc]; rfl⟩
  have hnl : [newline] <:+ b := (List.suffix_cons space [newline]).trans h
  have hmem : newline ∈ b₁ := by
    cases b₁ with
    | nil =>
      -- the last byte would be the space
      have hs : [space] <:+ b := ⟨hd, hb.symm⟩
      cases (List.suffix_of_suffix_length_le hs hnl le_rfl).eq_of_length rfl
    | cons c b₁ => exact (List.suffix_of_suffix_length_le hnl hb₁ (by simp)).subset (by simp)
  obtain ⟨l, t, hl, hnew⟩ := List.eq_append_cons_of_mem hmem
  refine ⟨hd, l, t, by rw [hb, hl], hhd, hnew, closed_tail (l := hd ++ space :: l) h ?_⟩
  rw [hb, hl, List.append_assoc]
  rfl

/-! ## Turns -/

/-- some turns take the reader from `r` to `r'`, with the texts `ls` printed -/
structure Reads (ok : ℕ → Bool) (r : Reader) (k : ℕ) (ls : List (List Byte)) (r' : Reader) : Prop where
  loop : ∀ fuel, readLoop ok (fuel + k) r = readLoop ok fuel r'
  eof : r'.eof = false
  out : r'.out = r.out ++ ls.map .text

theorem Reads.refl (ok : ℕ → Bool) {r : Reader} (h : r.eof = false) : Reads ok r 0 [] r :=
  ⟨fun _ => rfl, h, by simp⟩

theorem Reads.trans {ok : ℕ → Bool} {r r' r'' : Reader} {j k : ℕ} {ls ms : List (List Byte)}
    (h : Reads ok r j ls r') (h' : Reads ok r' k ms r'') : Reads ok r (j + k) (ls ++ ms) r'' where
  loop fuel := by rw [Nat.add_comm j k, ← Nat.add_assoc, h.loop, h'.loop]
  eof := h'.eof
  out := by rw [h'.out, h.out, List.map_append, List.append_assoc]

/-- one turn that finds a header and a line without NUL -/
theorem reads_line (ok : ℕ → Bool) {r : Reader} {h l t : List Byte} (he : r.eof = false)
    (hr : r.rest = h ++ space :: (l ++ newline :: t)) (hh : space ∉ h) (hl : newline ∉ l) (h0 : (0 : Byte) ∉ l) :
    ∃ r', Reads ok r 1 [l ++ [newline]] r' ∧ r'.rest = t := by
  obtain ⟨h1, h2, h3⟩ := turn_line ok hr hh hl
  have htake : (l ++ [newline]).takeWhile (· ≠ 0) = l ++ [newline] := by
    refine List.takeWhile_eq_self_iff.2 fun c hc => ?_
    rcases List.mem_append.1 hc with hc | hc
    · have hne : c ≠ 0 := fun h => h0 (h ▸ hc)
      simpa using hne
    · rw [List.mem_singleton.1 hc]
      rfl
  refine ⟨turn ok r, ⟨fun fuel => ?_, h2.trans he, ?_⟩, h1⟩
  · conv_lhs => unfold readLoop
    rw [if_neg (by simp [he])]
  · rw [h3, htake]
    rfl

theorem notMem_append_cons {c x : Byte} {l t : List Byte} (h : c ∉ l ++ x :: t) : c ∉ l ∧ c ∉ t :=
  ⟨fun hl => h (List.mem_append_left _ hl), fun ht => h (List.mem_append_right _ (List.mem_cons_of_mem _ ht))⟩

/-- the reader passes over a closed chunk, and prints less than the chunk -/
theorem chunk_read (ok : ℕ → Bool) (n : ℕ) {r : Reader} {b t : List Byte} (hn : b.length ≤ n) (hb : Closed b)
    (h0 : (0 : Byte) ∉ b) (he : r.eof = false) (hr : r.rest = b ++ t) :
    ∃ k L r', Reads ok r k L r' ∧ r'.rest = t ∧ k + L.flatten.length ≤ b.length ∧ (b ≠ [] → 0 < k) := by
  induction n generalizing r b with
  | zero =>
    obtain rfl := List.length_eq_zero_iff.1 (Nat.le_zero.1 hn)
    exact ⟨0, [], r, Reads.refl ok he, hr, le_rfl, fun h => absurd rfl h⟩
  | succ n ih =>
    rcases hb with rfl | hb
    · exact ⟨0, [], r, Reads.refl ok he, hr, le_rfl, fun h => absurd rfl h⟩
    obtain ⟨hd, l, b', rfl, hhd, hl, hb'⟩ := closed_split hb
    simp only [List.length_append, List.length_cons] at hn
    obtain ⟨h0l, h0b⟩ := notMem_append_cons (notMem_append_cons h0).2
    have hrest : r.rest = hd ++ space :: (l ++ newline :: (b' ++ t)) := by rw [hr]; simp
    obtain ⟨r₁, h₁, hr₁⟩ := reads_line ok he hrest hhd hl h0l
    obtain ⟨k, L, r₂, h₂, hr₂, hk, -⟩ := ih (by omega) hb' h0b h₁.eof hr₁
    refine ⟨1 + k, [l ++ [newline]] ++ L, r₂, h₁.trans h₂, hr₂, ?_, fun _ => by omega⟩
    simp only [List.flatten_append, List.flatten_singleton, List.length_append, List.length_cons, List.length_nil]
    omega

/-- the reader passes over a record: it prints the body of a record of one line, and of another record less -/
theorem record_read (ok : ℕ → Bool) (a : AppendRun) {r : Reader} {t : List Byte} (he : r.eof = false)
    (hr : r.rest = record a.args ++ t) :
    ∃ k L r', Reads ok r k L r' ∧ r'.rest = t ∧ k ≤ (record a.args).length ∧
      L.flatten.length ≤ (recordBody a.args).length ∧ (L.flatten = recordBody a.args ↔ a.OneLine) := by
  have h0 := zero_notMem_recordBody a
  by_cases hone : a.OneLine
  · have hl : newline ∉ recordArgs a.args := fun h => (newline_mem_recordArgs a).1 h hone
    rw [recordBody_eq] at h0 ⊢
    have hrest : r.rest = decimal (recordLen a.args) ++ space :: (recordArgs a.args ++ newline :: t) := by
      rw [hr]
      simp [record, recordBody_eq]
    obtain ⟨r', h, hr'⟩ := reads_line ok he hrest (space_notMem_decimal _) hl fun h => h0 (List.mem_append_left _ h)
    refine ⟨1, _, r', h, hr', ?_, by simp, by simp [hone]⟩
    simp only [record, List.length_append, List.length_singleton]
    omega
  · have hl : newline ∈ recordArgs a.args := (newline_mem_recordArgs a).2 hone
    obtain ⟨l, b', hbody, hnew⟩ := List.eq_append_cons_of_mem (List.mem_append_left [newline] hl)
    rw [← recordBody_eq] at hbody
    have hb' : Closed b' := closed_tail (suffix_recordBody a.nonempty) hbody
    have hne : b' ≠ [] := by
      -- the first newline is not the last byte
      rintro rfl
      have heq : recordArgs a.args = l := List.append_left_injective [newline] hbody
      exact hnew (heq ▸ hl)
    obtain ⟨h0l, h0b⟩ := notMem_append_cons (hbody ▸ h0)
    have hrest : r.rest = decimal (recordLen a.args) ++ space :: (l ++ newline :: (b' ++ t)) := by
      rw [hr]
      simp [record, hbody]
    obtain ⟨r₁, h₁, hr₁⟩ := reads_line ok he hrest (space_notMem_decimal _) hnew h0l
    obtain ⟨k, L, r₂, h₂, hr₂, hk, hpos⟩ := chunk_read ok b'.length le_rfl hb' h0b h₁.eof hr₁
    have hlt : ([l ++ [newline]] ++ L).flatten.length < (recordBody a.args).length := by
      have hk0 := hpos hne
      simp only [hbody, List.flatten_append, List.flatten_singleton, List.length_append, List.length_cons,
        List.length_nil]
      omega
    refine ⟨1 + k, _, r₂, h₁.trans h₂, hr₂, ?_, hlt.le, ?_⟩
    · simp only [record, hbody, List.length_append, List.length_cons, List.length_nil]
      omega
    · exact ⟨fun h => absurd (congrArg List.length h) hlt.ne, fun h => absurd h hone⟩

/-- the reader passes over the records -/
theorem records_read (ok : ℕ → Bool) (runs : List AppendRun) {r : Reader} (he : r.eof = false)
    (hr : r.rest = (runs.map fun a => record a.args).flatten) :
    ∃ k L r', Reads ok r k L r' ∧ r'.rest = [] ∧ k ≤ r.rest.length ∧
      L.flatten.length ≤ (bodies runs).length ∧ (L.flatten = bodies runs ↔ ∀ a ∈ runs, a.OneLine) := by
  induction runs generalizing r with
  | nil => exact ⟨0, [], r, Reads.refl ok he, hr, Nat.zero_le _, le_rfl, by simp [bodies]⟩
  | cons a runs ih =>
    rw [List.map_cons, List.flatten_cons] at hr
    obtain ⟨k₁, L₁, r₁, h₁, hr₁, hk₁, hlen₁, hL₁⟩ := record_read ok a he hr
    obtain ⟨k₂, L₂, r₂, h₂, hr₂, hk₂, hlen₂, hL₂⟩ := ih h₁.eof hr₁
    have hbodies : bodies (a :: runs) = recordBody a.args ++ bodies runs := rfl
    refine ⟨k₁ + k₂, L₁ ++ L₂, r₂, h₁.trans h₂, hr₂, ?_, ?_, ?_⟩
    · rw [hr, List.length_append, ← hr₁]
      omega
    · rw [hbodies, List.flatten_append, List.length_append, List.length_append]
      omega
    · rw [hbodies, List.flatten_append, List.forall_mem_cons, ← hL₁, ← hL₂]
      constructor
      · intro h
        -- neither part is longer than its body, so neither is shorter
        have hlen := congrArg List.length h
        rw [List.length_append, List.length_append] at hlen
        exact List.append_inj h (by omega)
      · rintro ⟨h, h'⟩
        rw [h, h']

/-! ## The round trip -/

theorem produced_eq (runs : List AppendRun) : produced runs = (runs.map fun a => record a.args).flatten := by
  have happ : ∀ file, runs.foldl (fun file r => appendMain file r.args) file =
      file ++ (runs.map fun a => record a.args).flatten := by
    induction runs with
    | nil => simp
    | cons a runs ih =>
      intro file
      rw [List.foldl_cons, ih, appendMain, if_neg a.nonempty]
      simp
  exact happ []

/-- what `readfile` prints of a file of records -/
theorem readfile_produced (ok : ℕ → Bool) (runs : List AppendRun) :
    ∃ L : List (List Byte), readfile ok (produced runs) = some (L.map .text ++ [.indeterminate]) ∧
      (L.flatten = bodies runs ↔ ∀ a ∈ runs, a.OneLine) := by
  set r₀ : Reader := ⟨produced runs, false, .uninit, 0, [], 0⟩ with hr₀
  obtain ⟨k, L, r, h, hr, hk, -, hL⟩ := records_read ok runs (r := r₀) rfl (produced_eq runs)
  refine ⟨L, ?_, hL⟩
  obtain ⟨-, heof, hout⟩ := turn_end ok hr
  have hfuel : (produced runs).length + 1 = (produced runs).length - k + 1 + k := by
    have hk' : k ≤ (produced runs).length := hk
    omega
  have hloop : readLoop ok ((produced runs).length + 1) r₀ = some (turn ok r) := by
    rw [hfuel, h.loop]
    unfold readLoop
    rw [if_neg (by simp [h.eof])]
    cases (produced runs).length - k <;> simp [readLoop, heof]
  rw [readfile, ← hr₀, hloop, Option.map_some, hout, h.out]
  rfl

/-- the last thing `readfile` prints is a buffer without a text -/
theorem round_trip_never (ok : ℕ → Bool) (runs : List AppendRun) :
    ¬ RoundTrip ok runs ∧ ∃ L : List (List Byte), readfile ok (produced runs) = some (L.map .text ++ [.indeterminate]) ∧
      (L.flatten = bodies runs ↔ ∀ a ∈ runs, a.OneLine) := by
  obtain ⟨L, hread, hL⟩ := readfile_produced ok runs
  refine ⟨?_, L, hread, hL⟩
  rintro ⟨out, hout, -, hinit⟩
  obtain rfl := Option.some.inj (hread.symm.trans hout)
  cases hinit .indeterminate (by simp)

/-- a run that appends `hi` -/
def appendHi : AppendRun := ⟨[[104, 105]], by decide, by decide⟩

/-- a file of one record: its body is printed, and then the buffer of the turn at the end of the file -/
theorem read_one_record :
    readfile (fun _ => true) (produced [appendHi]) = some [.text [104, 105, 32, 10], .indeterminate] ∧
      ¬ RoundTrip (fun _ => true) [appendHi] := by
  have hread : readfile (fun _ => true) (produced [appendHi]) =
      some [.text [104, 105, 32, 10], .indeterminate] := by decide
  refine ⟨hread, ?_⟩
  rintro ⟨out, hout, -, hinit⟩
  obtain rfl := Option.some.inj (hread.symm.trans hout)
  exact absurd (hinit .indeterminate (by decide)) (by decide)

end Cse422.Records
