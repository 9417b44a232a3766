/-
The record files of `studios/studio16`: `appendfile_count.c` appends a record with its length in front, and
`readfile.c` prints the records of a file without their lengths.

A file is its bytes. `appendMain` is one run of the writer; `turn` is one turn of the reader's `while (!feof(fp))`,
and `readfile` the whole loop. The reader's buffer follows `malloc`, `realloc` and `getline`: a block has a size, and
holds a text or nothing that anybody has written.

Premises about the C library:
- `fopen` succeeds, every write is complete, and no read fails; `Records.Stream` drops the last of these, and
  `Records.Concurrent` has several writers at a time;
- `malloc(n)` and `realloc(p, n)` fail or give a block of `n` bytes; `getline` is that of the GNU library, and does not
  fail (`Libc` leaves it open).

- `getLineLen_append`, `splitLine_append`: what `getLineLen` and `getline` consume;
- `turn_line`, `turn_end`: a turn that finds a header and a line, and the turn at the end of the file;
- `readfile_total`: the loop ends, for every file.
-/
import Cse422.Core.Words

namespace Cse422.Records

open Words

/-- a line feed -/
def newline : Byte := 10

def space : Byte := 32

/-! ## appendfile_count.c -/

/-- `strlen(argv[i]) + 1` summed over the arguments, and one for the newline, in `unsigned long` -/
def recordLen (args : List (List Byte)) : ℕ := ((args.map fun a => a.length + 1).sum + 1) % 2 ^ 64

/-- `%lu` -/
def decimal (n : ℕ) : List Byte := (Nat.toDigits 10 n).map fun c => BitVec.ofNat 8 c.toNat

/-- each argument with a space after it, and a newline -/
def recordBody (args : List (List Byte)) : List Byte := (args.map fun a => a ++ [space]).flatten ++ [newline]

def record (args : List (List Byte)) : List Byte := decimal (recordLen args) ++ [space] ++ recordBody args

/-- what `main` leaves in the file; without an argument to append it prints its usage -/
def appendMain (file : List Byte) (args : List (List Byte)) : List Byte :=
  if args = [] then file else file ++ record args

/-- the arguments of a run that appends: at least one, and each a C string -/
structure AppendRun where
  args : List (List Byte)
  nonempty : args ≠ []
  noNul : ∀ a ∈ args, (0 : Byte) ∉ a

/-- the file after the runs -/
def produced (runs : List AppendRun) : List Byte := runs.foldl (fun file r => appendMain file r.args) []

/-! ## readfile.c -/

/-- a result of `int` arithmetic, as the compiled program has it -/
def wrapInt (x : ℤ) : ℤ := x.bmod (2 ^ 32)

/-- an `int` converted to `unsigned long` -/
def toULong (x : ℤ) : ℕ := (x % 2 ^ 64).toNat

/-- `getLineLen`, on the bytes still to read: its result, what it leaves, and whether it met the end of the file -/
def getLineLen (len : ℤ) : List Byte → ℤ × List Byte × Bool
  | [] => (len, [], true)
  | c :: rest =>
    if c = space then (len, rest, false)
    else getLineLen (wrapInt (wrapInt (len * 10) + (c.toNat - 48))) rest

/-- the pointer `data` -/
inductive Ptr where
  /-- as it is before the first assignment -/
  | uninit
  | null
  /-- a block of the heap, with the text that has been stored in it, if one has -/
  | block (size : ℕ) (text : Option (List Byte))
  deriving DecidableEq, Repr

/-- the line at the front: up to the first newline and with it, or all that is left -/
def splitLine : List Byte → List Byte × List Byte
  | [] => ([], [])
  | c :: rest => if c = newline then ([c], rest) else (c :: (splitLine rest).1, (splitLine rest).2)

/-- the block that `getline` leaves for a line of `k` bytes: 120 bytes where it is given none, else the old one unless
it is too small -/
def getlineBlock (data : Ptr) (n k : ℕ) (text : Option (List Byte)) : Ptr :=
  match data with
  | .uninit | .null => .block (max 120 (k + 1)) text
  | .block size _ =>
    if n = 0 then .block (max 120 (k + 1)) text
    else if k + 1 ≤ n then .block size text
    else .block (max (2 * n) (k + 1)) text

/-- what `printf("%s", data)` is given -/
inductive Printed where
  | text (s : List Byte)
  /-- a buffer that nobody has stored a text in -/
  | indeterminate
  deriving DecidableEq, Repr

def printf : Ptr → Printed
  | .block _ (some s) => .text (s.takeWhile (· ≠ 0))
  | .block _ none | .uninit | .null => .indeterminate

structure Reader where
  /-- the bytes of `fp` still to read -/
  rest : List Byte
  eof : Bool
  data : Ptr
  maxlen : ℕ
  out : List Printed
  turns : ℕ
  deriving DecidableEq, Repr

/-- the allocation at the head of the loop; `ok` is whether `malloc` or `realloc` finds the memory -/
def Reader.grow (r : Reader) (ok : Bool) (len : ℕ) : Reader :=
  if len > r.maxlen then { r with data := if ok then .block len none else .null, maxlen := len } else r

/-- `getline(&data, &len, fp)`: at the end of the file it stores no text, and the buffer is unspecified -/
def Reader.getline (r : Reader) (len : ℕ) : Reader :=
  match r.rest with
  | [] => { r with eof := true, data := getlineBlock r.data len 0 none }
  | c :: rest =>
    let l := splitLine (c :: rest)
    { r with rest := l.2, eof := r.eof || l.1.getLast? ≠ some newline,
             data := getlineBlock r.data len l.1.length (some l.1) }

/-- one turn of the loop; `ok k` is the outcome of the allocation in turn `k` -/
def turn (ok : ℕ → Bool) (r : Reader) : Reader :=
  let g := getLineLen 0 r.rest
  let len := toULong g.1
  let r₁ := ({ r with rest := g.2.1, eof := r.eof || g.2.2 } : Reader).grow (ok r.turns) len
  let r₂ := r₁.getline len
  { r₂ with out := r₂.out ++ [printf r₂.data], turns := r₂.turns + 1 }

/-- at most `fuel` turns of `while (!feof(fp))` -/
def readLoop (ok : ℕ → Bool) : ℕ → Reader → Option Reader
  | 0, r => if r.eof then some r else none
  | fuel + 1, r => if r.eof then some r else readLoop ok fuel (turn ok r)

/-- what `main` prints of a file; every turn reads a byte or meets the end, so this many turns are enough -/
def readfile (ok : ℕ → Bool) (file : List Byte) : Option (List Printed) :=
  (readLoop ok (file.length + 1) ⟨file, false, .uninit, 0, [], 0⟩).map Reader.out

/-! ## Spec lemmas -/

theorem getLineLen_append {h : List Byte} (hs : space ∉ h) (len : ℤ) (t : List Byte) :
    ∃ n, getLineLen len (h ++ space :: t) = (n, t, false) := by
  induction h generalizing len with
  | nil => exact ⟨len, by simp [getLineLen]⟩
  | cons c h ih =>
    obtain ⟨hc, hs⟩ := not_or.1 (mt List.mem_cons.2 hs)
    obtain ⟨n, hn⟩ := ih hs (wrapInt (wrapInt (len * 10) + (c.toNat - 48)))
    exact ⟨n, by rw [List.cons_append, getLineLen, if_neg (Ne.symm hc), hn]⟩

theorem splitLine_append {l : List Byte} (hl : newline ∉ l) (t : List Byte) :
    splitLine (l ++ newline :: t) = (l ++ [newline], t) := by
  induction l with
  | nil => simp [splitLine]
  | cons c l ih =>
    obtain ⟨hc, hl⟩ := not_or.1 (mt List.mem_cons.2 hl)
    rw [List.cons_append, splitLine, if_neg (Ne.symm hc), ih hl]
    rfl

theorem grow_rest (r : Reader) (ok : Bool) (len : ℕ) :
    (r.grow ok len).rest = r.rest ∧ (r.grow ok len).eof = r.eof ∧ (r.grow ok len).out = r.out := by
  unfold Reader.grow
  split_ifs <;> exact ⟨rfl, rfl, rfl⟩

/-- the size of the block does not matter to `printf` -/
theorem printf_getlineBlock (data : Ptr) (n k : ℕ) (text : Option (List Byte)) :
    printf (getlineBlock data n k text) = printf (.block 0 text) := by
  have hsize (size : ℕ) : printf (.block size text) = printf (.block 0 text) := by
    cases text with
    | none => rfl
    | some s => rfl
  unfold getlineBlock
  split
  · exact hsize _
  · exact hsize _
  · split_ifs
    · exact hsize _
    · exact hsize _
    · exact hsize _

theorem getline_line {r : Reader} {l t : List Byte} (hr : r.rest = l ++ newline :: t) (hl : newline ∉ l) (len : ℕ) :
    (r.getline len).rest = t ∧ (r.getline len).eof = r.eof ∧ (r.getline len).out = r.out ∧
      printf (r.getline len).data = .text ((l ++ [newline]).takeWhile (· ≠ 0)) := by
  have hsplit : splitLine r.rest = (l ++ [newline], t) := by rw [hr, splitLine_append hl]
  unfold Reader.getline
  split
  · rename_i hnil
    rw [hnil] at hr
    simp at hr
  · rename_i c rest hcons
    rw [hcons] at hsplit
    simp only [hsplit]
    refine ⟨trivial, by simp, trivial, ?_⟩
    exact printf_getlineBlock r.data len (l ++ [newline]).length (some (l ++ [newline]))

theorem getline_end {r : Reader} (hr : r.rest = []) (len : ℕ) :
    (r.getline len).rest = [] ∧ (r.getline len).eof = true ∧ (r.getline len).out = r.out ∧
      printf (r.getline len).data = .indeterminate := by
  unfold Reader.getline
  split
  · exact ⟨hr, rfl, rfl, printf_getlineBlock _ _ _ _⟩
  · rename_i c rest hcons
    rw [hcons] at hr
    cases hr

/-- a turn that finds a header without a space, and a line -/
theorem turn_line (ok : ℕ → Bool) {r : Reader} {h l t : List Byte} (hr : r.rest = h ++ space :: (l ++ newline :: t))
    (hh : space ∉ h) (hl : newline ∉ l) :
    (turn ok r).rest = t ∧ (turn ok r).eof = r.eof ∧
      (turn ok r).out = r.out ++ [.text ((l ++ [newline]).takeWhile (· ≠ 0))] := by
  obtain ⟨n, hn⟩ := getLineLen_append hh 0 (l ++ newline :: t)
  rw [← hr] at hn
  unfold turn
  simp only [hn]
  set r₁ := ({ r with rest := l ++ newline :: t, eof := r.eof || false } : Reader).grow (ok r.turns) (toULong n)
  obtain ⟨hrest, heof, hout⟩ := grow_rest { r with rest := l ++ newline :: t, eof := r.eof || false } (ok r.turns)
    (toULong n)
  obtain ⟨h1, h2, h3, h4⟩ := getline_line (r := r₁) hrest hl (toULong n)
  refine ⟨h1, ?_, ?_⟩
  · rw [h2, heof]
    exact Bool.or_false _
  · rw [h3, h4, hout]

/-- the turn at the end of the file -/
theorem turn_end (ok : ℕ → Bool) {r : Reader} (hr : r.rest = []) :
    (turn ok r).rest = [] ∧ (turn ok r).eof = true ∧ (turn ok r).out = r.out ++ [.indeterminate] := by
  have hn : getLineLen 0 r.rest = (0, [], true) := by rw [hr]; rfl
  unfold turn
  simp only [hn]
  obtain ⟨hrest, heof, hout⟩ := grow_rest { r with rest := [], eof := r.eof || true } (ok r.turns) (toULong 0)
  obtain ⟨h1, h2, h3, h4⟩ := getline_end hrest (toULong 0)
  refine ⟨h1, h2, ?_⟩
  rw [h3, h4, hout]

/-! ## The loop ends -/

theorem getLineLen_length (len : ℤ) (bs : List Byte) :
    (getLineLen len bs).2.1.length ≤ bs.length ∧ ((getLineLen len bs).2.2 = true ∨
      (getLineLen len bs).2.1.length < bs.length) := by
  induction bs generalizing len with
  | nil => exact ⟨le_rfl, Or.inl rfl⟩
  | cons c bs ih =>
    unfold getLineLen
    split_ifs
    · exact ⟨Nat.le_succ _, Or.inr (Nat.lt_succ_self _)⟩
    · obtain ⟨h1, h2⟩ := ih (wrapInt (wrapInt (len * 10) + (c.toNat - 48)))
      refine ⟨h1.trans (Nat.le_succ _), h2.imp_right fun h => h.trans (Nat.lt_succ_self _)⟩

theorem splitLine_length (bs : List Byte) : (splitLine bs).2.length ≤ bs.length := by
  induction bs with
  | nil => exact le_rfl
  | cons c bs ih =>
    unfold splitLine
    split_ifs
    · exact Nat.le_succ _
    · exact ih.trans (Nat.le_succ _)

theorem getline_length (r : Reader) (len : ℕ) :
    (r.getline len).rest.length ≤ r.rest.length ∧ (r.eof = true → (r.getline len).eof = true) := by
  unfold Reader.getline
  split
  · exact ⟨le_rfl, fun _ => rfl⟩
  · rename_i c rest hcons
    rw [hcons]
    exact ⟨splitLine_length _, fun h => by rw [h]; rfl⟩

/-- a turn meets the end of the file or leaves less to read -/
theorem turn_progress (ok : ℕ → Bool) (r : Reader) : (turn ok r).eof = true ∨ (turn ok r).rest.length < r.rest.length := by
  obtain ⟨-, h⟩ := getLineLen_length 0 r.rest
  set g := getLineLen 0 r.rest with hg
  obtain ⟨hrest, heof, -⟩ := grow_rest { r with rest := g.2.1, eof := r.eof || g.2.2 } (ok r.turns) (toULong g.1)
  obtain ⟨h1, h2⟩ := getline_length
    (({ r with rest := g.2.1, eof := r.eof || g.2.2 } : Reader).grow (ok r.turns) (toULong g.1)) (toULong g.1)
  rcases h with h | h
  · refine Or.inl (h2 ?_)
    rw [heof, h]
    exact Bool.or_true _
  · refine Or.inr (lt_of_le_of_lt h1 ?_)
    rw [hrest]
    exact h

theorem readLoop_total (ok : ℕ → Bool) (fuel : ℕ) (r : Reader) (h : r.rest.length < fuel) :
    ∃ r', readLoop ok fuel r = some r' := by
  induction fuel generalizing r with
  | zero => exact absurd h (Nat.not_lt_zero _)
  | succ fuel ih =>
    unfold readLoop
    split_ifs
    · exact ⟨r, rfl⟩
    · rcases turn_progress ok r with he | hlt
      · refine ⟨turn ok r, ?_⟩
        cases fuel <;> simp [readLoop, he]
      · exact ih _ (by omega)

theorem readfile_total (ok : ℕ → Bool) (file : List Byte) : ∃ out, readfile ok file = some out := by
  obtain ⟨r, hr⟩ := readLoop_total ok (file.length + 1) ⟨file, false, .uninit, 0, [], 0⟩ (Nat.lt_succ_self _)
  exact ⟨r.out, by rw [readfile, hr]; rfl⟩

end Cse422.Records
