/-
`readfile.c` on a stream that may fail, with any C library. The reader of `Records.Programs` has a library of its own
and never fails; here the library is a parameter (`Libc`), a stream can report a read error in place of data
(`Stream.broken`), and the calls of `getline` are part of what is observed (`Session.call`).

Premises about the C library: `getc` and `getline` do not change the error of a stream, an error stays once it is there, and
`feof` reports the end of the file only.

- `getLineLenLoop_eq`: the inner loop ends, on every stream;
- `readfile_ends_iff`: the loop of `main` ends if and only if the stream does not report an error: an error does not set
  the flag that `feof` reads (`directory_never_ends`);
- `turn_toReader`: with the library of `Records.Programs` a turn is the turn of that model.
-/
import Cse422.Core.Lts
import Cse422.Records.Programs

namespace Cse422.Records

open Words Lts

/-! ## Streams -/

structure Stream where
  /-- the bytes still to read -/
  rest : List Byte
  /-- the end-of-file flag -/
  eof : Bool
  /-- after these bytes the stream reports read errors, and not the end of the file -/
  broken : Bool
  deriving DecidableEq, Repr

/-- the stream of a file that reports an error from position `err` on, if at all -/
def fopen (file : List Byte) : Option ℕ → Stream
  | none => ⟨file, false, false⟩
  | some p => ⟨file.take p, false, p ≤ file.length⟩

def fgetc (f : Stream) : Option Byte × Stream :=
  match f.rest with
  | [] => (none, { f with eof := f.eof || !f.broken })
  | c :: rest => (some c, { f with rest := rest })

/-- the inner loop of `getLineLen`, at most `fuel` turns of it -/
def getLineLenLoop : ℕ → ℤ → Stream → Option (ℤ × Stream)
  | 0, _, _ => none
  | fuel + 1, len, f =>
    match fgetc f with
    | (none, f') => some (len, f')
    | (some c, f') =>
      if c = space then some (len, f') else getLineLenLoop fuel (wrapInt (wrapInt (len * 10) + (c.toNat - 48))) f'

/-- the `unsigned long` that `main` gets from `getLineLen` -/
def Stream.header (f : Stream) : ℕ := toULong (getLineLen 0 f.rest).1

def Stream.afterHeader (f : Stream) : Stream :=
  { f with rest := (getLineLen 0 f.rest).2.1, eof := f.eof || ((getLineLen 0 f.rest).2.2 && !f.broken) }

/-- the bytes that `getline` takes -/
def Stream.line (f : Stream) : List Byte := (splitLine f.rest).1

def Stream.afterLine (f : Stream) : Stream :=
  { f with rest := (splitLine f.rest).2, eof := f.eof || (f.line.getLast? ≠ some newline && !f.broken) }

/-- a turn of the loop of `main` -/
def Stream.turn (f : Stream) : Stream := f.afterHeader.afterLine

/-! ## The program -/

/-- the answers of the C library, which may be different in each turn -/
structure Libc where
  /-- does `malloc` or `realloc` find that much memory? -/
  grants : ℕ → ℕ → Bool
  /-- the block that `getline` leaves for a line, when it was given a capacity that is too small -/
  getlineSize : ℕ → ℕ → ℕ → ℕ
  addressSpace : ∀ turn size, 2 ^ 63 ≤ size → grants turn size = false
  holdsLine : ∀ turn n k, k + 1 ≤ getlineSize turn n k
  /-- a fresh block has 120 bytes, unless the line is longer -/
  fresh : ∀ turn k, k + 1 ≤ 120 → getlineSize turn 0 k = 120

/-- the block after `getline`; a pointer at NULL or a capacity of 0 makes it allocate one -/
def Libc.getlineBlock (L : Libc) (turn : ℕ) (data : Ptr) (n : ℕ) (line : List Byte) : Ptr :=
  let text := if line = [] then none else some line
  match data with
  | .uninit | .null => .block (L.getlineSize turn 0 line.length) text
  | .block size _ =>
    if n = 0 then .block (L.getlineSize turn 0 line.length) text
    else if line.length + 1 ≤ n then .block size text
    else .block (L.getlineSize turn n line.length) text

/-- the pointer and the capacity that `getline` is given -/
structure Call where
  data : Ptr
  len : ℕ
  deriving DecidableEq, Repr

structure Session where
  fp : Stream
  data : Ptr
  maxlen : ℕ
  out : List Printed
  turns : ℕ
  deriving DecidableEq, Repr

/-- `main` after `fopen` -/
def Session.start (f : Stream) : Session := ⟨f, .uninit, 0, [], 0⟩

/-- the call of `getline` in the turn from `s` -/
def Session.call (L : Libc) (s : Session) : Call :=
  let len := s.fp.header
  ⟨if len > s.maxlen then if L.grants s.turns len then .block len none else .null else s.data, len⟩

def Session.turn (L : Libc) (s : Session) : Session :=
  let c := s.call L
  let data := L.getlineBlock s.turns c.data c.len s.fp.afterHeader.line
  { fp := s.fp.turn, data := data, maxlen := if c.len > s.maxlen then c.len else s.maxlen,
    out := s.out ++ [printf data], turns := s.turns + 1 }

/-- `while (!feof(fp))` -/
def Session.step (L : Libc) (s : Session) (_ : Unit) : Option Session := if s.fp.eof then none else some (s.turn L)

/-! ## The model without errors -/

/-- the library of `Records.Programs` -/
def plainLibc (grants : ℕ → ℕ → Bool) (h : ∀ turn size, 2 ^ 63 ≤ size → grants turn size = false) : Libc where
  grants := grants
  getlineSize _ n k := if n = 0 then max 120 (k + 1) else max (2 * n) (k + 1)
  addressSpace := h
  holdsLine _ _ _ := by split_ifs <;> exact le_max_right _ _
  fresh _ _ hk := max_eq_left hk

/-- memory for everything below half of the address space -/
def ampleLibc : Libc := plainLibc (fun _ size => size < 2 ^ 63) fun _ size h => by simpa using h

def Session.toReader (s : Session) : Reader := ⟨s.fp.rest, s.fp.eof, s.data, s.maxlen, s.out, s.turns⟩

theorem plainLibc_getlineBlock {grants : ℕ → ℕ → Bool} {h : ∀ turn size, 2 ^ 63 ≤ size → grants turn size = false}
    (turn : ℕ) (data : Ptr) (n : ℕ) (line : List Byte) : (plainLibc grants h).getlineBlock turn data n line =
      getlineBlock data n line.length (if line = [] then none else some line) := by
  unfold Libc.getlineBlock getlineBlock
  cases data with
  | uninit => rfl
  | null => rfl
  | block size text =>
    simp only [plainLibc]
    split_ifs <;> rfl

theorem getline_eq (r : Reader) (len : ℕ) : r.getline len = { r with
    rest := (splitLine r.rest).2, eof := r.eof || (splitLine r.rest).1.getLast? ≠ some newline,
    data := getlineBlock r.data len (splitLine r.rest).1.length
      (if (splitLine r.rest).1 = [] then none else some (splitLine r.rest).1) } := by
  cases hrest : r.rest with
  | nil => simp [Reader.getline, splitLine, hrest]
  | cons c rest =>
    have hne : (splitLine (c :: rest)).1 ≠ [] := by
      unfold splitLine
      split_ifs <;> simp
    simp only [Reader.getline, hrest, if_neg hne]

theorem grow_eq (r : Reader) (ok : Bool) (len : ℕ) : r.grow ok len = { r with
    data := if len > r.maxlen then if ok then .block len none else .null else r.data,
    maxlen := if len > r.maxlen then len else r.maxlen } := by
  unfold Reader.grow
  split_ifs <;> rfl

/-- **A turn is a turn of the model without errors**, with the same answer of the allocator. -/
theorem turn_toReader {grants : ℕ → ℕ → Bool} {h : ∀ turn size, 2 ^ 63 ≤ size → grants turn size = false} {s : Session}
    (hb : s.fp.broken = false) : (s.turn (plainLibc grants h)).toReader =
      turn (fun _ => grants s.turns s.fp.header) s.toReader := by
  have hgrants : (plainLibc grants h).grants = grants := rfl
  simp only [Session.turn, Session.toReader, turn, plainLibc_getlineBlock, getline_eq, grow_eq, Stream.turn,
    Stream.afterLine, Stream.line, Stream.afterHeader, Session.call, hgrants, hb, Bool.not_false, Bool.and_true]
  rfl

/-! ## The inner loop -/

theorem getLineLenLoop_eq {fuel : ℕ} (len : ℤ) (f : Stream) (h : f.rest.length < fuel) :
    getLineLenLoop fuel len f = some ((getLineLen len f.rest).1,
      { f with rest := (getLineLen len f.rest).2.1, eof := f.eof || ((getLineLen len f.rest).2.2 && !f.broken) }) := by
  induction fuel generalizing len f with
  | zero => exact absurd h (Nat.not_lt_zero _)
  | succ fuel ih =>
    unfold getLineLenLoop fgetc
    cases hrest : f.rest with
    | nil => simp [getLineLen]
    | cons c rest =>
      simp only [getLineLen]
      split_ifs with hc
      · simp
      · rw [hrest, List.length_cons] at h
        exact ih _ { f with rest := rest } (Nat.lt_of_succ_lt_succ h)

/-! ## The loop of main -/

/-- both loops end: the inner loop on every stream, and the loop of `main` -/
def Ends (L : Libc) (f : Stream) : Prop :=
  (∀ len g, ∃ fuel r, getLineLenLoop fuel len g = some r) ∧
    ∃ n, ∀ l s, Run (Takes (Session.step L)) (.start f) l s → l.length ≤ n

section Ends

variable {L : Libc} {s t : Session} {f : Stream}

theorem step_eq {i : Unit} (h : Takes (Session.step L) s i t) : s.fp.eof = false ∧ t = s.turn L := by
  simp only [Takes, Session.step] at h
  split_ifs at h with he
  exact ⟨by simpa using he, (Option.some.inj h).symm⟩

/-- a turn of a stream without errors meets the end of the file or leaves less to read -/
theorem stream_progress (hb : f.broken = false) : f.turn.eof = true ∨ f.turn.rest.length < f.rest.length := by
  obtain ⟨-, h⟩ := getLineLen_length 0 f.rest
  rcases h with h | h
  · refine Or.inl ?_
    simp [Stream.turn, Stream.afterLine, Stream.afterHeader, h, hb]
  · refine Or.inr (lt_of_le_of_lt (splitLine_length _) h)

/-- a stream with an error never gets its flag set -/
theorem broken_eof (hb : f.broken = true) (he : f.eof = false) : f.turn.eof = false := by
  simp [Stream.turn, Stream.afterLine, Stream.afterHeader, hb, he]

/-- the turns that are left: what there is to read, and the one that meets the end -/
def Session.left (s : Session) : ℕ := if s.fp.eof then 0 else s.fp.rest.length + 1

theorem session_ends (hb : f.broken = false) {l : List Unit} (h : Run (Takes (Session.step L)) (.start f) l s) :
    l.length ≤ (Session.start f).left := by
  have hle := Run.length_le (I := fun s : Session => s.fp.broken = false) Session.left (fun s _ t hs hst => ?_)
    (fun s _ t hs hst => ?_) h hb
  · omega
  · obtain ⟨-, rfl⟩ := step_eq hst
    exact hs
  · obtain ⟨he, rfl⟩ := step_eq hst
    have hleft : s.left = s.fp.rest.length + 1 := if_neg (by simp [he])
    rw [hleft]
    rcases stream_progress hs with hend | hlt
    · have hzero : (s.turn L).left = 0 := if_pos hend
      rw [hzero]
      exact Nat.succ_pos _
    · have hle : (s.turn L).left ≤ s.fp.turn.rest.length + 1 := by
        unfold Session.left
        split_ifs
        · exact Nat.zero_le _
        · exact le_rfl
      omega

/-- a stream with an error is read for ever -/
theorem session_goes_on (hb : f.broken = true) (he : f.eof = false) (n : ℕ) :
    ∀ s : Session, s.fp = f → ∃ l t, Run (Takes (Session.step L)) s l t ∧ l.length = n := by
  induction n generalizing f with
  | zero => exact fun s _ => ⟨[], s, .nil s, rfl⟩
  | succ n ih =>
    rintro s rfl
    obtain ⟨l, t, hr, hn⟩ := ih (f := (s.turn L).fp) hb (broken_eof hb he) _ rfl
    refine ⟨() :: l, t, .cons ?_ hr, by rw [List.length_cons, hn]⟩
    simp only [Takes, Session.step, he, Bool.false_eq_true, if_false]

theorem not_ends (hb : f.broken = true) (he : f.eof = false) : ¬ Ends L f := by
  intro h
  obtain ⟨n, hn⟩ := h.2
  obtain ⟨l, t, hr, hlen⟩ := session_goes_on (L := L) hb he (n + 1) (.start f) rfl
  have hle := hn l t hr
  omega

end Ends

/-- **The loops end**, unless the stream reports an error. -/
theorem readfile_ends_iff (L : Libc) (file : List Byte) (err : Option ℕ) :
    Ends L (fopen file err) ↔ ∀ p ∈ err, file.length < p := by
  have heof : (fopen file err).eof = false := by cases err <;> rfl
  have hbroken : (fopen file err).broken = false ↔ ∀ p ∈ err, file.length < p := by
    cases err with
    | none => simp [fopen]
    | some p => simp [fopen]
  rw [← hbroken]
  constructor
  · intro h
    by_contra hb
    exact not_ends (by simpa using hb) heof h
  · intro hb
    refine ⟨fun len g => ⟨_, _, getLineLenLoop_eq len g (Nat.lt_succ_self _)⟩, _, fun l s hr => session_ends hb hr⟩

/-- **A directory.** Its stream reports an error from the start, and `main` never leaves its loop. -/
theorem directory_never_ends : ¬ Ends ampleLibc (fopen [] (some 0)) := not_ends rfl rfl

end Cse422.Records
