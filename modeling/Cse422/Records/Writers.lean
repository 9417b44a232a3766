/-
The programs of `studios/studio16` that write their arguments into a file: `writefile.c` with `fprintf`,
`writefile_fputs.c` with `fputs`, `writefile_sys.c` with `open` and `write`.

- `writers_agree_iff`: they leave the same text, one line for each argument and nothing else, if and only if the file was
  not there or had no more bytes than the text: `writefile_sys` opens it without O_TRUNC;
- `old_bytes_stay`: a file that had more.
-/
import Cse422.Core.Files
import Cse422.Records.RoundTrip

namespace Cse422.Records

open Words Files

/-! ## The programs -/

/-- `writefile`; `flush` is when the stream writes out its buffer. Without an argument to write it prints its usage. -/
def writefileMain (flush : ℕ → ℕ) (old : Option (List Byte)) (args : List (List Byte)) : Option (List Byte) :=
  if args = [] then old
  else some (args.foldl (fun fd a => fd.put flush (a ++ [newline])) (fopenW old)).close.content

/-- `writefile_fputs` -/
def writefileFputsMain (flush : ℕ → ℕ) (old : Option (List Byte)) (args : List (List Byte)) : Option (List Byte) :=
  if args = [] then old
  else some (args.foldl (fun fd a => (fd.put flush a).put flush [newline]) (fopenW old)).close.content

/-- `writefile_sys`: its flags are O_WRONLY and O_CREAT -/
def writefileSysMain (old : Option (List Byte)) (args : List (List Byte)) : Option (List Byte) :=
  if args = [] then old
  else some (args.foldl (fun fd a => (fd.write a).write [newline]) (openFile false old)).content

/-- each argument and a newline -/
def lines (args : List (List Byte)) : List Byte := (args.map fun a => a ++ [newline]).flatten

/-- all three leave this text, however the streams are flushed -/
structure WritersAgree (old : Option (List Byte)) (r : AppendRun) : Prop where
  writefile : ∀ flush, writefileMain flush old r.args = some (lines r.args)
  fputs : ∀ flush, writefileFputsMain flush old r.args = some (lines r.args)
  sys : writefileSysMain old r.args = some (lines r.args)

/-! ## What they leave -/

section Writers

variable (flush : ℕ → ℕ) (old : Option (List Byte)) (r : AppendRun)

/-- the lines, and what the file had beyond them -/
theorem written_content (trunc : Bool) (args : List (List Byte)) :
    (args.foldl (fun f a => f.write (a ++ [newline])) (openFile trunc old)).content =
      lines args ++ (openFile trunc old).content.drop (lines args).length := by
  rw [foldl_write, content_write_start]
  rfl

/-- a stream that is closed in the end is a file that was written directly -/
theorem stream_content {put : Stdio Byte → List Byte → Stdio Byte} (args : List (List Byte))
    (h : ∀ fd a, (put fd a).close = fd.close.write (a ++ [newline])) :
    (args.foldl put (fopenW old)).close.content = lines args := by
  have hopen : (fopenW old).close = openFile true old := write_nil _
  have hclose : args.foldl (fun f a => f.write (a ++ [newline])) (fopenW old).close = (args.foldl put (fopenW old)).close :=
    List.foldl_hom Stdio.close fun fd a => (h fd a).symm
  rw [← hclose, hopen, written_content]
  exact (congrArg _ List.drop_nil).trans (List.append_nil _)

theorem writefileMain_eq : writefileMain flush old r.args = some (lines r.args) := by
  rw [writefileMain, if_neg r.nonempty, stream_content]
  exact fun fd a => close_put flush fd _

theorem writefileFputsMain_eq : writefileFputsMain flush old r.args = some (lines r.args) := by
  rw [writefileFputsMain, if_neg r.nonempty, stream_content]
  intro fd a
  rw [close_put, close_put, write_write]

theorem writefileSysMain_eq :
    writefileSysMain old r.args = some (lines r.args ++ (old.getD []).drop (lines r.args).length) := by
  rw [writefileSysMain, if_neg r.nonempty]
  simp only [write_write]
  rw [written_content]
  rfl

end Writers

/-! ## Result -/

/-- **The writers agree** if and only if the file had no more bytes than the text. -/
theorem writers_agree_iff (old : Option (List Byte)) (r : AppendRun) :
    WritersAgree old r ↔ ∀ bytes ∈ old, bytes.length ≤ (lines r.args).length := by
  have hsys : writefileSysMain old r.args = some (lines r.args) ↔ (old.getD []).length ≤ (lines r.args).length := by
    rw [writefileSysMain_eq, Option.some.injEq, List.append_right_eq_self, List.drop_eq_nil_iff]
  have hold : (old.getD []).length ≤ (lines r.args).length ↔ ∀ bytes ∈ old, bytes.length ≤ (lines r.args).length := by
    cases old with
    | none => simp
    | some bytes => simp
  constructor
  · intro h
    exact hold.1 (hsys.1 h.sys)
  · intro h
    exact ⟨fun flush => writefileMain_eq flush old r, fun flush => writefileFputsMain_eq flush old r, hsys.2 (hold.2 h)⟩

/-- the text `hi` -/
def writeHi : AppendRun := appendHi

/-- **The end of a longer file stays.** -/
theorem old_bytes_stay : writefileMain (fun _ => 0) (some [97, 98, 99, 100, 101]) writeHi.args = some [104, 105, 10] ∧
    writefileSysMain (some [97, 98, 99, 100, 101]) writeHi.args = some [104, 105, 10, 100, 101] ∧
    ¬ WritersAgree (some [97, 98, 99, 100, 101]) writeHi := by
  refine ⟨by decide, by decide, ?_⟩
  intro h
  exact absurd h.sys (by decide)

end Cse422.Records
