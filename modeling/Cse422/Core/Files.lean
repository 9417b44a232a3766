/-
Files as their bytes, with an offset, and buffered streams over them. Library: nothing here is about one program.

`OpenFile.write` writes at the offset. A `Stdio` stream keeps bytes back and hands them on when it likes: a schedule
`flush` says how many of the buffered bytes it writes out in each call. `close` writes out the rest.

- `write_write`, `foldl_write`: writes one after the other are one write;
- `close_put`: a stream that is closed in the end has written what it was given, whatever the schedule;
- `content_write_start`: a write from the start of a file leaves what the file had beyond it.
-/
import Mathlib.Tactic

namespace Files

variable {β γ : Type*}

@[ext] structure OpenFile (β : Type*) where
  content : List β
  /-- where the next write goes -/
  offset : ℕ
  offset_le : offset ≤ content.length

/-- `open` with O_CREAT, for writing; `old` is what the file had, if it was there -/
def openFile (trunc : Bool) (old : Option (List β)) : OpenFile β :=
  ⟨if trunc then [] else old.getD [], 0, Nat.zero_le _⟩

/-- `write`, with all bytes transferred -/
def OpenFile.write (f : OpenFile β) (bs : List β) : OpenFile β where
  content := f.content.take f.offset ++ bs ++ f.content.drop (f.offset + bs.length)
  offset := f.offset + bs.length
  offset_le := by
    have hle := f.offset_le
    simp only [List.length_append, List.length_take, Nat.min_eq_left hle]
    exact Nat.le_add_right _ _

variable (f : OpenFile β)

theorem write_content (bs : List β) : (f.write bs).content =
    f.content.take f.offset ++ bs ++ f.content.drop (f.offset + bs.length) := rfl

@[simp] theorem write_offset (bs : List β) : (f.write bs).offset = f.offset + bs.length := rfl

@[simp] theorem write_nil : f.write [] = f := by
  ext1
  · simp [OpenFile.write]
  · rfl

theorem write_write (a b : List β) : (f.write a).write b = f.write (a ++ b) := by
  have hlen : (f.content.take f.offset ++ a).length = f.offset + a.length := by
    rw [List.length_append, List.length_take, Nat.min_eq_left f.offset_le]
  ext1
  · have htake : (f.write a).content.take (f.offset + a.length) = f.content.take f.offset ++ a := by
      rw [← hlen]
      exact List.take_left
    have hdrop : (f.write a).content.drop (f.offset + a.length + b.length) =
        f.content.drop (f.offset + (a ++ b).length) := by
      have hbeyond : f.offset + a.length + b.length = (f.content.take f.offset ++ a).length + b.length := by rw [hlen]
      rw [write_content, hbeyond, List.drop_length_add_append, List.drop_drop, List.length_append, Nat.add_assoc]
    calc ((f.write a).write b).content
        = (f.write a).content.take (f.offset + a.length) ++ b ++
            (f.write a).content.drop (f.offset + a.length + b.length) := rfl
      _ = (f.write (a ++ b)).content := by
          rw [htake, hdrop, write_content, List.append_assoc (List.take _ _) a b]
  · simp [Nat.add_assoc]

theorem foldl_write (g : γ → List β) (l : List γ) :
    l.foldl (fun f c => f.write (g c)) f = f.write (l.map g).flatten := by
  induction l generalizing f with
  | nil => exact (write_nil f).symm
  | cons c l ih => rw [List.foldl_cons, ih, write_write, List.map_cons, List.flatten_cons]

theorem content_write_start (trunc : Bool) (old : Option (List β)) (bs : List β) :
    ((openFile trunc old).write bs).content = bs ++ (openFile trunc old).content.drop bs.length := by
  simp [OpenFile.write, openFile]

/-! ## Buffered streams -/

structure Stdio (β : Type*) where
  file : OpenFile β
  buffer : List β
  calls : ℕ

/-- `fopen` with mode "w" -/
def fopenW (old : Option (List β)) : Stdio β := ⟨openFile true old, [], 0⟩

/-- bytes for the stream, which then writes out as many of its bytes as the schedule says -/
def Stdio.put (flush : ℕ → ℕ) (f : Stdio β) (bs : List β) : Stdio β where
  file := f.file.write ((f.buffer ++ bs).take (flush f.calls))
  buffer := (f.buffer ++ bs).drop (flush f.calls)
  calls := f.calls + 1

/-- `fclose` -/
def Stdio.close (f : Stdio β) : OpenFile β := f.file.write f.buffer

/-- **Buffering does not show.** -/
theorem close_put (flush : ℕ → ℕ) (f : Stdio β) (bs : List β) : (f.put flush bs).close = f.close.write bs := by
  calc (f.put flush bs).close
      = f.file.write ((f.buffer ++ bs).take (flush f.calls) ++ (f.buffer ++ bs).drop (flush f.calls)) := write_write _ _ _
    _ = f.file.write (f.buffer ++ bs) := by rw [List.take_append_drop]
    _ = f.close.write bs := (write_write _ _ _).symm

end Files
