/-
The matrix programs: `labs/lab2/user/dense_mm.c`, and `dense_mm.c`, `parallel_dense_mm.c` and `timed_parallel_dense_mm.c`
of `user_space/test_programs`. They share the check of the size, the size of the matrices and the statement in the
innermost loop; the loops around it are by rows in the first two and by columns in the others.

Elements are of any type with an addition and a multiplication, so that a statement about them holds for `double` with
whatever rounding. An array is what is at each index. `unsigned` is 32 bits, and so is `size_t` on the board; loop counters
stay below `matrix_size` and do not wrap. `gettimeofday`, the text that is printed and the numbers that `rand` generates
are left out.

Premises: `malloc` or `mmap` has returned memory for every index that the loops go to (`DenseMm.Allocation` is about
this), and the three matrices do not overlap.

- `timesOnto_rowFirst`, `timesOnto_columnFirst`: what both orders of the loops compute, in closed form.
-/
import Cse422.Core.Loops

namespace Cse422.DenseMm

open Loops

/-! ## Sizes and indices -/

def squaredSize (matrixSize : ℕ) : ℕ := matrixSize * matrixSize % 2 ^ 32

/-- `sizeof(double) * squared_size`, in `size_t` -/
def bytes (matrixSize : ℕ) : ℕ := 8 * squaredSize matrixSize % 2 ^ 32

/-- the index `row*matrix_size + col` -/
def cell (matrixSize row col : ℕ) : ℕ := (row * matrixSize % 2 ^ 32 + col) % 2 ^ 32

/-! ## The loops -/

section Loops

variable {α : Type*} [Add α] [Mul α]

/-- `C[row*matrix_size + col] += A[row*matrix_size + index] *B[index*matrix_size + col];` -/
def accumulate (matrixSize : ℕ) (A B C : ℕ → α) (row col index : ℕ) : ℕ → α :=
  Function.update C (cell matrixSize row col)
    (C (cell matrixSize row col) + A (cell matrixSize row index) * B (cell matrixSize index col))

/-- the loops of the two `dense_mm.c` -/
def rowFirst (matrixSize : ℕ) (A B C : ℕ → α) : ℕ → α :=
  forLoop matrixSize (fun C row => forLoop matrixSize (fun C col => forLoop matrixSize (fun C index =>
    accumulate matrixSize A B C row col index) C) C) C

/-- the loops of the other two programs, in one thread -/
def columnFirst (matrixSize : ℕ) (A B C : ℕ → α) : ℕ → α :=
  forLoop matrixSize (fun C col => forLoop matrixSize (fun C row => forLoop matrixSize (fun C index =>
    accumulate matrixSize A B C row col index) C) C) C

/-! ## In closed form -/

/-- the sum from `c` on, over the first `k` indices and in their order -/
def dotFrom (n : ℕ) (A B : ℕ → α) (row col : ℕ) (c : α) (k : ℕ) : α :=
  forLoop k (fun c index => c + A (row * n + index) * B (index * n + col)) c

/-- each element of the product has been added onto what was there -/
def timesOnto (n : ℕ) (A B C : ℕ → α) : ℕ → α :=
  fun i => if i < n * n then dotFrom n A B (i / n) (i % n) (C i) n else C i

variable {n : ℕ} {A B C : ℕ → α}

theorem cell_lt {row col : ℕ} (hrow : row < n) (hcol : col < n) : row * n + col < n * n := by
  calc row * n + col < row * n + n := Nat.add_lt_add_left hcol _
    _ = (row + 1) * n := (Nat.succ_mul row n).symm
    _ ≤ n * n := Nat.mul_le_mul_right n hrow

theorem cell_eq (hn : n * n < 2 ^ 32) {row col : ℕ} (hrow : row < n) (hcol : col < n) : cell n row col = row * n + col := by
  have hlt := cell_lt hrow hcol
  rw [cell, Nat.mod_eq_of_lt (by omega), Nat.mod_eq_of_lt (by omega)]

theorem row_cell (row : ℕ) {col : ℕ} (hcol : col < n) : (row * n + col) / n = row := by
  rw [Nat.add_comm, Nat.add_mul_div_right _ _ (Nat.zero_lt_of_lt hcol), Nat.div_eq_of_lt hcol, Nat.zero_add]

theorem col_cell (row : ℕ) {col : ℕ} (hcol : col < n) : (row * n + col) % n = col := by
  rw [Nat.add_comm, Nat.add_mul_mod_self_right, Nat.mod_eq_of_lt hcol]

/-- an index belongs to one row and one column -/
theorem eq_cell_iff {row col i : ℕ} (hcol : col < n) : i = row * n + col ↔ i / n = row ∧ i % n = col := by
  constructor
  · rintro rfl
    exact ⟨row_cell row hcol, col_cell row hcol⟩
  · rintro ⟨rfl, rfl⟩
    exact (Nat.div_add_mod' i n).symm

theorem dotFrom_zero (row col : ℕ) (c : α) : dotFrom n A B row col c 0 = c := rfl

theorem dotFrom_succ (row col : ℕ) (c : α) (k : ℕ) :
    dotFrom n A B row col c (k + 1) = dotFrom n A B row col c k + A (row * n + k) * B (k * n + col) := forLoop_succ _ _ _

/-- one turn of the innermost loop -/
theorem accumulate_apply (hn : n * n < 2 ^ 32) {row col index : ℕ} (hrow : row < n) (hcol : col < n) (hindex : index < n)
    (i : ℕ) : accumulate n A B C row col index i =
      if i / n = row ∧ i % n = col then C i + A (row * n + index) * B (index * n + col) else C i := by
  rw [accumulate, cell_eq hn hrow hcol, cell_eq hn hrow hindex, cell_eq hn hindex hcol, Function.update_apply]
  by_cases hi : i = row * n + col
  · rw [if_pos hi, if_pos ((eq_cell_iff hcol).1 hi), hi]
  · rw [if_neg hi, if_neg (fun h => hi ((eq_cell_iff hcol).2 h))]

/-- the innermost loop adds to one element -/
theorem inner_apply (hn : n * n < 2 ^ 32) {row col : ℕ} (hrow : row < n) (hcol : col < n) (i : ℕ) :
    forLoop n (fun C index => accumulate n A B C row col index) C i =
      if i / n = row ∧ i % n = col then dotFrom n A B row col (C i) n else C i := by
  refine forLoop_rule (I := fun (k : ℕ) (C' : ℕ → α) => C' i = if i / n = row ∧ i % n = col then dotFrom n A B row col (C i) k else C i)
    ?_ ?_
  · rw [dotFrom_zero, ite_self]
  · intro k C' hk hI
    rw [accumulate_apply hn hrow hcol hk, hI]
    split_ifs
    · rw [dotFrom_succ]
    · rfl

/-- the elements of `D` are done -/
structure Partly (n : ℕ) (A B : ℕ → α) (D : ℕ → Prop) (C C' : ℕ → α) : Prop where
  added : ∀ i, D i → C' i = dotFrom n A B (i / n) (i % n) (C i) n
  rest : ∀ i, ¬ D i → C' i = C i

theorem Partly.inner {D D' : ℕ → Prop} {C' : ℕ → α} (hn : n * n < 2 ^ 32) {row col : ℕ} (hrow : row < n) (hcol : col < n)
    (h : Partly n A B D C C') (hnew : ∀ i, i / n = row → i % n = col → ¬ D i)
    (hD' : ∀ i, D' i ↔ D i ∨ (i / n = row ∧ i % n = col)) :
    Partly n A B D' C (forLoop n (fun C index => accumulate n A B C row col index) C') where
  added i hi := by
    rw [inner_apply hn hrow hcol]
    split_ifs with hcell
    · rw [h.rest i (hnew i hcell.1 hcell.2), hcell.1, hcell.2]
    · exact h.added i (((hD' i).1 hi).resolve_right hcell)
  rest i hi := by
    rw [hD', not_or] at hi
    rw [inner_apply hn hrow hcol, if_neg hi.2]
    exact h.rest i hi.1

theorem Partly.congr {D D' : ℕ → Prop} {C' : ℕ → α} (h : Partly n A B D C C') (hD : ∀ i, D' i ↔ D i) :
    Partly n A B D' C C' :=
  ⟨fun i hi => h.added i ((hD i).1 hi), fun i hi => h.rest i fun hi' => hi ((hD i).2 hi')⟩

theorem Partly.all {D : ℕ → Prop} {C' : ℕ → α} (h : Partly n A B D C C') (hD : ∀ i, i < n * n ↔ D i) :
    C' = timesOnto n A B C := by
  funext i
  unfold timesOnto
  split_ifs with hi
  · exact h.added i ((hD i).1 hi)
  · exact h.rest i fun hi' => hi ((hD i).2 hi')

theorem timesOnto_rowFirst (hn : n * n < 2 ^ 32) (A B C : ℕ → α) : rowFirst n A B C = timesOnto n A B C := by
  have hrows : Partly n A B (fun i => i / n < n) C (rowFirst n A B C) := by
    refine forLoop_rule (I := fun row C' => Partly n A B (fun i => i / n < row) C C') ?_ ?_
    · exact ⟨fun i hi => absurd hi (Nat.not_lt_zero _), fun _ _ => rfl⟩
    · intro row C' hrow hI
      have hcols : Partly n A B (fun i => i / n < row ∨ (i / n = row ∧ i % n < n)) C (forLoop n (fun C col =>
          forLoop n (fun C index => accumulate n A B C row col index) C) C') := by
        refine forLoop_rule (I := fun col C' => Partly n A B (fun i => i / n < row ∨ (i / n = row ∧ i % n < col)) C C')
          (hI.congr ?_) ?_
        · intro i
          simp
        · intro col C' hcol hI
          refine hI.inner hn hrow hcol ?_ ?_
          · intro i hi hi'
            omega
          · intro i
            omega
      refine hcols.congr ?_
      intro i
      have hmod := Nat.mod_lt i (Nat.zero_lt_of_lt hrow)
      omega
  refine hrows.all ?_
  intro i
  rcases Nat.eq_zero_or_pos n with rfl | hpos
  · simp
  · exact (Nat.div_lt_iff_lt_mul hpos).symm

theorem timesOnto_columnFirst (hn : n * n < 2 ^ 32) (A B C : ℕ → α) : columnFirst n A B C = timesOnto n A B C := by
  have hcols : Partly n A B (fun i => i / n < n ∧ i % n < n) C (columnFirst n A B C) := by
    refine forLoop_rule (I := fun col C' => Partly n A B (fun i => i / n < n ∧ i % n < col) C C') ?_ ?_
    · exact ⟨fun i hi => absurd hi.2 (Nat.not_lt_zero _), fun _ _ => rfl⟩
    · intro col C' hcol hI
      have hrows : Partly n A B (fun i => i / n < n ∧ (i % n < col ∨ (i % n = col ∧ i / n < n))) C (forLoop n (fun C row =>
          forLoop n (fun C index => accumulate n A B C row col index) C) C') := by
        refine forLoop_rule (I := fun row C' => Partly n A B (fun i => i / n < n ∧
          (i % n < col ∨ (i % n = col ∧ i / n < row))) C C') (hI.congr ?_) ?_
        · intro i
          simp
        · intro row C' hrow hI
          refine hI.inner hn hrow hcol ?_ ?_
          · intro i hi hi'
            omega
          · intro i
            omega
      refine hrows.congr ?_
      intro i
      omega
  refine hcols.all ?_
  intro i
  rcases Nat.eq_zero_or_pos n with rfl | hpos
  · simp
  · have hmod := Nat.mod_lt i hpos
    rw [← Nat.div_lt_iff_lt_mul hpos]
    exact ⟨fun hi => ⟨hi, hmod⟩, fun hi => hi.1⟩

end Loops

/-! ## The generated matrices -/

section Clearing

variable {α : Type*} [Zero α]

/-- `C[index] = 0.0` for the elements of the matrix -/
def cleared (matrixSize : ℕ) (C : ℕ → α) : ℕ → α :=
  forLoop (squaredSize matrixSize) (fun C index => Function.update C index 0) C

theorem cleared_apply {n : ℕ} (hn : n * n < 2 ^ 32) (C : ℕ → α) (i : ℕ) : cleared n C i = if i < n * n then 0 else C i := by
  have hsize : squaredSize n = n * n := Nat.mod_eq_of_lt hn
  rw [cleared, hsize]
  refine forLoop_rule (I := fun (k : ℕ) (C' : ℕ → α) => C' i = if i < k then 0 else C i) ?_ ?_
  · rw [if_neg (Nat.not_lt_zero i)]
  · intro k C' _ hI
    rw [Function.update_apply, hI]
    rcases lt_trichotomy i k with hik | rfl | hik
    · rw [if_neg hik.ne, if_pos hik, if_pos (hik.trans (Nat.lt_succ_self k))]
    · rw [if_pos rfl, if_pos (Nat.lt_succ_self i)]
    · rw [if_neg hik.ne', if_neg (not_lt.2 hik.le), if_neg (by omega)]

end Clearing

end Cse422.DenseMm
