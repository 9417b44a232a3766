/-
The timed loop of `timed_parallel_dense_mm.c` with VERIFY_PARALLEL. It multiplies `iterations` times onto the same `C`,
and the reference `D` is computed once. Elements are rationals here, and the arithmetic is exact.

- `timed_apply`: `C` holds the product `iterations` times;
- `verified_iff`: no assertion fails if and only if there is one iteration or the product is zero;
- `second_iteration`: two iterations with two numbers.
-/
import Cse422.DenseMm.Programs

namespace Cse422.DenseMm

open Loops

/-! ## The program -/

/-- `C` after the timed loop -/
def timed (iterations matrixSize : ℕ) (A B C : ℕ → ℚ) : ℕ → ℚ :=
  forLoop iterations (fun C _ => columnFirst matrixSize A B C) (cleared matrixSize C)

/-- `D` after the loops under VERIFY_PARALLEL -/
def reference (matrixSize : ℕ) (A B D : ℕ → ℚ) : ℕ → ℚ := columnFirst matrixSize A B (cleared matrixSize D)

/-- each `assert( C[index] == D[index] )` holds -/
def Verified (iterations matrixSize : ℕ) (A B C D : ℕ → ℚ) : Prop :=
  ∀ index < squaredSize matrixSize, timed iterations matrixSize A B C index = reference matrixSize A B D index

/-! ## The product -/

/-- the matrix in an array -/
def matrix (n : ℕ) (A : ℕ → ℚ) : Matrix (Fin n) (Fin n) ℚ := Matrix.of fun row col => A (row * n + col)

variable {n iterations : ℕ} {A B : ℕ → ℚ}

theorem dotFrom_eq_add (n : ℕ) (A B : ℕ → ℚ) (row col : ℕ) (c : ℚ) (k : ℕ) :
    dotFrom n A B row col c k = c + ∑ index ∈ Finset.range k, A (row * n + index) * B (index * n + col) := by
  induction k with
  | zero => rw [dotFrom_zero, Finset.sum_range_zero, add_zero]
  | succ k ih => rw [dotFrom_succ, ih, Finset.sum_range_succ, add_assoc]

theorem mul_apply (n : ℕ) (A B : ℕ → ℚ) (row col : Fin n) :
    (matrix n A * matrix n B) row col = ∑ index ∈ Finset.range n, A (row * n + index) * B (index * n + col) := by
  rw [Matrix.mul_apply]
  exact Fin.sum_univ_eq_sum_range (fun index => A (row * n + index) * B (index * n + col)) n

/-- the element of the product at an index of the array -/
def entry (n : ℕ) (A B : ℕ → ℚ) (i : ℕ) : ℚ :=
  ∑ index ∈ Finset.range n, A (i / n * n + index) * B (index * n + i % n)

theorem timesOnto_apply {i : ℕ} (hi : i < n * n) (C : ℕ → ℚ) : timesOnto n A B C i = C i + entry n A B i := by
  rw [timesOnto, if_pos hi, dotFrom_eq_add]
  rfl

theorem timed_apply (hn : n * n < 2 ^ 32) {i : ℕ} (hi : i < n * n) (C : ℕ → ℚ) :
    timed iterations n A B C i = iterations * entry n A B i := by
  refine forLoop_rule (I := fun (k : ℕ) (C : ℕ → ℚ) => C i = k * entry n A B i) ?_ ?_
  · rw [cleared_apply hn, if_pos hi, Nat.cast_zero, zero_mul]
  · intro k C _ hI
    rw [timesOnto_columnFirst hn, timesOnto_apply hi, hI, Nat.cast_succ, add_mul, one_mul]

theorem reference_apply (hn : n * n < 2 ^ 32) {i : ℕ} (hi : i < n * n) (D : ℕ → ℚ) :
    reference n A B D i = entry n A B i := by
  rw [reference, timesOnto_columnFirst hn, timesOnto_apply hi, cleared_apply hn, if_pos hi, zero_add]

theorem product_eq_zero_iff : matrix n A * matrix n B = 0 ↔ ∀ i < n * n, entry n A B i = 0 := by
  constructor
  · intro h i hi
    have hpos : 0 < n := by
      rcases Nat.eq_zero_or_pos n with rfl | hpos
      · omega
      · exact hpos
    have hentry := mul_apply n A B ⟨i / n, (Nat.div_lt_iff_lt_mul hpos).2 hi⟩ ⟨i % n, Nat.mod_lt i hpos⟩
    rw [h] at hentry
    exact hentry.symm
  · intro h
    ext row col
    have hentry := h (row * n + col) (cell_lt row.isLt col.isLt)
    rw [entry, row_cell _ col.isLt, col_cell _ col.isLt] at hentry
    rw [mul_apply]
    exact hentry

/-! ## Result -/

/-- **The verification passes** if and only if the loop runs once or the product is the zero matrix. -/
theorem verified_iff (n iterations : ℕ) (A B C D : ℕ → ℚ) (hn : n * n < 2 ^ 32) (hiterations : 1 ≤ iterations) :
    Verified iterations n A B C D ↔ iterations = 1 ∨ matrix n A * matrix n B = 0 := by
  have hsize : squaredSize n = n * n := Nat.mod_eq_of_lt hn
  have hverified : Verified iterations n A B C D ↔ ∀ i < n * n, iterations = 1 ∨ entry n A B i = 0 := by
    rw [Verified, hsize]
    refine forall₂_congr fun i hi => ?_
    rw [timed_apply hn hi, reference_apply hn hi]
    constructor
    · intro heq
      have hprod : ((iterations : ℚ) - 1) * entry n A B i = 0 := by linarith
      rcases mul_eq_zero.1 hprod with hone | hzero
      · exact Or.inl (by exact_mod_cast sub_eq_zero.1 hone)
      · exact Or.inr hzero
    · rintro (rfl | hzero)
      · rw [Nat.cast_one, one_mul]
      · rw [hzero, mul_zero]
  rw [hverified, product_eq_zero_iff]
  constructor
  · intro h
    by_cases hone : iterations = 1
    · exact Or.inl hone
    · exact Or.inr fun i hi => (h i hi).resolve_left hone
  · rintro (hone | hzero) i hi
    · exact Or.inl hone
    · exact Or.inr (hzero i hi)

/-- the matrices with a one in the first row: `A` in its second column, and `B` in both -/
def secondOfRow (i : ℕ) : ℚ := if i = 1 then 1 else 0

def firstRow (i : ℕ) : ℚ := if i < 2 then 1 else 0

/-- one iteration with a product that is not zero, and three with one that is -/
theorem verified_both : Verified 1 2 (fun _ => 1) (fun _ => 1) (fun _ => 0) (fun _ => 0) ∧
    Verified 3 2 secondOfRow firstRow (fun _ => 5) fun _ => 7 := by
  have hzero : matrix 2 secondOfRow * matrix 2 firstRow = 0 := product_eq_zero_iff.2 (by decide +kernel)
  exact ⟨(verified_iff 2 1 _ _ _ _ (by norm_num) le_rfl).2 (Or.inl rfl),
    (verified_iff 2 3 _ _ _ _ (by norm_num) (by norm_num)).2 (Or.inr hzero)⟩

/-- **The second iteration.** The matrices are 1 and 1, `C` is 2 and `D` is 1. -/
theorem second_iteration : timed 2 1 (fun _ => 1) (fun _ => 1) (fun _ => 0) 0 = 2 ∧
    reference 1 (fun _ => 1) (fun _ => 1) (fun _ => 0) 0 = 1 ∧
    ¬ Verified 2 1 (fun _ => 1) (fun _ => 1) (fun _ => 0) fun _ => 0 := by
  have htimed : timed 2 1 (fun _ => 1) (fun _ => 1) (fun _ => 0) 0 = 2 := by decide +kernel
  have hreference : reference 1 (fun _ => 1) (fun _ => 1) (fun _ => 0) 0 = 1 := by decide +kernel
  refine ⟨htimed, hreference, ?_⟩
  intro h
  have heq := h 0 (by decide)
  rw [htimed, hreference] at heq
  norm_num at heq

end Cse422.DenseMm
