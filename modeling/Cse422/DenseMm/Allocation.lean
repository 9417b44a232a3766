/-
The allocation of `labs/lab2/user/dense_mm.c`. `main` refuses sizes above `sqrt_of_UINT32_MAX`, 65536, which is to keep
the arithmetic of the others within 32 bits. The square of 65536 does not fit, and from 23171 on the eight bytes of each
element make the request wrap.

- `covered_iff`: the three requests cover what the loops access if and only if the size is at most 23170;
- `wrapped_request`: the first size that does not fit.
-/
import Cse422.DenseMm.Programs

namespace Cse422.DenseMm

inductive Name where
  | A | B | C
  deriving DecidableEq, Repr

/-- what the loops of `main` access, in their order -/
def accesses (matrixSize : ℕ) : List (Name × ℕ) :=
  (List.range matrixSize).flatMap fun row => (List.range matrixSize).flatMap fun col =>
    (List.range matrixSize).flatMap fun index =>
      [(.A, cell matrixSize row index), (.B, cell matrixSize index col), (.C, cell matrixSize row col)]

theorem mem_accesses {n : ℕ} {a : Name × ℕ} : a ∈ accesses n ↔ ∃ row < n, ∃ col < n, ∃ index < n,
    a = (.A, cell n row index) ∨ a = (.B, cell n index col) ∨ a = (.C, cell n row col) := by
  simp only [accesses, List.mem_flatMap, List.mem_range, List.mem_cons, List.not_mem_nil, or_false]

/-- what `main` asks `mmap` for and what its loops access -/
structure Footprint where
  mmapped : Name → ℕ
  accesses : List (Name × ℕ)

def sqrtOfUINT32MAX : ℕ := 65536

/-- `main`; without a run when it exits with an error -/
def denseMm (matrixSize : ℕ) : Option Footprint :=
  if sqrtOfUINT32MAX < matrixSize then none else some ⟨fun _ => bytes matrixSize, accesses matrixSize⟩

/-- no product and no index wraps, and the elements that are accessed are within the bytes that each matrix has got -/
structure Covered (matrixSize : ℕ) (r : Footprint) : Prop where
  squared : squaredSize matrixSize = matrixSize * matrixSize
  request : ∀ m, r.mmapped m = 8 * squaredSize matrixSize
  indices : ∀ row col, row < matrixSize → col < matrixSize → cell matrixSize row col = row * matrixSize + col
  inside : ∀ a ∈ r.accesses, 8 * a.2 + 8 ≤ r.mmapped a.1

theorem bytes_eq {n : ℕ} (hn : 8 * (n * n) < 2 ^ 32) : squaredSize n = n * n ∧ bytes n = 8 * (n * n) := by
  have hsquared : squaredSize n = n * n := Nat.mod_eq_of_lt (by omega)
  refine ⟨hsquared, ?_⟩
  rw [bytes, hsquared, Nat.mod_eq_of_lt hn]

/-- the eight bytes of each element fit together up to 23170 -/
theorem square_fits_iff {n : ℕ} : 8 * (n * n) < 2 ^ 32 ↔ n ≤ 23170 := by
  constructor
  · intro h
    by_contra hlarge
    have hsquare : 23171 * 23171 ≤ n * n := Nat.mul_le_mul (not_le.1 hlarge) (not_le.1 hlarge)
    omega
  · intro h
    have hsquare : n * n ≤ 23170 * 23170 := Nat.mul_le_mul h h
    omega

theorem covered_of_fits {n : ℕ} (hn : 8 * (n * n) < 2 ^ 32) : Covered n ⟨fun _ => bytes n, accesses n⟩ := by
  obtain ⟨hsquared, hbytes⟩ := bytes_eq hn
  have hcell : ∀ row col, row < n → col < n → cell n row col = row * n + col :=
    fun row col hrow hcol => cell_eq (by omega) hrow hcol
  refine ⟨hsquared, fun _ => by rw [hbytes, hsquared], hcell, ?_⟩
  intro a ha
  have inside : ∀ row col, row < n → col < n → 8 * cell n row col + 8 ≤ bytes n := by
    intro row col hrow hcol
    have hlt := cell_lt hrow hcol
    rw [hcell row col hrow hcol, hbytes]
    omega
  obtain ⟨row, hrow, col, hcol, index, hindex, rfl | rfl | rfl⟩ := mem_accesses.1 ha
  · exact inside row index hrow hindex
  · exact inside index col hindex hcol
  · exact inside row col hrow hcol

/-- **The allocation covers the accesses** if and only if the size is at most 23170 or `main` refuses it. -/
theorem covered_iff (matrixSize : ℕ) :
    (∀ r, denseMm matrixSize = some r → Covered matrixSize r) ↔ matrixSize ≤ 23170 ∨ 65536 < matrixSize := by
  constructor
  · intro h
    rcases Nat.lt_or_ge 65536 matrixSize with hlarge | hsmall
    · exact Or.inr hlarge
    · have hc := h _ (if_neg (not_lt.2 hsmall))
      have hrequest : bytes matrixSize = 8 * (matrixSize * matrixSize) := hc.squared ▸ hc.request .A
      have hlt : bytes matrixSize < 2 ^ 32 := Nat.mod_lt _ (by norm_num)
      exact Or.inl (square_fits_iff.1 (hrequest ▸ hlt))
  · rintro hsize r hr
    unfold denseMm at hr
    split_ifs at hr with hlarge
    obtain rfl := Option.some.inj hr
    exact covered_of_fits (square_fits_iff.2 (hsize.resolve_right hlarge))

/-- **A request that has wrapped.** `main` asks for 194632 bytes, and the last element of a matrix is not in them. -/
theorem wrapped_request : ∃ r, denseMm 23171 = some r ∧ r.mmapped .C = 194632 ∧ (.C, 536895240) ∈ r.accesses ∧
    ¬ Covered 23171 r := by
  have hbytes : bytes 23171 = 194632 := by decide
  have hcell : cell 23171 23170 23170 = 536895240 := by norm_num [cell]
  have hmem : (.C, 536895240) ∈ accesses 23171 :=
    mem_accesses.2 ⟨23170, by norm_num, 23170, by norm_num, 0, by norm_num, Or.inr (Or.inr (by rw [hcell]))⟩
  have hrun : denseMm 23171 = some ⟨fun _ => bytes 23171, accesses 23171⟩ := if_neg (by norm_num [sqrtOfUINT32MAX])
  -- the list is too long to be looked into
  generalize accesses 23171 = l at hmem hrun
  refine ⟨_, hrun, hbytes, hmem, ?_⟩
  intro h
  have hinside := h.inside _ hmem
  rw [hbytes] at hinside
  norm_num at hinside

end Cse422.DenseMm
