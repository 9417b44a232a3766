/-
`my_get_order` of `studios/studio12/kernel_memory.c`, for words of any width: how often the value, or one less for a
power of two, can be shifted right before it is zero.

- `shiftLoop_eq`: the loop ends, and counts the binary digits;
- `le_two_pow_myGetOrder`, `myGetOrder_le`: so many doublings reach the value, and no fewer;
- `myGetOrder_exact`: the ceiling of the binary logarithm, with what follows from it.
-/
import Mathlib.Data.Nat.Size
import Mathlib.Tactic

namespace Cse422.KernelMemory

variable {w : ℕ}

/-- `while (value > 0)`, at most `fuel` times -/
def shiftLoop : ℕ → BitVec w → ℕ → Option ℕ
  | 0, value, shifts => if 0 < value then none else some shifts
  | fuel + 1, value, shifts => if 0 < value then shiftLoop fuel (value >>> 1) (shifts + 1) else some shifts

/-- `my_get_order`; a word has no more binary digits than its width, so the loop ends within as many turns -/
def myGetOrder (value : BitVec w) : ℕ :=
  if value = 0 then 0
  else if value &&& (value - 1) = 0 then (shiftLoop w (value - 1) 0).getD 0
  else (shiftLoop w value 0).getD 0

theorem size_half {n : ℕ} (h : 0 < n) : Nat.size n = Nat.size (n / 2) + 1 := by
  conv_lhs => rw [← Nat.bit_bodd_div2 n]
  rw [Nat.size_bit (by rw [Nat.bit_bodd_div2]; omega), Nat.div2_val]

theorem shiftLoop_eq (fuel : ℕ) (value : BitVec w) (shifts : ℕ) (h : Nat.size value.toNat ≤ fuel) :
    shiftLoop fuel value shifts = some (shifts + Nat.size value.toNat) := by
  have hpos : 0 < value ↔ 0 < value.toNat := BitVec.lt_def
  induction fuel generalizing value shifts with
  | zero =>
    have h0 : value.toNat = 0 := Nat.size_eq_zero.1 (Nat.le_zero.1 h)
    rw [shiftLoop, if_neg (by rw [hpos]; omega), h0]
    rfl
  | succ fuel ih =>
    rw [shiftLoop]
    split_ifs with hv
    · have hsize := size_half (hpos.1 hv)
      have hshift : (value >>> 1).toNat = value.toNat / 2 := by
        rw [BitVec.toNat_ushiftRight, Nat.shiftRight_eq_div_pow, pow_one]
      rw [ih (value >>> 1) (shifts + 1) (by rw [hshift]; omega) BitVec.lt_def, hshift, hsize]
      congr 1
      omega
    · have h0 : value.toNat = 0 := by
        rw [hpos] at hv
        omega
      rw [h0]
      rfl

theorem shiftLoop_width (value : BitVec w) : shiftLoop w value 0 = some (Nat.size value.toNat) := by
  rw [shiftLoop_eq w value 0 (Nat.size_le.2 value.isLt), Nat.zero_add]

theorem toNat_sub_one {value : BitVec w} (h : value ≠ 0) : (value - 1).toNat = value.toNat - 1 := by
  have hpos : value.toNat ≠ 0 := fun h0 => h (BitVec.eq_of_toNat_eq h0)
  have hw := value.isLt
  have hwidth : 0 < w := by
    by_contra hzero
    obtain rfl := Nat.eq_zero_of_not_pos hzero
    omega
  have hone : (1 : BitVec w).toNat = 1 := BitVec.toNat_one hwidth
  rw [BitVec.toNat_sub_of_le (by rw [BitVec.le_def, hone]; omega), hone]

theorem le_two_pow_myGetOrder (value : BitVec w) : value.toNat ≤ 2 ^ myGetOrder value := by
  unfold myGetOrder
  split_ifs with h0 hpow
  · simp [h0]
  · have hlt := Nat.lt_size_self (value - 1).toNat
    rw [toNat_sub_one h0] at hlt
    rw [shiftLoop_width, Option.getD_some, toNat_sub_one h0]
    omega
  · rw [shiftLoop_width, Option.getD_some]
    exact (Nat.lt_size_self value.toNat).le

/-- a power of two passes the test of `my_get_order` -/
theorem and_sub_one_of_two_pow {value : BitVec w} {k : ℕ} (h : value.toNat = 2 ^ k) : value &&& (value - 1) = 0 := by
  have hne : value ≠ 0 := by
    intro h0
    rw [h0] at h
    exact absurd h (Nat.two_pow_pos k).ne
  apply BitVec.eq_of_toNat_eq
  rw [BitVec.toNat_and, toNat_sub_one hne, h, Nat.and_two_pow_sub_one_eq_mod, Nat.mod_self]
  rfl

theorem myGetOrder_le {value : BitVec w} {k : ℕ} (h : value.toNat ≤ 2 ^ k) : myGetOrder value ≤ k := by
  unfold myGetOrder
  split_ifs with h0 hpow
  · exact Nat.zero_le k
  · have hpos : value.toNat ≠ 0 := fun hz => h0 (BitVec.eq_of_toNat_eq hz)
    rw [shiftLoop_width, Option.getD_some, toNat_sub_one h0]
    apply Nat.size_le.2
    omega
  · have hne : value.toNat ≠ 2 ^ k := fun hk => hpow (and_sub_one_of_two_pow hk)
    rw [shiftLoop_width, Option.getD_some]
    exact Nat.size_le.2 (lt_of_le_of_ne h hne)

/-! ## The ceiling logarithm -/

/-- the loop is entered with the value, or with one less for a power of two, and ends -/
theorem shiftLoop_myGetOrder {value : BitVec w} (h0 : value ≠ 0) :
    shiftLoop w (if value &&& (value - 1) = 0 then value - 1 else value) 0 = some (myGetOrder value) := by
  unfold myGetOrder
  rw [if_neg h0]
  split_ifs
  · rw [shiftLoop_width, Option.getD_some]
  · rw [shiftLoop_width, Option.getD_some]

theorem two_pow_lt {value : BitVec w} {k : ℕ} (h : k < myGetOrder value) : 2 ^ k < value.toNat := by
  by_contra hle
  exact absurd (myGetOrder_le (not_lt.1 hle)) (not_le.2 h)

theorem myGetOrder_mono {u v : BitVec w} (h : u ≤ v) : myGetOrder u ≤ myGetOrder v :=
  myGetOrder_le ((BitVec.le_def.1 h).trans (le_two_pow_myGetOrder v))

theorem myGetOrder_two_pow {k : ℕ} (hk : k < w) : myGetOrder (BitVec.ofNat w (2 ^ k)) = k := by
  have htoNat : (BitVec.ofNat w (2 ^ k)).toNat = 2 ^ k := by
    rw [BitVec.toNat_ofNat, Nat.mod_eq_of_lt (Nat.pow_lt_pow_right one_lt_two hk)]
  apply le_antisymm
  · exact myGetOrder_le htoNat.le
  · apply (Nat.pow_le_pow_iff_right one_lt_two).1
    calc 2 ^ k = (BitVec.ofNat w (2 ^ k)).toNat := htoNat.symm
      _ ≤ 2 ^ myGetOrder (BitVec.ofNat w (2 ^ k)) := le_two_pow_myGetOrder _

/-- **`my_get_order` is the ceiling of the binary logarithm**, for words of every width. -/
theorem myGetOrder_exact (w : ℕ) :
    (∀ value : BitVec w, value ≠ 0 →
      shiftLoop w (if value &&& (value - 1) = 0 then value - 1 else value) 0 = some (myGetOrder value) ∧
      value.toNat ≤ 2 ^ myGetOrder value ∧ (0 < myGetOrder value → 2 ^ (myGetOrder value - 1) < value.toNat)) ∧
    (∀ u v : BitVec w, u ≤ v → myGetOrder u ≤ myGetOrder v) ∧
    ∀ k < w, myGetOrder (BitVec.ofNat w (2 ^ k)) = k := by
  refine ⟨?_, fun _ _ => myGetOrder_mono, fun _ => myGetOrder_two_pow⟩
  intro value h0
  refine ⟨shiftLoop_myGetOrder h0, le_two_pow_myGetOrder value, ?_⟩
  intro hpos
  apply two_pow_lt
  omega

/-- one more than a power of two -/
theorem myGetOrder_exact_nine : (9 : BitVec 32).toNat ≤ 2 ^ myGetOrder (9 : BitVec 32) ∧
    (0 < myGetOrder (9 : BitVec 32) → 2 ^ (myGetOrder (9 : BitVec 32) - 1) < (9 : BitVec 32).toNat) :=
  ((myGetOrder_exact 32).1 9 (by decide)).2

end Cse422.KernelMemory
