/-
What an exchange of `swap` does to the values of the array. The temporary is `unsigned`, so the first operand loses its
fraction. The sum of the array measures this: it never grows, and as long as it stays, every call of `swap` has been an
exchange of two elements.

- `swap_A`: an exchange, and then the temporary;
- `swap_lossy`: the sum never grows;
- `swap_exact`: when the sum stays, the first operand was whole.
-/
import Cse422.Core.Segments
import Cse422.Sort.Recursion

namespace Cse422.Sort

open Segments

/-! ## Values -/

/-- a double whose conversion to `unsigned` is defined, and which is not negative -/
def Fits (d : Double) : Prop := ∃ q : ℚ, d = .finite q ∧ 0 ≤ q ∧ q < 2 ^ 32

/-- an `unsigned`, as a double -/
def Whole (d : Double) : Prop := ∃ n : ℕ, d = .ofNat n ∧ n < 2 ^ 32

def Double.toRat : Double → ℚ
  | .finite q => q
  | _ => 0

theorem Whole.fits {d : Double} (h : Whole d) : Fits d := by
  obtain ⟨n, rfl, hn⟩ := h
  exact ⟨n, rfl, Nat.cast_nonneg n, by exact_mod_cast hn⟩

theorem Double.le_trans (a b c : Double) (hab : a.le b = true) (hbc : b.le c = true) : a.le c = true := by
  rcases a with _ | ⟨_ | _⟩ | q <;> rcases b with _ | ⟨_ | _⟩ | q' <;> rcases c with _ | ⟨_ | _⟩ | q'' <;>
    simp_all [Double.le]
  exact hab.trans hbc

/-- finite doubles are in one order or the other -/
theorem le_of_not_le {a b : Double} (ha : Fits a) (hb : Fits b) (h : a.le b = false) : b.le a = true := by
  obtain ⟨q, rfl, -⟩ := ha
  obtain ⟨q', rfl, -⟩ := hb
  simp only [Double.le, decide_eq_false_iff_not, decide_eq_true_eq] at h ⊢
  exact (not_le.1 h).le

section Unsigned

variable {E : Env} {d : Double}

theorem toUnsigned_ofNat {n : ℕ} (hn : n < 2 ^ 32) : E.toUnsigned (.ofNat n) = n := by
  have hlt : (n : ℚ) < 2 ^ 32 := by exact_mod_cast hn
  have hpos : (-1 : ℚ) < n := by linarith [(Nat.cast_nonneg n : (0 : ℚ) ≤ n)]
  rw [Double.ofNat, Env.toUnsigned, if_pos ⟨hpos, hlt⟩]
  exact (Int.floor_toNat (n : ℚ)).trans (Nat.floor_natCast n)

theorem toUnsigned_finite {q : ℚ} (h0 : 0 ≤ q) (hq : q < 2 ^ 32) : E.toUnsigned (.finite q) = ⌊q⌋₊ := by
  rw [Env.toUnsigned, if_pos ⟨by linarith, hq⟩]
  exact Int.floor_toNat q

theorem toUnsigned_lt (E : Env) (d : Double) : E.toUnsigned d < 2 ^ 32 := by
  have hmod : ∀ n, n % 2 ^ 32 < 2 ^ 32 := fun n => Nat.mod_lt n (by norm_num)
  cases d with
  | nan => exact hmod _
  | infinity neg => exact hmod _
  | finite q =>
    rw [Env.toUnsigned]
    split_ifs with h
    · rw [show q.floor.toNat = ⌊q⌋₊ from Int.floor_toNat q]
      rcases le_or_gt 0 q with h0 | h0
      · exact (Nat.floor_lt h0).2 (by exact_mod_cast h.2)
      · rw [Nat.floor_of_nonpos h0.le]
        norm_num
    · exact hmod _

theorem whole_toUnsigned (E : Env) (d : Double) : Whole (.ofNat (E.toUnsigned d)) := ⟨_, rfl, toUnsigned_lt E d⟩

/-- the conversion drops a fraction, and nothing of a whole number -/
theorem toUnsigned_le (h : Fits d) :
    (E.toUnsigned d : ℚ) ≤ d.toRat ∧ ((E.toUnsigned d : ℚ) = d.toRat → Whole d) := by
  obtain ⟨q, rfl, h0, hq⟩ := h
  rw [toUnsigned_finite h0 hq]
  refine ⟨Nat.floor_le h0, ?_⟩
  intro heq
  have hfloor : q = (⌊q⌋₊ : ℕ) := heq.symm
  refine ⟨⌊q⌋₊, congrArg Double.finite hfloor, ?_⟩
  exact (Nat.floor_lt h0).2 (by exact_mod_cast hq)

theorem ofNat_toUnsigned (h : Whole d) : Double.ofNat (E.toUnsigned d) = d := by
  obtain ⟨n, rfl, hn⟩ := h
  rw [toUnsigned_ofNat hn]

end Unsigned

/-! ## The sum of an array -/

/-- the sum of the first `n` elements -/
def total (n : ℕ) (A : ℕ → Double) : ℚ := ((values (Finset.range n) A).map Double.toRat).sum

variable {n : ℕ} {A B C : ℕ → Double}

theorem total_eq_sum (n : ℕ) (A : ℕ → Double) : total n A = ∑ i ∈ Finset.range n, (A i).toRat := by
  rw [total, values, Multiset.map_map]
  rfl

theorem rearranged_values {lo hi : ℕ} (h : Rearranged lo hi A B) (hhi : hi < n) :
    values (Finset.range n) B = values (Finset.range n) A := by
  apply h.values
  intro i hi
  rw [Finset.mem_Icc] at hi
  exact Finset.mem_range.2 (hi.2.trans_lt hhi)

theorem rearranged_total {lo hi : ℕ} (h : Rearranged lo hi A B) (hhi : hi < n) : total n B = total n A := by
  rw [total, rearranged_values h hhi, total]

theorem total_update {b : ℕ} (hb : b < n) (d : Double) :
    total n (Function.update A b d) = total n A + (d.toRat - (A b).toRat) := by
  have hmem : b ∈ Finset.range n := Finset.mem_range.2 hb
  have hcomp : ∀ i, (Function.update A b d i).toRat = Function.update (fun i => (A i).toRat) b d.toRat i := by
    intro i
    exact Function.apply_update (fun _ => Double.toRat) A b d i
  have hsplit := Finset.sum_eq_add_sum_sdiff_singleton_of_mem hmem fun i => (A i).toRat
  calc total n (Function.update A b d) = ∑ i ∈ Finset.range n, Function.update (fun i => (A i).toRat) b d.toRat i := by
        rw [total_eq_sum]
        exact Finset.sum_congr rfl fun i _ => hcomp i
    _ = d.toRat + ∑ i ∈ Finset.range n \ {b}, (A i).toRat := Finset.sum_update_of_mem hmem _ _
    _ = total n A + (d.toRat - (A b).toRat) := by
        rw [total_eq_sum, hsplit]
        ring

/-- `B` holds doubles again, and together not more than `A` -/
structure Lossy (n : ℕ) (A B : ℕ → Double) : Prop where
  fits : ∀ i < n, Fits (B i)
  total_le : total n B ≤ total n A

theorem Lossy.refl (h : ∀ i < n, Fits (A i)) : Lossy n A A := ⟨h, le_rfl⟩

theorem Lossy.trans (h : Lossy n A B) (h' : Lossy n B C) : Lossy n A C := ⟨h'.fits, h'.total_le.trans h.total_le⟩

/-- nothing is lost in the parts of what loses nothing -/
theorem Lossy.exact (h : Lossy n A B) (h' : Lossy n B C) (heq : total n C = total n A) :
    total n B = total n A ∧ total n C = total n B := by
  have hle := h.total_le
  have hle' := h'.total_le
  constructor
  · linarith
  · linarith

/-! ## `swap` -/

section Swap

variable {E : Env} {s : St} {a b : ℕ}

theorem swap_A (E : Env) (s : St) (a b : ℕ) :
    (swap E s a b).A = Function.update (s.A ∘ Equiv.swap a b) b (.ofNat (E.toUnsigned (s.A a))) := by
  funext i
  simp only [swap, St.store, St.read]
  rcases eq_or_ne i b with rfl | hib
  · rw [Function.update_self, Function.update_self]
  · rw [Function.update_of_ne hib, Function.update_of_ne hib]
    rcases eq_or_ne i a with rfl | hia
    · rw [Function.update_self, Function.comp_apply, Equiv.swap_apply_left]
    · rw [Function.update_of_ne hia, Function.comp_apply, Equiv.swap_apply_of_ne_of_ne hia hib]

theorem swap_of_whole (ha : Whole (s.A a)) : (swap E s a b).A = s.A ∘ Equiv.swap a b := by
  rw [swap_A, ofNat_toUnsigned ha, Function.update_eq_self_iff, Function.comp_apply, Equiv.swap_apply_right]

/-- the pivot is in the last position, whatever it was -/
theorem swap_A_right (E : Env) (s : St) (a b : ℕ) : (swap E s a b).A b = .ofNat (E.toUnsigned (s.A a)) := by
  rw [swap_A, Function.update_self]

theorem swap_total (ha : a < n) (hb : b < n) :
    total n (swap E s a b).A = total n s.A + ((E.toUnsigned (s.A a) : ℚ) - (s.A a).toRat) := by
  have hmoved : Rearranged 0 (max a b) s.A (s.A ∘ Equiv.swap a b) :=
    rearranged_swap s.A ⟨Nat.zero_le a, le_max_left a b⟩ ⟨Nat.zero_le b, le_max_right a b⟩
  have hswap := rearranged_total hmoved (max_lt ha hb)
  rw [swap_A, total_update hb, hswap, Function.comp_apply, Equiv.swap_apply_right]
  rfl

theorem swap_lossy (E : Env) (h : ∀ i < n, Fits (s.A i)) (ha : a < n) (hb : b < n) : Lossy n s.A (swap E s a b).A where
  fits i hi := by
    rw [swap_A]
    rcases eq_or_ne i b with rfl | hib
    · rw [Function.update_self]
      exact (whole_toUnsigned E (s.A a)).fits
    · rw [Function.update_of_ne hib, Function.comp_apply]
      rcases eq_or_ne i a with rfl | hia
      · rw [Equiv.swap_apply_left]
        exact h b hb
      · rw [Equiv.swap_apply_of_ne_of_ne hia hib]
        exact h i hi
  total_le := by
    have hle := (toUnsigned_le (E := E) (h a ha)).1
    rw [swap_total ha hb]
    linarith

theorem swap_exact (h : ∀ i < n, Fits (s.A i)) (ha : a < n) (hb : b < n)
    (heq : total n (swap E s a b).A = total n s.A) : Whole (s.A a) := by
  rw [swap_total ha hb] at heq
  apply (toUnsigned_le (E := E) (h a ha)).2
  linarith

end Swap

end Cse422.Sort
