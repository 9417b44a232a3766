/-
Segments of arrays: rearrangements and order. Library: nothing here is about one program.

An array is what it has at each index, `ℕ → α`, and a segment is `[lo, hi]` with both ends.

- `Rearranged.trans`, `Rearranged.mono`, `rearranged_swap`: rearrangements of a segment compose, and an exchange is one;
- `Rearranged.forall_inside`: what holds of all elements of a segment holds of them in any order;
- `Rearranged.exists_position`: each element has one place afterwards;
- `Rearranged.values`: a rearrangement has the same values, with their multiplicities;
- `ascending_join`: two ascending segments with an element between them.
-/
import Mathlib.Tactic

namespace Segments

variable {α : Type*} {A B C : ℕ → α} {lo hi lo' hi' : ℕ}

/-- the elements of `A` in `[lo, hi]` are in another order in `B` -/
def Rearranged (lo hi : ℕ) (A B : ℕ → α) : Prop :=
  ∃ σ : Equiv.Perm ℕ, (∀ i, i < lo ∨ hi < i → σ i = i) ∧ B = A ∘ σ

theorem Rearranged.refl (lo hi : ℕ) (A : ℕ → α) : Rearranged lo hi A A := ⟨1, fun _ _ => rfl, rfl⟩

theorem Rearranged.trans (h : Rearranged lo hi A B) (h' : Rearranged lo hi B C) : Rearranged lo hi A C := by
  obtain ⟨σ, hσ, rfl⟩ := h
  obtain ⟨τ, hτ, rfl⟩ := h'
  refine ⟨τ.trans σ, ?_, rfl⟩
  intro i hout
  rw [Equiv.trans_apply, hτ i hout, hσ i hout]

theorem Rearranged.mono (h : Rearranged lo hi A B) (hlo : lo' ≤ lo) (hhi : hi ≤ hi') : Rearranged lo' hi' A B := by
  obtain ⟨σ, hσ, rfl⟩ := h
  refine ⟨σ, ?_, rfl⟩
  intro i hout
  apply hσ
  omega

theorem rearranged_swap {a b : ℕ} (A : ℕ → α) (ha : lo ≤ a ∧ a ≤ hi) (hb : lo ≤ b ∧ b ≤ hi) :
    Rearranged lo hi A (A ∘ Equiv.swap a b) := by
  refine ⟨Equiv.swap a b, ?_, rfl⟩
  intro i hout
  apply Equiv.swap_apply_of_ne_of_ne
  · omega
  · omega

theorem Rearranged.outside (h : Rearranged lo hi A B) {i : ℕ} (hout : i < lo ∨ hi < i) : B i = A i := by
  obtain ⟨σ, hσ, rfl⟩ := h
  exact congrArg A (hσ i hout)

/-- an element of the segment comes from the segment -/
theorem Rearranged.exists_inside (h : Rearranged lo hi A B) {i : ℕ} (hin : lo ≤ i ∧ i ≤ hi) :
    ∃ j, (lo ≤ j ∧ j ≤ hi) ∧ B i = A j := by
  obtain ⟨σ, hσ, rfl⟩ := h
  refine ⟨σ i, ?_, rfl⟩
  by_contra hout
  -- otherwise `σ` leaves it where it is, and `i` is outside as well
  have hfix : σ (σ i) = σ i := hσ _ (by omega)
  rw [σ.injective hfix] at hout
  exact hout hin

theorem Rearranged.forall_inside {P : α → Prop} (h : Rearranged lo hi A B) (hP : ∀ i, lo ≤ i → i ≤ hi → P (A i)) :
    ∀ i, lo ≤ i → i ≤ hi → P (B i) := by
  intro i hlo hhi
  obtain ⟨j, hj, heq⟩ := h.exists_inside ⟨hlo, hhi⟩
  rw [heq]
  exact hP j hj.1 hj.2

/-- what is before `p` has been rearranged, so `p` is as it was -/
theorem Rearranged.at_end {p : ℕ} (h : Rearranged lo (p - 1) A B) (hlo : lo ≤ p) : B p = A p := by
  rcases Nat.eq_zero_or_pos p with rfl | hpos
  · obtain ⟨j, hj, heq⟩ := h.exists_inside (i := 0) ⟨hlo, le_rfl⟩
    obtain rfl : j = 0 := by omega
    exact heq
  · exact h.outside (Or.inr (by omega))

/-- where the elements of the segment have gone -/
theorem Rearranged.exists_position (h : Rearranged lo hi A B) :
    ∃ pos : ℕ → ℕ, pos.Injective ∧ ∀ i, lo ≤ i → i ≤ hi → (lo ≤ pos i ∧ pos i ≤ hi) ∧ B (pos i) = A i := by
  obtain ⟨σ, hσ, rfl⟩ := h
  refine ⟨σ.symm, σ.symm.injective, ?_⟩
  intro i hlo hhi
  refine ⟨?_, congrArg A (σ.apply_symm_apply i)⟩
  by_contra hout
  have hfix : σ (σ.symm i) = σ.symm i := hσ _ (by omega)
  rw [σ.apply_symm_apply] at hfix
  omega

/-! ## Values -/

/-- the values at the indices `s`, each as often as it is there -/
def values (s : Finset ℕ) (A : ℕ → α) : Multiset α := s.val.map A

theorem Rearranged.values {s : Finset ℕ} (h : Rearranged lo hi A B) (hs : Finset.Icc lo hi ⊆ s) :
    values s B = values s A := by
  obtain ⟨σ, hσ, rfl⟩ := h
  have hmap : s.map (σ : ℕ ↪ ℕ) = s := by
    apply Finset.map_perm
    intro i hmoved
    apply hs
    by_contra hout
    rw [Finset.mem_Icc] at hout
    exact hmoved (hσ i (by omega))
  calc s.val.map (A ∘ σ) = (s.val.map σ).map A := (Multiset.map_map _ _ _).symm
    _ = (s.map (σ : ℕ ↪ ℕ)).val.map A := rfl
    _ = s.val.map A := by rw [hmap]

/-! ## Order -/

/-- each element of `[lo, hi]` is related to each later one -/
def Ascends (r : α → α → Prop) (lo hi : ℕ) (A : ℕ → α) : Prop := ∀ i j, lo ≤ i → i < j → j ≤ hi → r (A i) (A j)

theorem ascends_of_le {r : α → α → Prop} (A : ℕ → α) (h : hi ≤ lo) : Ascends r lo hi A := by
  intro i j hlo hij hhi
  omega

/-- the element at `p` is between what is before it and what is behind it -/
theorem ascending_join {r : α → α → Prop} (htrans : ∀ x y z, r x y → r y z → r x z) {p : ℕ}
    (hbefore : ∀ i, lo ≤ i → i < p → r (A i) (A p)) (hbehind : ∀ i, p < i → i ≤ hi → r (A p) (A i))
    (hleft : Ascends r lo (p - 1) A) (hright : Ascends r (p + 1) hi A) : Ascends r lo hi A := by
  intro i j hlo hij hhi
  rcases lt_trichotomy i p with hip | rfl | hip
  · rcases lt_trichotomy j p with hjp | rfl | hjp
    · exact hleft i j hlo hij (Nat.le_sub_one_of_lt hjp)
    · exact hbefore i hlo hip
    · exact htrans _ _ _ (hbefore i hlo hip) (hbehind j hjp hhi)
  · exact hbehind j hij hhi
  · exact hright i j hip hij hhi

end Segments
