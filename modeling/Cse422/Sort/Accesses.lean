/-
How often `quicksort` accesses its array. The comparison of `partition` is `<=`, so of equal elements none stays behind the
pivot: every call leaves one range that is shorter by one, whatever `rand` gives.

- `quicksort_accesses_le`: the accesses are at most `worst (end - start)`, which is quadratic, for every array;
- `quicksort_accesses_equal`: with elements that are all the same whole number below `2 ^ 32` they are exactly that many;
- `quicksort_accesses`: both.
-/
import Cse422.Sort.Exchange

namespace Cse422.Sort

variable {E : Env} {s t u : St} {fuel start last p k : ℕ}

/-! ## The bound -/

/-- a call of `partition` for each range of `d + 1` elements and less -/
def worst : ℕ → ℕ
  | 0 => 0
  | d + 1 => 5 * (d + 1) + 9 + worst d

theorem two_mul_worst (d : ℕ) : 2 * worst d = d * (5 * d + 23) := by
  induction d with
  | zero => rfl
  | succ d ih =>
    calc 2 * worst (d + 1) = 2 * (5 * (d + 1) + 9) + 2 * worst d := Nat.mul_add _ _ _
      _ = 2 * (5 * (d + 1) + 9) + d * (5 * d + 23) := by rw [ih]
      _ = (d + 1) * (5 * (d + 1) + 23) := by ring

theorem worst_mono {d e : ℕ} (h : d ≤ e) : worst d ≤ worst e := by
  induction h with
  | refl => exact le_rfl
  | step _ ih => exact ih.trans (Nat.le_add_left _ _)

/-- one long range is worse than two short ones -/
theorem worst_add_le (d e : ℕ) : worst d + worst e ≤ worst (d + e) := by
  have hd := two_mul_worst d
  have he := two_mul_worst e
  have hde := two_mul_worst (d + e)
  nlinarith [Nat.zero_le (d * e)]

theorem worst_pred (h : start < last) : worst (last - start) = 5 * (last - start) + 9 + worst (last - start - 1) := by
  obtain ⟨d, hd⟩ : ∃ d, last - start = d + 1 := ⟨last - start - 1, by omega⟩
  rw [hd]
  rfl

/-! ## Any elements -/

theorem read_length (s : St) (i : ℕ) : (s.read i).log.length = s.log.length + 1 := by
  rw [St.read, List.length_append, List.length_singleton]

theorem swap_length (E : Env) (s : St) (a b : ℕ) : (swap E s a b).log.length = s.log.length + 4 := by
  rw [swap_log, List.length_append]
  rfl

theorem withPivot_length (E : Env) (s : St) (start last : ℕ) :
    ((withPivot E s start last).read last).log.length = s.log.length + 5 := by
  rw [read_length, withPivot, swap_length]

/-- a turn of the loop accesses one element, or five -/
theorem partition_accesses_le (hlt : start < last) (hlast : last < 2 ^ 32)
    (h : partition E fuel s start last = some (p, t)) : t.log.length ≤ s.log.length + (5 * (last - start) + 9) := by
  obtain ⟨u, hloop, rfl⟩ := partition_eq_some hlt hlast h
  have hrule : (start ≤ last ∧ u.log.length ≤ s.log.length + 5 + 5 * (last - start)) ∧ start ≤ p ∧ p ≤ last := by
    refine partitionLoop_rule
      (I := fun index _ u => start ≤ index ∧ u.log.length ≤ s.log.length + 5 + 5 * (index - start)) hlast ?_ ?_ hloop ?_
      le_rfl hlt.le
    · intro index target u hI _ _ _
      obtain ⟨hlo, hu⟩ := hI
      refine ⟨hlo.trans (Nat.le_succ index), ?_⟩
      rw [swap_length, read_length]
      omega
    · intro index target u hI _ _ _
      obtain ⟨hlo, hu⟩ := hI
      refine ⟨hlo.trans (Nat.le_succ index), ?_⟩
      rw [read_length]
      omega
    · exact ⟨le_rfl, (withPivot_length E s start last).le.trans (Nat.le_add_right _ _)⟩
  have hu := hrule.1.2
  rw [swap_length]
  omega

/-- **At most quadratic.** -/
theorem quicksort_accesses_le (hlast : last < 2 ^ 32) (h : quicksort E fuel s start last = some t) :
    t.log.length ≤ s.log.length + worst (last - start) := by
  refine quicksort_rule (R := fun lo hi s t => t.log.length ≤ s.log.length + worst (hi - lo)) ?_ ?_ hlast h
  · intro lo hi s _
    exact Nat.le_add_right _ _
  · intro fuel lo hi p s s₁ s₂ t hlt hlast hp hlo hhi hleft hright
    have hpart := partition_accesses_le hlt hlast hp
    have hshort : p - 1 - lo + (hi - (p + 1)) ≤ hi - lo - 1 := by omega
    have hsides : worst (p - 1 - lo) + worst (hi - (p + 1)) ≤ worst (hi - lo - 1) :=
      (worst_add_le _ _).trans (worst_mono hshort)
    calc t.log.length ≤ s₂.log.length + worst (hi - (p + 1)) := hright
      _ ≤ s.log.length + (5 * (hi - lo) + 9) + worst (p - 1 - lo) + worst (hi - (p + 1)) := by omega
      _ ≤ s.log.length + (5 * (hi - lo) + 9 + worst (hi - lo - 1)) := by omega
      _ = s.log.length + worst (hi - lo) := by rw [worst_pred hlt]

/-! ## Equal elements -/

/-- all elements of `[lo, hi]` are `k` -/
def Equal (k lo hi : ℕ) (s : St) : Prop := ∀ i, lo ≤ i → i ≤ hi → s.A i = .ofNat k

theorem swap_equal {a b : ℕ} (hk : k < 2 ^ 32) (ha : s.A a = .ofNat k) (hb : s.A b = .ofNat k) :
    (swap E s a b).A = s.A := by
  rw [swap_of_whole ⟨k, ha, hk⟩]
  funext i
  rw [Function.comp_apply]
  rcases eq_or_ne i a with rfl | hia
  · rw [Equiv.swap_apply_left, ha, hb]
  · rcases eq_or_ne i b with rfl | hib
    · rw [Equiv.swap_apply_right, ha, hb]
    · rw [Equiv.swap_apply_of_ne_of_ne hia hib]

theorem withPivot_equal (hk : k < 2 ^ 32) (hA : Equal k start last s) (hlt : start < last) :
    (withPivot E s start last).A = s.A := by
  obtain ⟨hlo, hhi⟩ := pivotIndex_bounds (E := E) (s := s) hlt
  exact swap_equal (s := { s with calls := s.calls + 1 }) hk (hA _ hlo hhi.le) (hA last hlt.le le_rfl)

theorem ofNat_le_self (k : ℕ) : (Double.ofNat k).le (.ofNat k) = true := decide_eq_true (le_refl (k : ℚ))

/-- every element goes before the pivot, each by an exchange with itself -/
theorem partition_equal (hk : k < 2 ^ 32) (hA : Equal k start last s) (hlt : start < last) (hlast : last < 2 ^ 32)
    (h : partition E fuel s start last = some (p, t)) :
    p = last ∧ t.A = s.A ∧ t.log.length = s.log.length + (5 * (last - start) + 9) := by
  obtain ⟨u, hloop, rfl⟩ := partition_eq_some hlt hlast h
  have hpivot := withPivot_equal (E := E) hk hA hlt
  rw [hpivot, hA last hlt.le le_rfl, toUnsigned_ofNat hk] at hloop
  have hrule : (start ≤ last ∧ p = last ∧ u.A = s.A ∧ u.log.length = s.log.length + 5 + 5 * (last - start)) ∧
      start ≤ p ∧ p ≤ last := by
    refine partitionLoop_rule (I := fun index target u => start ≤ index ∧ target = index ∧ u.A = s.A ∧
      u.log.length = s.log.length + 5 + 5 * (index - start)) hlast ?_ ?_ hloop ?_ le_rfl hlt.le
    · intro index target u hI _ hindex _
      obtain ⟨hlo, rfl, hu, hlength⟩ := hI
      have hat : (u.read target).A target = .ofNat k := (congrFun hu target).trans (hA target hlo hindex.le)
      refine ⟨hlo.trans (Nat.le_succ target), rfl, (swap_equal hk hat hat).trans hu, ?_⟩
      rw [swap_length, read_length, hlength]
      omega
    · intro index target u hI _ hindex hgt
      obtain ⟨hlo, -, hu, -⟩ := hI
      rw [hu, hA index hlo hindex.le, ofNat_le_self] at hgt
      cases hgt
    · refine ⟨le_rfl, rfl, hpivot, ?_⟩
      rw [withPivot_length, Nat.sub_self]
  obtain ⟨⟨-, rfl, hu, hlength⟩, -⟩ := hrule
  have hat : u.A p = .ofNat k := (congrFun hu p).trans (hA p hlt.le le_rfl)
  refine ⟨rfl, (swap_equal hk hat hat).trans hu, ?_⟩
  rw [swap_length, hlength]
  omega

/-- **Equal whole numbers** are the worst case, for every sequence of random numbers. -/
theorem quicksort_accesses_equal (hk : k < 2 ^ 32) (hlast : last < 2 ^ 32) (hA : Equal k start last s)
    (h : quicksort E fuel s start last = some t) : t.log.length = s.log.length + worst (last - start) := by
  have hboth : t.A = s.A ∧ t.log.length = s.log.length + worst (last - start) := by
    refine quicksort_rule (R := fun lo hi s t => Equal k lo hi s → t.A = s.A ∧
      t.log.length = s.log.length + worst (hi - lo)) ?_ ?_ hlast h hA
    · intro lo hi s hle _
      rw [Nat.sub_eq_zero_of_le hle]
      exact ⟨rfl, rfl⟩
    · intro fuel lo hi p s s₁ s₂ t hlt hlast hp _ _ hleft hright hA
      obtain ⟨rfl, h₁, hpart⟩ := partition_equal hk hA hlt hlast hp
      obtain ⟨h₂, hleft⟩ := hleft fun i hi hip => (congrFun h₁ i).trans (hA i hi (hip.trans (Nat.sub_le p 1)))
      obtain ⟨h₃, hright⟩ := hright fun i hi hip => absurd hip (Nat.not_le.2 hi)
      refine ⟨(h₃.trans h₂).trans h₁, ?_⟩
      rw [Nat.sub_eq_zero_of_le (Nat.le_succ p)] at hright
      calc t.log.length = s₂.log.length := hright
        _ = s₁.log.length + worst (p - 1 - lo) := hleft
        _ = s.log.length + (5 * (p - lo) + 9) + worst (p - lo - 1) := by rw [hpart, Nat.sub_right_comm]
        _ = s.log.length + worst (p - lo) := by rw [worst_pred hlt, Nat.add_assoc]
  exact hboth.2

/-! ## Result -/

/-- **The worst case.** For every array and every sequence of random numbers, a range of `d + 1` elements takes at most
`d * (5 * d + 23) / 2` accesses; where all elements are the same whole number below `2 ^ 32`, it takes exactly that many.
`pivot_val` and the temporary of `swap` drop fractions, so other equal elements may take fewer. -/
theorem quicksort_accesses (E : Env) (s : St) (start last : ℕ) (hle : start ≤ last) (hlast : last < 2 ^ 32) (fuel : ℕ)
    (hfuel : last - start + 2 ≤ fuel) :
    ∃ t accesses, quicksort E fuel s start last = some t ∧ t.log = s.log ++ accesses ∧
      2 * accesses.length ≤ (last - start) * (5 * (last - start) + 23) ∧
      ((∃ k < 2 ^ 32, Equal k start last s) → 2 * accesses.length = (last - start) * (5 * (last - start) + 23)) := by
  obtain ⟨t, ht⟩ := quicksort_ends E s start hlast hfuel
  obtain ⟨accesses, hlog, -⟩ := (quicksort_within hlast ht hle).log
  have hlength : t.log.length = s.log.length + accesses.length := by rw [hlog, List.length_append]
  refine ⟨t, accesses, ht, hlog, ?_, ?_⟩
  · have hbound := quicksort_accesses_le hlast ht
    rw [← two_mul_worst]
    omega
  · rintro ⟨k, hk, hA⟩
    have hequal := quicksort_accesses_equal hk hlast hA ht
    rw [← two_mul_worst]
    omega

/-- four equal elements -/
theorem quicksort_accesses_four : ∃ t accesses, quicksort ⟨fun _ => 1, fun _ => 0⟩ 5 ⟨fun _ => .ofNat 7, 0, []⟩ 0 3 =
    some t ∧ t.log = accesses ∧ 2 * accesses.length = 3 * 38 := by
  obtain ⟨t, accesses, ht, hlog, -, hequal⟩ := quicksort_accesses ⟨fun _ => 1, fun _ => 0⟩ ⟨fun _ => .ofNat 7, 0, []⟩ 0 3
    (by decide) (by decide) 5 (by decide)
  exact ⟨t, accesses, ht, hlog, hequal ⟨7, by decide, fun _ _ _ => rfl⟩⟩

end Cse422.Sort
