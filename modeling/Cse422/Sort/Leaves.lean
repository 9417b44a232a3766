/-
What the sort program leaves in memory. It sorts its array together with the element behind it, so the largest of these
values ends up behind the array and the others in it.

- `verifyLoop_passes`: the loop under VERIFY_CORRECT finds nothing in an ascending array;
- `values_split`, `largest_behind`: the element behind a sorted array is the largest of all;
- `sortMain_leaves`: the program ends and does not abort, and when its array is what it has generated.
-/
import Cse422.Sort.Correct
import Cse422.Sort.Bounds

namespace Cse422.Sort

open Words Segments

variable {E : Env} {s t u : St} {fuel n : ℕ}

/-! ## The array that is generated -/

theorem fill_calls (E : Env) (k : ℕ) (s : St) : (fill E k s).calls = s.calls + k := by
  induction k with
  | zero => rfl
  | succ k ih => exact congrArg (· + 1) ih

theorem fill_A (E : Env) (k : ℕ) (s : St) (i : ℕ) :
    (fill E k s).A i = if i < k then .ofNat (E.rand (s.calls + i)) else s.A i := by
  induction k with
  | zero => rw [if_neg (Nat.not_lt_zero i)]; rfl
  | succ k ih =>
    change Function.update (fill E k s).A k (.ofNat (E.rand (fill E k s).calls)) i = _
    rcases eq_or_ne i k with rfl | hne
    · rw [Function.update_self, fill_calls, if_pos (Nat.lt_succ_self i)]
    · rw [Function.update_of_ne hne, ih]
      have hiff : i < k + 1 ↔ i < k := by omega
      simp only [hiff]

theorem fill_log (E : Env) (k : ℕ) (s : St) : ∀ i ∈ (fill E k s).log, i ∈ s.log ∨ i < k := by
  induction k with
  | zero => exact fun i hi => Or.inl hi
  | succ k ih =>
    intro i hi
    rcases List.mem_append.1 hi with hi | hi
    · exact (ih i hi).imp_right fun hik => hik.trans (Nat.lt_succ_self k)
    · rw [List.mem_singleton.1 hi]
      exact Or.inr (Nat.lt_succ_self k)

/-- what `rand` gives is an `unsigned` -/
theorem whole_rand (E : Env) (i : ℕ) : Whole (.ofNat (E.rand i)) := ⟨_, rfl, (E.rand i).isLt.trans (by norm_num)⟩

/-- memory when `quicksort` is called -/
theorem fill_whole (E : Env) {A : ℕ → Double} (hstray : Whole (A n)) :
    ∀ i < n + 1, Whole ((fill E n ⟨A, 0, []⟩).A i) := by
  intro i hi
  rw [fill_A]
  split_ifs with hin
  · exact whole_rand E _
  · obtain rfl : i = n := by omega
    exact hstray

/-- the values that are generated, and the stray one -/
theorem fill_values (E : Env) (A : ℕ → Double) :
    values (Finset.Icc 0 n) (fill E n ⟨A, 0, []⟩).A = (generated E n : Multiset Double) + {A n} := by
  have hfilled : ∀ i ∈ Multiset.range n, (fill E n ⟨A, 0, []⟩).A i = .ofNat (E.rand i) := by
    intro i hi
    rw [fill_A, if_pos (Multiset.mem_range.1 hi), Nat.zero_add]
  have hstray : (fill E n ⟨A, 0, []⟩).A n = A n := by rw [fill_A, if_neg (Nat.lt_irrefl n)]
  rw [← Nat.range_succ_eq_Icc_zero, values, Finset.range_val, Multiset.range_succ, Multiset.map_cons, hstray,
    Multiset.map_congr rfl hfilled, Multiset.add_comm, Multiset.singleton_add]
  rfl

/-! ## VERIFY_CORRECT -/

theorem verifyLoop_passes {index : ℕ} (hn : 0 < n) (hword : n < 2 ^ 32) (hindex : index ≤ n - 1)
    (hA : Ascends (fun a b => Double.le a b) 0 n s.A) (hfuel : n - 1 - index < fuel) :
    ∃ t, verifyLoop n fuel index s = some (t, false) ∧ t.A = s.A ∧ ∀ i ∈ t.log, i ∈ s.log ∨ i < n := by
  induction fuel generalizing index s with
  | zero => exact absurd hfuel (Nat.not_lt_zero _)
  | succ fuel ih =>
    have hone : 1 ≤ n := hn
    rw [verifyLoop, subU_eq hone hword]
    split_ifs with hlt hle
    · rw [addU_eq (by omega)]
      obtain ⟨t, ht, hsame, hlog⟩ := ih (s := (s.read index).read (index + 1)) (Nat.succ_le_of_lt hlt) hA (by omega)
      refine ⟨t, ht, hsame, ?_⟩
      intro i hi
      rcases hlog i hi with hi | hi
      · simp only [St.read, List.mem_append, List.mem_singleton] at hi
        rcases hi with (hi | rfl) | rfl
        · exact Or.inl hi
        · exact Or.inr (by omega)
        · exact Or.inr (by omega)
      · exact Or.inr hi
    · rw [addU_eq (by omega)] at hle
      exact absurd (hA index (index + 1) (Nat.zero_le _) (Nat.lt_succ_self _) (by omega)) hle
    · exact ⟨s, rfl, rfl, fun i hi => Or.inl hi⟩

/-! ## The element behind the array -/

theorem values_split (n : ℕ) (A : ℕ → Double) : values (Finset.Icc 0 n) A = values (Finset.range n) A + {A n} := by
  rw [← Nat.range_succ_eq_Icc_zero, values, Finset.range_val, Multiset.range_succ, Multiset.map_cons, Multiset.add_comm,
    Multiset.singleton_add]
  rfl

theorem le_antisymm_whole {a b : Double} (ha : Whole a) (hb : Whole b) (hab : a.le b = true) (hba : b.le a = true) :
    a = b := by
  obtain ⟨m, rfl, -⟩ := ha
  obtain ⟨m', rfl, -⟩ := hb
  simp only [Double.ofNat, Double.le, decide_eq_true_eq] at hab hba
  exact congrArg Double.finite (le_antisymm hab hba)

/-- **The largest goes behind.** In an ascending array with the values `gen` and `stray`, the last one is `stray` exactly
when no other one is larger, and then the others are the values `gen`. -/
theorem largest_behind {A : ℕ → Double} {gen : Multiset Double} {stray : Double}
    (hA : Ascends (fun a b => Double.le a b) 0 n A) (hvalues : values (Finset.Icc 0 n) A = gen + {stray})
    (hgen : ∀ d ∈ gen, Whole d) (hstray : Whole stray) :
    values (Finset.range n) A = gen ↔ ∀ d ∈ gen, d.le stray = true := by
  have hself : ∀ d, Whole d → d.le d = true := by
    rintro d ⟨m, rfl, -⟩
    exact decide_eq_true (le_refl (m : ℚ))
  have hwhole : ∀ d ∈ gen + {stray}, Whole d := by
    intro d hd
    rcases Multiset.mem_add.1 hd with hd | hd
    · exact hgen d hd
    · exact Multiset.mem_singleton.1 hd ▸ hstray
  have hlast : A n ∈ gen + {stray} := by
    rw [← hvalues]
    exact Multiset.mem_map_of_mem A (Finset.mem_Icc.2 ⟨Nat.zero_le n, le_rfl⟩)
  -- every value is up to the last one
  have hmax : ∀ d ∈ gen + {stray}, d.le (A n) = true := by
    intro d hd
    rw [← hvalues] at hd
    obtain ⟨i, hi, rfl⟩ := Multiset.mem_map.1 hd
    have hin : i ≤ n := (Finset.mem_Icc.1 (Finset.mem_def.2 hi)).2
    rcases hin.lt_or_eq with hlt | rfl
    · exact hA i n (Nat.zero_le i) hlt le_rfl
    · exact hself _ (hwhole _ hlast)
  have hcancel : values (Finset.range n) A = gen ↔ A n = stray := by
    rw [values_split] at hvalues
    constructor
    · intro heq
      rw [heq] at hvalues
      exact Multiset.singleton_inj.1 (add_left_cancel hvalues)
    · intro heq
      rw [heq] at hvalues
      exact add_right_cancel hvalues
  rw [hcancel]
  constructor
  · intro heq d hd
    rw [← heq]
    exact hmax d (Multiset.mem_add.2 (Or.inl hd))
  · intro hle
    have hback : (A n).le stray = true := by
      rcases Multiset.mem_add.1 hlast with hd | hd
      · exact hle _ hd
      · rw [Multiset.mem_singleton.1 hd]
        exact hself stray hstray
    exact le_antisymm_whole (hwhole _ hlast) hstray hback
      (hmax stray (Multiset.mem_add.2 (Or.inr (Multiset.mem_singleton_self stray))))

/-! ## Result -/

/-- `quicksort`, as `main` calls it -/
theorem quicksort_fill (E : Env) {A : ℕ → Double} (hword : n < 2 ^ 32) (hstray : Whole (A n)) (hfuel : n + 2 ≤ fuel) :
    ∃ t, quicksort E fuel (fill E n ⟨A, 0, []⟩) 0 n = some t ∧ Ascends (fun a b => Double.le a b) 0 n t.A ∧
      values (Finset.Icc 0 n) t.A = (generated E n : Multiset Double) + {A n} ∧ ∀ i ∈ t.log, i ≤ n := by
  have hA := fill_whole E hstray
  obtain ⟨t, ht⟩ := quicksort_ends E (fill E n ⟨A, 0, []⟩) 0 hword hfuel
  have hmoved := quicksort_whole ht hword fun i _ hi => hA i (Nat.lt_succ_of_le hi)
  obtain ⟨-, hsorted⟩ := quicksort_exact hword ht (Nat.lt_succ_self n) (fun i hi => (hA i hi).fits)
    (rearranged_total hmoved (Nat.lt_succ_self n))
  refine ⟨t, ht, hsorted, ?_, ?_⟩
  · rw [hmoved.values (Finset.Subset.refl _), fill_values]
  · intro i hi
    obtain ⟨l, hlog, hin⟩ := (quicksort_within hword ht (Nat.zero_le n)).log
    rw [hlog] at hi
    rcases List.mem_append.1 hi with hi | hi
    · rcases fill_log E n _ i hi with hi | hi
      · cases hi
      · exact hi.le
    · exact (hin i hi).2

/-- **What the program leaves.** For every sequence of random numbers and with a whole number below `2 ^ 32` behind a
nonempty array, the program ends and accesses nothing beyond that number, with VERIFY_CORRECT or without, which finds no
fault. The array and the element behind it are then in ascending order what was generated and what was behind it; and the
array alone is what was generated if and only if nothing larger was generated than what was behind it. -/
theorem sortMain_leaves (E : Env) (verify : Bool) (arraySize : Word) (A : ℕ → Double) (hpos : 0 < arraySize.toNat)
    (hstray : Whole (A arraySize.toNat)) (fuel : ℕ) (hfuel : arraySize.toNat + 2 ≤ fuel) :
    ∃ t, sortMain E verify fuel arraySize A = some (t, false) ∧ (∀ i ∈ t.log, i ≤ arraySize.toNat) ∧
      Ascends (fun a b => Double.le a b) 0 arraySize.toNat t.A ∧
      values (Finset.Icc 0 arraySize.toNat) t.A = (generated E arraySize.toNat : Multiset Double) + {A arraySize.toNat} ∧
      (values (Finset.range arraySize.toNat) t.A = (generated E arraySize.toNat : Multiset Double) ↔
        ∀ i < arraySize.toNat, (Double.ofNat (E.rand i)).le (A arraySize.toNat) = true) := by
  obtain ⟨s, hs, hsorted, hvalues, hlog⟩ := quicksort_fill E arraySize.isLt hstray hfuel
  have hiff := largest_behind hsorted hvalues (fun d hd => ?_) hstray
  · have hgen : (∀ d ∈ (generated E arraySize.toNat : Multiset Double), d.le (A arraySize.toNat) = true) ↔
        ∀ i < arraySize.toNat, (Double.ofNat (E.rand i)).le (A arraySize.toNat) = true := by
      simp [generated]
    rw [hgen] at hiff
    have hmain : ∃ t, sortMain E verify fuel arraySize A = some (t, false) ∧ t.A = s.A ∧
        ∀ i ∈ t.log, i ∈ s.log ∨ i < arraySize.toNat := by
      simp only [sortMain, hs, Option.bind_some]
      cases verify with
      | false => exact ⟨s, rfl, rfl, fun i hi => Or.inl hi⟩
      | true => exact verifyLoop_passes hpos arraySize.isLt (Nat.zero_le _) hsorted (by omega)
    obtain ⟨t, ht, hsame, hin⟩ := hmain
    refine ⟨t, ht, ?_, ?_, ?_, ?_⟩
    · intro i hi
      rcases hin i hi with hi | hi
      · exact hlog i hi
      · exact hi.le
    · rw [hsame]
      exact hsorted
    · rw [hsame]
      exact hvalues
    · rw [hsame]
      exact hiff
  · obtain ⟨i, -, rfl⟩ := List.mem_map.1 (Multiset.mem_coe.1 hd)
    exact whole_rand E i

/-- 5 and 0 with 9 behind them -/
theorem sortMain_leaves_nine : ∃ t, sortMain fiveFirst true 4 2 (fun _ => .ofNat 9) = some (t, false) ∧
    values (Finset.range 2) t.A = (generated fiveFirst 2 : Multiset Double) := by
  obtain ⟨t, ht, -, -, -, hiff⟩ := sortMain_leaves fiveFirst true 2 (fun _ => .ofNat 9) (by decide)
    ⟨9, rfl, by norm_num⟩ 4 (by decide)
  refine ⟨t, ht, hiff.2 ?_⟩
  decide +kernel

end Cse422.Sort
