/-
How `quicksort` moves through its array, whatever is in it. A call with both ends of its range in the array partitions
the range and goes on with what is before the pivot and what is behind it; no index wraps, no access is outside of the
range, and the recursion ends.

- `partitionLoop_rule`, `quicksort_rule`: the induction rules for the loop of `partition` and for the recursion;
- `quicksort_within`: the accesses are within the range, and nothing else changes;
- `quicksort_ends`: fuel for the length of the range is enough;
- `partitions_bounds`: the ranges and the pivots of all calls of `partition`.
-/
import Cse422.Sort.Program

namespace Cse422.Sort

variable {E : Env} {s t u : St} {fuel start last r : ℕ}

/-! ## Arithmetic -/

theorem addU_eq {a b : ℕ} (h : a + b < 2 ^ 32) : addU a b = a + b := Nat.mod_eq_of_lt h

theorem subU_eq {a b : ℕ} (h : b ≤ a) (ha : a < 2 ^ 32) : subU a b = a - b := by
  unfold subU
  omega

/-- `(rand() % range) + start` -/
def pivotIndex (E : Env) (s : St) (start last : ℕ) : ℕ := start + (E.rand s.calls : ℕ) % (last - start)

theorem pivotIndex_bounds (hlt : start < last) : start ≤ pivotIndex E s start last ∧ pivotIndex E s start last < last := by
  have hmod := Nat.mod_lt (E.rand s.calls : ℕ) (Nat.sub_pos_of_lt hlt)
  unfold pivotIndex
  omega

/-- the pivot is in the last position -/
def withPivot (E : Env) (s : St) (start last : ℕ) : St :=
  swap E { s with calls := s.calls + 1 } (pivotIndex E s start last) last

theorem partition_eq (hlt : start < last) (hlast : last < 2 ^ 32) : partition E fuel s start last =
    (partitionLoop E last (E.toUnsigned ((withPivot E s start last).A last)) fuel start start
      ((withPivot E s start last).read last)).map fun p => (p.1, swap E p.2 p.1 last) := by
  have hpivot : addU ((E.rand s.calls : ℕ) % subU last start) start = pivotIndex E s start last := by
    have hbounds := pivotIndex_bounds (E := E) (s := s) hlt
    rw [subU_eq hlt.le hlast, addU_eq]
    · exact Nat.add_comm _ _
    · unfold pivotIndex at hbounds
      omega
  simp only [partition, hpivot]
  rfl

theorem partition_eq_some (hlt : start < last) (hlast : last < 2 ^ 32)
    (h : partition E fuel s start last = some (r, t)) :
    ∃ u, partitionLoop E last (E.toUnsigned ((withPivot E s start last).A last)) fuel start start
      ((withPivot E s start last).read last) = some (r, u) ∧ t = swap E u r last := by
  rw [partition_eq hlt hlast] at h
  obtain ⟨⟨r', u⟩, hloop, heq⟩ := Option.map_eq_some_iff.1 h
  obtain ⟨rfl, rfl⟩ := Prod.mk.inj heq
  exact ⟨u, hloop, rfl⟩

/-! ## The loop of `partition` -/

/-- **Loop rule.** -/
theorem partitionLoop_rule {I : ℕ → ℕ → St → Prop} {pivotVal index target : ℕ} (hlast : last < 2 ^ 32)
    (hle : ∀ index target s, I index target s → target ≤ index → index < last → (s.A index).le (.ofNat pivotVal) = true →
      I (index + 1) (target + 1) (swap E (s.read index) target index))
    (hgt : ∀ index target s, I index target s → target ≤ index → index < last → (s.A index).le (.ofNat pivotVal) = false →
      I (index + 1) target (s.read index))
    (h : partitionLoop E last pivotVal fuel index target s = some (r, t)) (hI : I index target s)
    (htarget : target ≤ index) (hindex : index ≤ last) : I last r t ∧ target ≤ r ∧ r ≤ last := by
  induction fuel generalizing index target s with
  | zero => cases h
  | succ fuel ih =>
    rw [partitionLoop] at h
    split_ifs at h with hlt hval
    · rw [addU_eq (by omega), addU_eq (by omega)] at h
      obtain ⟨hend, hr, hr'⟩ := ih h (hle index target s hI htarget hlt hval) (Nat.succ_le_succ htarget) hlt
      exact ⟨hend, (Nat.le_succ target).trans hr, hr'⟩
    · rw [addU_eq (by omega)] at h
      rw [Bool.not_eq_true] at hval
      exact ih h (hgt index target s hI htarget hlt hval) (htarget.trans (Nat.le_succ index)) hlt
    · obtain ⟨rfl, rfl⟩ := Prod.mk.inj (Option.some.inj h)
      obtain rfl : index = last := le_antisymm hindex (not_lt.1 hlt)
      exact ⟨hI, le_rfl, htarget⟩

theorem partitionLoop_ends (E : Env) (s : St) (pivotVal : ℕ) {index target : ℕ} (hlast : last < 2 ^ 32) (htarget : target ≤ index)
    (hindex : index ≤ last) (hfuel : last - index < fuel) :
    ∃ r t, partitionLoop E last pivotVal fuel index target s = some (r, t) := by
  induction fuel generalizing index target s with
  | zero => exact absurd hfuel (Nat.not_lt_zero _)
  | succ fuel ih =>
    rw [partitionLoop]
    split_ifs with hlt hval
    · rw [addU_eq (by omega), addU_eq (by omega)]
      exact ih _ (Nat.succ_le_succ htarget) hlt (by omega)
    · rw [addU_eq (by omega)]
      exact ih _ (htarget.trans (Nat.le_succ index)) hlt (by omega)
    · exact ⟨target, s, rfl⟩

theorem partition_bounds (hlt : start < last) (hlast : last < 2 ^ 32)
    (h : partition E fuel s start last = some (r, t)) : start ≤ r ∧ r ≤ last := by
  obtain ⟨u, hloop, -⟩ := partition_eq_some hlt hlast h
  exact (partitionLoop_rule (I := fun _ _ _ => True) hlast (fun _ _ _ _ _ _ _ => trivial) (fun _ _ _ _ _ _ _ => trivial)
    hloop trivial le_rfl hlt.le).2

theorem partition_ends (E : Env) (s : St) (hlt : start < last) (hlast : last < 2 ^ 32) (hfuel : last - start < fuel) :
    ∃ r t, partition E fuel s start last = some (r, t) := by
  obtain ⟨r, u, hloop⟩ := partitionLoop_ends E ((withPivot E s start last).read last)
    (E.toUnsigned ((withPivot E s start last).A last)) hlast (le_refl start) hlt.le hfuel
  exact ⟨r, swap E u r last, by rw [partition_eq hlt hlast, hloop, Option.map_some]⟩

/-! ## The recursion -/

theorem quicksort_of_le (h : last ≤ start) (fuel : ℕ) : quicksort E (fuel + 1) s start last = some s := by
  rw [quicksort, if_neg (not_lt.2 h)]

/-- a call with more than one element, with the indices as numbers -/
theorem quicksort_eq_some (hlt : start < last) (hlast : last < 2 ^ 32)
    (h : quicksort E (fuel + 1) s start last = some t) : ∃ p s₁ s₂, partition E fuel s start last = some (p, s₁) ∧
      start ≤ p ∧ p ≤ last ∧ ((start < p ∧ quicksort E fuel s₁ start (p - 1) = some s₂) ∨ (p = start ∧ s₂ = s₁)) ∧
      ((p < last ∧ quicksort E fuel s₂ (p + 1) last = some t) ∨ (p = last ∧ t = s₂)) := by
  rw [quicksort, if_pos hlt] at h
  obtain ⟨⟨p, s₁⟩, hp, h⟩ := Option.bind_eq_some_iff.1 h
  obtain ⟨s₂, hleft, hright⟩ := Option.bind_eq_some_iff.1 h
  obtain ⟨hlo, hhi⟩ := partition_bounds hlt hlast hp
  refine ⟨p, s₁, s₂, hp, hlo, hhi, ?_, ?_⟩
  · split_ifs at hleft with hlp
    · rw [subU_eq (by omega) (by omega)] at hleft
      exact Or.inl ⟨hlp, hleft⟩
    · exact Or.inr ⟨le_antisymm (not_lt.1 hlp) hlo, (Option.some.inj hleft).symm⟩
  · split_ifs at hright with hpl
    · rw [addU_eq (by omega)] at hright
      exact Or.inl ⟨hpl, hright⟩
    · exact Or.inr ⟨le_antisymm hhi (not_lt.1 hpl), (Option.some.inj hright).symm⟩

/-- **Recursion rule.** -/
theorem quicksort_rule {R : ℕ → ℕ → St → St → Prop} (hskip : ∀ lo hi s, hi ≤ lo → R lo hi s s)
    (hsort : ∀ fuel lo hi p s s₁ s₂ t, lo < hi → hi < 2 ^ 32 → partition E fuel s lo hi = some (p, s₁) → lo ≤ p → p ≤ hi →
      R lo (p - 1) s₁ s₂ → R (p + 1) hi s₂ t → R lo hi s t)
    (hlast : last < 2 ^ 32) (h : quicksort E fuel s start last = some t) : R start last s t := by
  induction fuel generalizing s t start last with
  | zero => cases h
  | succ fuel ih =>
    rcases Nat.lt_or_ge start last with hlt | hle
    · obtain ⟨p, s₁, s₂, hp, hlo, hhi, hleft, hright⟩ := quicksort_eq_some hlt hlast h
      apply hsort fuel start last p s s₁ s₂ t hlt hlast hp hlo hhi
      · rcases hleft with ⟨-, hleft⟩ | ⟨rfl, rfl⟩
        · exact ih (by omega) hleft
        · exact hskip _ _ _ (Nat.sub_le _ _)
      · rcases hright with ⟨-, hright⟩ | ⟨rfl, rfl⟩
        · exact ih hlast hright
        · exact hskip _ _ _ (Nat.le_succ _)
    · rw [quicksort_of_le hle] at h
      obtain rfl := Option.some.inj h
      exact hskip start last s hle

theorem quicksort_ends (E : Env) (s : St) (start : ℕ) (hlast : last < 2 ^ 32) (hfuel : last - start + 2 ≤ fuel) :
    ∃ t, quicksort E fuel s start last = some t := by
  induction fuel generalizing s start last with
  | zero => omega
  | succ fuel ih =>
    rcases Nat.lt_or_ge start last with hlt | hle
    · obtain ⟨p, s₁, hp⟩ := partition_ends E s hlt hlast (Nat.lt_of_succ_le (Nat.le_of_succ_le_succ hfuel))
      obtain ⟨hlo, hhi⟩ := partition_bounds hlt hlast hp
      rw [quicksort, if_pos hlt, hp, Option.bind_some]
      have hleft : ∃ s₂, (if start < p then quicksort E fuel s₁ start (subU p 1) else some s₁) = some s₂ := by
        split_ifs with hlp
        · rw [subU_eq (by omega) (by omega)]
          exact ih s₁ start (by omega) (by omega)
        · exact ⟨s₁, rfl⟩
      obtain ⟨s₂, hs₂⟩ := hleft
      rw [hs₂, Option.bind_some]
      split_ifs with hpl
      · rw [addU_eq (by omega)]
        exact ih s₂ (p + 1) hlast (by omega)
      · exact ⟨s₂, rfl⟩
    · exact ⟨s, quicksort_of_le hle fuel⟩

/-! ## Accesses -/

/-- from `s` to `t` only `[lo, hi]` has been accessed -/
structure Within (lo hi : ℕ) (s t : St) : Prop where
  log : ∃ l, t.log = s.log ++ l ∧ ∀ i ∈ l, lo ≤ i ∧ i ≤ hi
  frame : ∀ i, i < lo ∨ hi < i → t.A i = s.A i

section Within

variable {lo hi lo' hi' : ℕ}

theorem Within.refl (lo hi : ℕ) (s : St) : Within lo hi s s where
  log := ⟨[], (List.append_nil _).symm, fun i hi => by cases hi⟩
  frame _ _ := rfl

theorem Within.trans (h : Within lo hi s t) (h' : Within lo hi t u) : Within lo hi s u where
  log := by
    obtain ⟨l, hl, hin⟩ := h.log
    obtain ⟨l', hl', hin'⟩ := h'.log
    refine ⟨l ++ l', by rw [hl', hl, List.append_assoc], ?_⟩
    intro i hi
    rcases List.mem_append.1 hi with hi | hi
    · exact hin i hi
    · exact hin' i hi
  frame i hi := (h'.frame i hi).trans (h.frame i hi)

theorem Within.mono (h : Within lo hi s t) (hlo : lo' ≤ lo) (hhi : hi ≤ hi') : Within lo' hi' s t where
  log := by
    obtain ⟨l, hl, hin⟩ := h.log
    refine ⟨l, hl, ?_⟩
    intro i hi
    have hb := hin i hi
    exact ⟨hlo.trans hb.1, hb.2.trans hhi⟩
  frame i hout := h.frame i (by omega)

theorem read_within (s : St) {i : ℕ} (hin : lo ≤ i ∧ i ≤ hi) : Within lo hi s (s.read i) where
  log := ⟨[i], rfl, fun _ hj => List.mem_singleton.1 hj ▸ hin⟩
  frame _ _ := rfl

theorem swap_within (E : Env) (s : St) {a b : ℕ} (ha : lo ≤ a ∧ a ≤ hi) (hb : lo ≤ b ∧ b ≤ hi) :
    Within lo hi s (swap E s a b) where
  log := by
    refine ⟨[a, b, a, b], swap_log E s a b, ?_⟩
    simp only [List.mem_cons, List.not_mem_nil, or_false]
    rintro i (rfl | rfl | rfl | rfl)
    · exact ha
    · exact hb
    · exact ha
    · exact hb
  frame i hout := by
    have hia : i ≠ a := by omega
    have hib : i ≠ b := by omega
    simp only [swap, St.store, St.read, Function.update_of_ne hib, Function.update_of_ne hia]

theorem withPivot_within (hlt : start < last) : Within start last s (withPivot E s start last) := by
  obtain ⟨hlo, hhi⟩ := pivotIndex_bounds (E := E) (s := s) hlt
  have hswap := swap_within E { s with calls := s.calls + 1 } ⟨hlo, hhi.le⟩ ⟨hlt.le, le_refl last⟩
  exact ⟨hswap.log, hswap.frame⟩

theorem partition_within (hlt : start < last) (hlast : last < 2 ^ 32)
    (h : partition E fuel s start last = some (r, t)) : Within start last s t := by
  obtain ⟨u, hloop, rfl⟩ := partition_eq_some hlt hlast h
  have hfirst := (withPivot_within (E := E) (s := s) hlt).trans (read_within _ ⟨hlt.le, le_refl last⟩)
  have hrule : (start ≤ r ∧ Within start last s u) ∧ start ≤ r ∧ r ≤ last := by
    refine partitionLoop_rule (I := fun _ target t => start ≤ target ∧ Within start last s t) hlast ?_ ?_ hloop
      ⟨le_rfl, hfirst⟩ le_rfl hlt.le
    · intro index target t hI htarget hindex _
      obtain ⟨hlo, hin⟩ := hI
      refine ⟨hlo.trans (Nat.le_succ target), (hin.trans (read_within t ⟨?_, hindex.le⟩)).trans (swap_within E _ ?_ ?_)⟩
      · exact hlo.trans htarget
      · exact ⟨hlo, htarget.trans hindex.le⟩
      · exact ⟨hlo.trans htarget, hindex.le⟩
    · intro index target t hI htarget hindex _
      exact ⟨hI.1, hI.2.trans (read_within t ⟨hI.1.trans htarget, hindex.le⟩)⟩
  obtain ⟨⟨hlo, hin⟩, -, hhi⟩ := hrule
  exact hin.trans (swap_within E u ⟨hlo, hhi⟩ ⟨hlt.le, le_rfl⟩)

/-- **Within its range.** -/
theorem quicksort_within (hlast : last < 2 ^ 32) (h : quicksort E fuel s start last = some t) (hle : start ≤ last) :
    Within start last s t := by
  refine quicksort_rule (R := fun lo hi s t => lo ≤ hi + 1 → Within lo hi s t) ?_ ?_ hlast h (hle.trans (Nat.le_succ _))
  · intro lo hi s _ _
    exact .refl lo hi s
  · intro fuel lo hi p s s₁ s₂ t hlt hlast hp hlo hhi hleft hright _
    have h₁ := partition_within hlt hlast hp
    have h₂ := (hleft (by omega)).mono le_rfl ((Nat.sub_le p 1).trans hhi)
    have h₃ := (hright (by omega)).mono (hlo.trans (Nat.le_succ p)) le_rfl
    exact (h₁.trans h₂).trans h₃

end Within

/-! ## The calls of `partition` -/

/-- `quicksort(A, start, last)`, called in `s`, calls `partition(A, lo, hi)`, which gives `p` -/
inductive Partitions (E : Env) : St → ℕ → ℕ → ℕ → ℕ → ℕ → Prop
  | here {s s₁ : St} {start last p fuel : ℕ} : start < last → partition E fuel s start last = some (p, s₁) →
      Partitions E s start last start last p
  | left {s s₁ : St} {start last p fuel lo hi q : ℕ} : start < last → partition E fuel s start last = some (p, s₁) →
      start < p → Partitions E s₁ start (subU p 1) lo hi q → Partitions E s start last lo hi q
  | right {s s₁ s₂ : St} {start last p fuel lo hi q : ℕ} : start < last →
      partition E fuel s start last = some (p, s₁) →
      (if start < p then quicksort E fuel s₁ start (subU p 1) else some s₁) = some s₂ → p < last →
      Partitions E s₂ (addU p 1) last lo hi q → Partitions E s start last lo hi q

theorem partitions_bounds {lo hi p : ℕ} (h : Partitions E s start last lo hi p) (hlast : last < 2 ^ 32) :
    start ≤ lo ∧ lo < hi ∧ hi ≤ last ∧ lo ≤ p ∧ p ≤ hi := by
  induction h with
  | here hlt hp =>
    have hb := partition_bounds hlt hlast hp
    exact ⟨le_rfl, hlt, le_rfl, hb.1, hb.2⟩
  | @left s s₁ start last q fuel lo hi p hlt hp hsq _ ih =>
    have hb := partition_bounds hlt hlast hp
    rw [subU_eq (by omega) (by omega)] at ih
    have hin := ih (by omega)
    omega
  | @right s s₁ s₂ start last q fuel lo hi p hlt hp _ hql _ ih =>
    have hb := partition_bounds hlt hlast hp
    rw [addU_eq (by omega)] at ih
    have hin := ih hlast
    omega

end Cse422.Sort
