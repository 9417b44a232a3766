/-
`quicksort` sorts. As long as the sum of the array stays, `partition` leaves the elements up to the pivot before it and
the larger ones behind it, and `quicksort` leaves its range in ascending order. With elements that an `unsigned` can
hold, the sum stays.

- `partition_exact`: what `partition` does when nothing is lost;
- `quicksort_exact`: what `quicksort` does then;
- `quicksort_sorts`: with whole elements it ends, within its range, with the elements in ascending order, for every
  sequence of random numbers, and its index arithmetic does not wrap.
-/
import Cse422.Sort.Exchange

namespace Cse422.Sort

open Segments

variable {E : Env} {s t u : St} {fuel start last n p : ℕ}

/-! ## What keeps an array -/

theorem withPivot_lossy (h : ∀ i < n, Fits (s.A i)) (hlt : start < last) (hlast : last < n) :
    Lossy n s.A (withPivot E s start last).A :=
  swap_lossy E (s := { s with calls := s.calls + 1 }) h ((pivotIndex_bounds hlt).2.trans hlast) hlast

/-- the elements up to the pivot are before `target`, the larger ones from there on -/
structure Parted (start last pivotVal index target : ℕ) (s t : St) : Prop where
  moved : Rearranged start last s.A t.A
  pivot : t.A last = .ofNat pivotVal
  small : ∀ i, start ≤ i → i < target → (t.A i).le (.ofNat pivotVal) = true
  large : ∀ i, target ≤ i → i < index → (t.A i).le (.ofNat pivotVal) = false

section Turn

variable {pivotVal index target : ℕ}

/-- an element up to the pivot goes to `target`, and the larger one that was there takes its place -/
theorem Parted.exchange (h : Parted start last pivotVal index target s t) (hlo : start ≤ target)
    (htarget : target ≤ index) (hindex : index < last) (hle : (t.A index).le (.ofNat pivotVal) = true)
    (hu : u.A = t.A ∘ Equiv.swap target index) : Parted start last pivotVal (index + 1) (target + 1) s u := by
  have at_target : u.A target = t.A index := by rw [hu, Function.comp_apply, Equiv.swap_apply_left]
  have at_index : u.A index = t.A target := by rw [hu, Function.comp_apply, Equiv.swap_apply_right]
  have other : ∀ i, i ≠ target → i ≠ index → u.A i = t.A i := by
    intro i hit hii
    rw [hu, Function.comp_apply, Equiv.swap_apply_of_ne_of_ne hit hii]
  refine ⟨?_, ?_, ?_, ?_⟩
  · rw [hu]
    exact h.moved.trans (rearranged_swap t.A ⟨hlo, by omega⟩ ⟨by omega, hindex.le⟩)
  · rw [other last (by omega) (by omega)]
    exact h.pivot
  · intro i hi hit
    rcases Nat.lt_or_ge i target with hlt | hge
    · rw [other i (by omega) (by omega)]
      exact h.small i hi hlt
    · obtain rfl : i = target := by omega
      rw [at_target]
      exact hle
  · intro i hi hii
    rcases Nat.lt_or_ge i index with hlt | hge
    · rw [other i (by omega) (by omega)]
      exact h.large i (by omega) hlt
    · obtain rfl : i = index := by omega
      rw [at_index]
      exact h.large target le_rfl (by omega)

theorem Parted.pass (h : Parted start last pivotVal index target s t) (hgt : (t.A index).le (.ofNat pivotVal) = false) :
    Parted start last pivotVal (index + 1) target s (t.read index) where
  moved := h.moved
  pivot := h.pivot
  small := h.small
  large i hi hii := by
    rcases Nat.lt_or_ge i index with hlt | hge
    · exact h.large i hi hlt
    · obtain rfl : i = index := by omega
      exact hgt

end Turn

/-- `partition` before its last exchange -/
theorem partitionLoop_lossy {pivotVal : ℕ} (hA : ∀ i < n, Fits (s.A i)) (hlt : start < last) (hlast : last < n)
    (hn : n ≤ 2 ^ 32) (hpivot : pivotVal = E.toUnsigned (s.A (pivotIndex E s start last)))
    (h : partitionLoop E last pivotVal fuel start start ((withPivot E s start last).read last) = some (p, t)) :
    (start ≤ p ∧ p ≤ last) ∧ Lossy n s.A t.A ∧ (total n t.A = total n s.A →
      Whole (s.A (pivotIndex E s start last)) ∧ Parted start last pivotVal last p s t) := by
  have hlossy := withPivot_lossy (E := E) hA hlt hlast
  have hidx := pivotIndex_bounds (E := E) (s := s) hlt
  have hrule : (start ≤ p ∧ Lossy n s.A t.A ∧ (total n t.A = total n s.A →
      Whole (s.A (pivotIndex E s start last)) ∧ Parted start last pivotVal last p s t)) ∧ start ≤ p ∧ p ≤ last := by
    refine partitionLoop_rule (I := fun index target t => start ≤ target ∧ Lossy n s.A t.A ∧ (total n t.A = total n s.A →
      Whole (s.A (pivotIndex E s start last)) ∧ Parted start last pivotVal index target s t)) (hlast.trans_le hn)
      ?_ ?_ h ?_ le_rfl hlt.le
    · intro index target u hI htarget hindex hle
      obtain ⟨hlo, hu, hparted⟩ := hI
      have hswap := swap_lossy E (s := u.read index) hu.fits (a := target) (b := index) (by omega) (by omega)
      refine ⟨by omega, hu.trans hswap, ?_⟩
      intro heq
      obtain ⟨hfirst, hsecond⟩ := hu.exact hswap heq
      obtain ⟨hwhole, hparted⟩ := hparted hfirst
      have htarget' := swap_exact (s := u.read index) hu.fits (by omega) (by omega) hsecond
      exact ⟨hwhole, hparted.exchange hlo htarget hindex hle (swap_of_whole htarget')⟩
    · intro index target u hI htarget hindex hgt
      obtain ⟨hlo, hu, hparted⟩ := hI
      exact ⟨hlo, hu, fun heq => ⟨(hparted heq).1, (hparted heq).2.pass hgt⟩⟩
    · refine ⟨le_rfl, hlossy, fun heq => ?_⟩
      have hwhole : Whole (s.A (pivotIndex E s start last)) :=
        swap_exact (s := { s with calls := s.calls + 1 }) hA (by omega) hlast heq
      have hswap : (withPivot E s start last).A = s.A ∘ Equiv.swap (pivotIndex E s start last) last := swap_of_whole hwhole
      refine ⟨hwhole, ?_, ?_, fun i hi hi' => by omega, fun i hi hi' => by omega⟩
      · change Rearranged start last s.A (withPivot E s start last).A
        rw [hswap]
        exact rearranged_swap s.A ⟨hidx.1, hidx.2.le⟩ ⟨hlt.le, le_rfl⟩
      · rw [hpivot]
        exact swap_A_right E { s with calls := s.calls + 1 } _ last
  exact ⟨hrule.2, hrule.1.2⟩

/-- the pivot is at `p`, the elements up to it are before it and the larger ones behind it -/
structure Split (E : Env) (start last p : ℕ) (s t : St) : Prop where
  whole : Whole (s.A (pivotIndex E s start last))
  moved : Rearranged start last s.A t.A
  pivot : t.A p = s.A (pivotIndex E s start last)
  small : ∀ i, start ≤ i → i < p → (t.A i).le (t.A p) = true
  large : ∀ i, p < i → i ≤ last → (t.A i).le (t.A p) = false

/-- **Partition.** When nothing is lost, the range is split at the pivot. -/
theorem partition_lossy (hA : ∀ i < n, Fits (s.A i)) (hlt : start < last) (hlast : last < n) (hn : n ≤ 2 ^ 32)
    (h : partition E fuel s start last = some (p, t)) :
    Lossy n s.A t.A ∧ (total n t.A = total n s.A → Split E start last p s t) := by
  obtain ⟨u, hloop, rfl⟩ := partition_eq_some hlt (hlast.trans_le hn) h
  have hpv : (withPivot E s start last).A last = .ofNat (E.toUnsigned (s.A (pivotIndex E s start last))) :=
    swap_A_right E { s with calls := s.calls + 1 } _ last
  rw [hpv, toUnsigned_ofNat (toUnsigned_lt _ _)] at hloop
  obtain ⟨⟨hlo, hhi⟩, hu, hparted⟩ := partitionLoop_lossy hA hlt hlast hn rfl hloop
  have hswap := swap_lossy E hu.fits (hhi.trans_lt hlast) hlast
  refine ⟨hu.trans hswap, ?_⟩
  intro heq
  obtain ⟨hfirst, hsecond⟩ := hu.exact hswap heq
  obtain ⟨hwhole, hP⟩ := hparted hfirst
  have hexact := swap_of_whole (E := E) (b := last) (swap_exact hu.fits (hhi.trans_lt hlast) hlast hsecond)
  have hpivot := hP.pivot
  have hsmall := hP.small
  have hlarge := hP.large
  rw [ofNat_toUnsigned hwhole] at hpivot hsmall hlarge
  have at_p : (swap E u p last).A p = s.A (pivotIndex E s start last) := by
    rw [hexact, Function.comp_apply, Equiv.swap_apply_left, hpivot]
  refine ⟨hwhole, ?_, at_p, ?_, ?_⟩
  · rw [hexact]
    exact hP.moved.trans (rearranged_swap u.A ⟨hlo, hhi⟩ ⟨hlt.le, le_rfl⟩)
  · intro i hi hip
    rw [at_p, hexact, Function.comp_apply, Equiv.swap_apply_of_ne_of_ne (by omega) (by omega)]
    exact hsmall i hi hip
  · intro i hpi hi
    rw [at_p, hexact, Function.comp_apply]
    rcases Nat.lt_or_ge i last with hil | hil
    · rw [Equiv.swap_apply_of_ne_of_ne (by omega) (by omega)]
      exact hlarge i hpi.le hil
    · obtain rfl : i = last := le_antisymm hi hil
      rw [Equiv.swap_apply_right]
      exact hlarge p le_rfl hpi

/-! ## What sorts an array -/

theorem quicksort_lossy (hn : n ≤ 2 ^ 32) (h : quicksort E fuel s start last = some t) (hlast : last < n)
    (hA : ∀ i < n, Fits (s.A i)) : Lossy n s.A t.A := by
  refine quicksort_rule (R := fun _ hi s t => hi < n → (∀ i < n, Fits (s.A i)) → Lossy n s.A t.A) ?_ ?_
    (hlast.trans_le hn) h hlast hA
  · intro lo hi s _ _ hA
    exact .refl hA
  · intro fuel lo hi p s s₁ s₂ t hlt _ hp hlo hhi hleft hright hin hA
    have h₁ := (partition_lossy hA hlt hin hn hp).1
    have h₂ := hleft (by omega) h₁.fits
    exact (h₁.trans h₂).trans (hright hin h₂.fits)

/-- both sides of a split are put in order -/
theorem Split.ascends {s₁ s₂ : St} (h : Split E start last p s s₁) (hlo : start ≤ p) (hfits : ∀ i < n, Fits (s₁.A i))
    (hlast : last < n) (hhi : p ≤ last) (hleft : Rearranged start (p - 1) s₁.A s₂.A)
    (hright : Rearranged (p + 1) last s₂.A t.A) (hl : Ascends (fun a b => Double.le a b) start (p - 1) s₂.A)
    (hr : Ascends (fun a b => Double.le a b) (p + 1) last t.A) : Ascends (fun a b => Double.le a b) start last t.A := by
  have behind : ∀ i, p < i → s₂.A i = s₁.A i := fun i hi => hleft.outside (Or.inr (by omega))
  have before : ∀ i, i ≤ p → t.A i = s₂.A i := fun i hi => hright.outside (Or.inl (by omega))
  have at_p : t.A p = s₁.A p := (before p le_rfl).trans (hleft.at_end hlo)
  refine ascending_join Double.le_trans (p := p) ?_ ?_ ?_ hr
  · intro i hi hip
    obtain ⟨j, hj, heq⟩ := hleft.exists_inside (i := i) ⟨hi, by omega⟩
    rw [at_p, before i hip.le, heq]
    exact h.small j hj.1 (by omega)
  · intro i hpi hi
    obtain ⟨j, hj, heq⟩ := hright.exists_inside (i := i) ⟨hpi, hi⟩
    rw [at_p, heq, behind j (by omega)]
    exact le_of_not_le (hfits j (by omega)) (hfits p (by omega)) (h.large j (by omega) hj.2)
  · intro i j hi hij hj
    have hjp : j ≤ p := by omega
    rw [before i (by omega), before j hjp]
    exact hl i j hi hij hj

/-- **Quicksort.** When nothing is lost, the range is sorted. -/
theorem quicksort_exact (hn : n ≤ 2 ^ 32) (h : quicksort E fuel s start last = some t) (hlast : last < n)
    (hA : ∀ i < n, Fits (s.A i)) (heq : total n t.A = total n s.A) :
    Rearranged start last s.A t.A ∧ Ascends (fun a b => Double.le a b) start last t.A := by
  have hboth : Lossy n s.A t.A ∧ (total n t.A = total n s.A →
      Rearranged start last s.A t.A ∧ Ascends (fun a b => Double.le a b) start last t.A) := by
    refine quicksort_rule (R := fun lo hi s t => hi < n → (∀ i < n, Fits (s.A i)) → Lossy n s.A t.A ∧
      (total n t.A = total n s.A → Rearranged lo hi s.A t.A ∧ Ascends (fun a b => Double.le a b) lo hi t.A)) ?_ ?_
      (hlast.trans_le hn) h hlast hA
    · intro lo hi s hle _ hA
      exact ⟨.refl hA, fun _ => ⟨.refl lo hi s.A, ascends_of_le s.A hle⟩⟩
    · intro fuel lo hi p s s₁ s₂ t hlt _ hp hlo hhi hleft hright hin hA
      obtain ⟨h₁, hsplit⟩ := partition_lossy hA hlt hin hn hp
      obtain ⟨h₂, hleft⟩ := hleft (by omega) h₁.fits
      obtain ⟨h₃, hright⟩ := hright hin h₂.fits
      refine ⟨(h₁.trans h₂).trans h₃, ?_⟩
      intro heq
      obtain ⟨heq₂, heq₃⟩ := (h₁.trans h₂).exact h₃ heq
      obtain ⟨heq₁, heq₂⟩ := h₁.exact h₂ heq₂
      obtain ⟨hm, ha⟩ := hleft heq₂
      obtain ⟨hm', ha'⟩ := hright heq₃
      refine ⟨?_, (hsplit heq₁).ascends hlo h₁.fits hin hhi hm hm' ha ha'⟩
      have hl : Rearranged lo hi s₁.A s₂.A := hm.mono le_rfl ((Nat.sub_le p 1).trans hhi)
      have hr : Rearranged lo hi s₂.A t.A := hm'.mono (hlo.trans (Nat.le_succ p)) le_rfl
      exact ((hsplit heq₁).moved.trans hl).trans hr
  exact hboth.2 heq

/-! ## Whole elements -/

theorem swap_rearranged {a b lo hi : ℕ} (hA : Whole (s.A a)) (ha : lo ≤ a ∧ a ≤ hi) (hb : lo ≤ b ∧ b ≤ hi) :
    Rearranged lo hi s.A (swap E s a b).A := by
  rw [swap_of_whole hA]
  exact rearranged_swap s.A ha hb

theorem partition_whole (hA : ∀ i, start ≤ i → i ≤ last → Whole (s.A i)) (hlt : start < last) (hlast : last < 2 ^ 32)
    (h : partition E fuel s start last = some (p, t)) : Rearranged start last s.A t.A := by
  obtain ⟨u, hloop, rfl⟩ := partition_eq_some hlt hlast h
  have hidx := pivotIndex_bounds (E := E) (s := s) hlt
  have hrule : (start ≤ p ∧ Rearranged start last s.A u.A) ∧ start ≤ p ∧ p ≤ last := by
    refine partitionLoop_rule (I := fun _ target u => start ≤ target ∧ Rearranged start last s.A u.A) hlast ?_ ?_ hloop ?_
      le_rfl hlt.le
    · intro index target u hI htarget hindex _
      have hwhole := hI.2.forall_inside hA target hI.1 (by omega)
      refine ⟨by omega, hI.2.trans (swap_rearranged (s := u.read index) hwhole ?_ ?_)⟩
      · exact ⟨hI.1, by omega⟩
      · exact ⟨by omega, hindex.le⟩
    · intro index target u hI _ _ _
      exact hI
    · refine ⟨le_rfl, swap_rearranged (s := { s with calls := s.calls + 1 }) ?_ ⟨hidx.1, hidx.2.le⟩ ⟨hlt.le, le_rfl⟩⟩
      exact hA _ hidx.1 hidx.2.le
  obtain ⟨⟨hlo, hmoved⟩, -, hhi⟩ := hrule
  exact hmoved.trans (swap_rearranged (hmoved.forall_inside hA p hlo hhi) ⟨hlo, hhi⟩ ⟨hlt.le, le_rfl⟩)

/-- what an `unsigned` can hold is not lost -/
theorem quicksort_whole (h : quicksort E fuel s start last = some t) (hlast : last < 2 ^ 32)
    (hA : ∀ i, start ≤ i → i ≤ last → Whole (s.A i)) : Rearranged start last s.A t.A := by
  refine quicksort_rule (R := fun lo hi s t => (∀ i, lo ≤ i → i ≤ hi → Whole (s.A i)) → Rearranged lo hi s.A t.A) ?_ ?_
    hlast h hA
  · intro lo hi s _ _
    exact .refl lo hi s.A
  · intro fuel lo hi p s s₁ s₂ t hlt hlast hp hlo hhi hleft hright hA
    have h₁ := partition_whole hA hlt hlast hp
    have hA₁ := h₁.forall_inside hA
    have hp' : p - 1 ≤ hi := (Nat.sub_le p 1).trans hhi
    have h₂ := (hleft fun i hi hip => hA₁ i hi (hip.trans hp')).mono (le_refl lo) hp'
    have hA₂ := h₂.forall_inside hA₁
    have hlop : lo ≤ p + 1 := hlo.trans (Nat.le_succ p)
    have h₃ := (hright fun i hip hi => hA₂ i (hlop.trans hip) hi).mono hlop (le_refl hi)
    exact (h₁.trans h₂).trans h₃

/-! ## Result -/

/-- **Quicksort sorts** whatever `unsigned` values there are, for every sequence of random numbers. It ends, accesses its
range and nothing else, and leaves there what it has found in ascending order; and `end - start`, `pivot - 1` and
`pivot + 1` do not wrap. -/
theorem quicksort_sorts (E : Env) (s : St) (n start last : ℕ) (hA : ∀ i < n, Whole (s.A i)) (hn : n ≤ 2 ^ 32)
    (hle : start ≤ last) (hlast : last < n) :
    (∀ fuel, last - start + 2 ≤ fuel → ∃ t, quicksort E fuel s start last = some t ∧ Within start last s t ∧
      Ascends (fun a b => Double.le a b) start last t.A ∧
      values (Finset.Icc start last) t.A = values (Finset.Icc start last) s.A) ∧
    ∀ lo hi p, Partitions E s start last lo hi p → (subU hi lo : ℤ) = hi - lo ∧ (lo < p → (subU p 1 : ℤ) = p - 1) ∧
      (p < hi → (addU p 1 : ℤ) = p + 1) := by
  have hword : last < 2 ^ 32 := hlast.trans_le hn
  constructor
  · intro fuel hfuel
    obtain ⟨t, ht⟩ := quicksort_ends E s start hword hfuel
    have hfits : ∀ i < n, Fits (s.A i) := fun i hi => (hA i hi).fits
    have hkept := rearranged_total (quicksort_whole ht hword fun i _ hi => hA i (hi.trans_lt hlast)) hlast
    obtain ⟨hmoved, hsorted⟩ := quicksort_exact hn ht hlast hfits hkept
    exact ⟨t, ht, quicksort_within hword ht hle, hsorted, hmoved.values (Finset.Subset.refl _)⟩
  · intro lo hi p hp
    obtain ⟨-, hlt, hhi, hlop, hphi⟩ := partitions_bounds hp hword
    refine ⟨?_, ?_, ?_⟩
    · rw [subU_eq hlt.le (by omega)]
      exact Int.ofNat_sub hlt.le
    · intro hlt'
      rw [subU_eq (by omega) (by omega)]
      exact Int.ofNat_sub (by omega)
    · intro hlt'
      rw [addU_eq (by omega)]
      rfl

/-- an array with two equal elements -/
theorem quicksort_sorts_equal : ∃ t, quicksort ⟨fun _ => 1, fun _ => 0⟩ 4 ⟨fun i => .ofNat (5 - 2 * (i % 2)), 0, []⟩ 0 2 =
    some t ∧ Ascends (fun a b => Double.le a b) 0 2 t.A ∧ t.A 0 = .ofNat 3 := by
  have hA : ∀ i < 3, Whole (Double.ofNat (5 - 2 * (i % 2))) := fun i _ => ⟨_, rfl, by omega⟩
  obtain ⟨t, ht, -, hsorted, -⟩ := (quicksort_sorts ⟨fun _ => 1, fun _ => 0⟩
    ⟨fun i => .ofNat (5 - 2 * (i % 2)), 0, []⟩ 3 0 2 hA (by norm_num) (by norm_num) (by norm_num)).1 4 le_rfl
  have hfirst : (quicksort ⟨fun _ => 1, fun _ => 0⟩ 4 ⟨fun i => .ofNat (5 - 2 * (i % 2)), 0, []⟩ 0 2).map
      (fun t : St => t.A 0) = some (.ofNat 3) := by decide +kernel
  rw [ht] at hfirst
  exact ⟨t, ht, hsorted, Option.some.inj hfirst⟩

end Cse422.Sort
