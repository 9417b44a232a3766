/-
Fractions are lost. The elements of the array are `double`, but the first operand of each exchange goes through the
`unsigned` temporary of `swap`.

- `canLose`: in a range with a fraction and another element there are results of `rand` that lose something;
- `keeps_values_iff`: `quicksort` keeps the values of its array for all results of `rand` if and only if its range has no
  fraction or at most one element;
- `half_lost`: a half becomes 0.

For one sequence of random numbers a fraction can survive: it is never the first operand when it is moved down past a
larger element and is alone there. The choice of the pivot decides this.
-/
import Cse422.Sort.Correct

namespace Cse422.Sort

open Segments

variable {E E' E'' : Env} {s t u s₁ s₂ : St} {fuel fuel' start last n p i : ℕ}

/-! ## The results of `rand` -/

/-- the two give the same results in the first `c` calls of `rand` -/
structure Agree (c : ℕ) (E E' : Env) : Prop where
  undef : E'.undef = E.undef
  rand : ∀ k < c, E'.rand k = E.rand k

theorem Agree.mono {c d : ℕ} (h : Agree d E E') (hcd : c ≤ d) : Agree c E E' :=
  ⟨h.undef, fun k hk => h.rand k (hk.trans_le hcd)⟩

theorem Agree.trans {c : ℕ} (h : Agree c E E') (h' : Agree c E' E'') : Agree c E E'' :=
  ⟨h'.undef.trans h.undef, fun k hk => (h'.rand k hk).trans (h.rand k hk)⟩

theorem Agree.refl (c : ℕ) (E : Env) : Agree c E E := ⟨rfl, fun _ _ => rfl⟩

/-- the next call of `rand` gives `r` -/
def Env.next (E : Env) (c : ℕ) (r : Fin (2 ^ 31)) : Env := { E with rand := Function.update E.rand c r }

theorem agree_next (E : Env) (c : ℕ) (r : Fin (2 ^ 31)) : Agree c E (E.next c r) where
  undef := rfl
  rand _ hk := Function.update_of_ne hk.ne _ _

theorem swap_congr (h : E'.undef = E.undef) : swap E' = swap E := by
  have hconv : E'.toUnsigned = E.toUnsigned := by
    funext d
    cases d <;> simp only [Env.toUnsigned, h]
  funext s a b
  simp only [swap, hconv]

theorem partitionLoop_congr {pivotVal index target : ℕ} {x : ℕ × St} (h : E'.undef = E.undef) (hle : fuel ≤ fuel')
    (hx : partitionLoop E last pivotVal fuel index target s = some x) :
    partitionLoop E' last pivotVal fuel' index target s = some x := by
  induction fuel generalizing fuel' index target s with
  | zero => cases hx
  | succ fuel ih =>
    obtain ⟨fuel', rfl⟩ := Nat.exists_eq_add_of_lt hle
    rw [partitionLoop] at hx ⊢
    rw [swap_congr h]
    split_ifs at hx ⊢ with hlt hval
    · exact ih (Nat.le_add_right _ _) hx
    · exact ih (Nat.le_add_right _ _) hx
    · exact hx

theorem partition_congr {x : ℕ × St} (h : Agree (s.calls + 1) E E') (hle : fuel ≤ fuel')
    (hx : partition E fuel s start last = some x) : partition E' fuel' s start last = some x := by
  obtain ⟨y, hy, rfl⟩ := Option.map_eq_some_iff.1 hx
  have hconv : E'.toUnsigned = E.toUnsigned := by
    funext d
    cases d <;> simp only [Env.toUnsigned, h.undef]
  have hloop := partitionLoop_congr h.undef hle hy
  simp only [partition, h.rand s.calls (Nat.lt_succ_self _), swap_congr h.undef, hconv]
  rw [hloop, Option.map_some]

theorem partition_calls (hlt : start < last) (hlast : last < 2 ^ 32)
    (h : partition E fuel s start last = some (p, t)) : t.calls = s.calls + 1 := by
  obtain ⟨u, hloop, rfl⟩ := partition_eq_some hlt hlast h
  exact (partitionLoop_rule (I := fun _ _ u => u.calls = s.calls + 1) hlast (fun _ _ _ hI _ _ _ => hI)
    (fun _ _ _ hI _ _ _ => hI) hloop rfl le_rfl hlt.le).1

theorem quicksort_calls (hlast : last < 2 ^ 32) (h : quicksort E fuel s start last = some t) : s.calls ≤ t.calls := by
  refine quicksort_rule (R := fun _ _ s t => s.calls ≤ t.calls) (fun _ _ _ _ => le_rfl) ?_ hlast h
  intro fuel lo hi p s s₁ s₂ t hlt hlast hp _ _ hleft hright
  have hcalls := partition_calls hlt hlast hp
  omega

/-- the part before the pivot or behind it, which `quicksort` leaves alone when it is empty -/
theorem part_calls {P Q : Prop} (hlast : last < 2 ^ 32)
    (h : (P ∧ quicksort E fuel s start last = some t) ∨ (Q ∧ t = s)) : s.calls ≤ t.calls := by
  rcases h with ⟨-, h⟩ | ⟨-, rfl⟩
  · exact quicksort_calls hlast h
  · exact le_rfl

theorem part_lossy {P Q : Prop} (hn : n ≤ 2 ^ 32) (hlast : last < n) (hA : ∀ i < n, Fits (s.A i))
    (h : (P ∧ quicksort E fuel s start last = some t) ∨ (Q ∧ t = s)) : Lossy n s.A t.A := by
  rcases h with ⟨-, h⟩ | ⟨-, rfl⟩
  · exact quicksort_lossy hn h hlast hA
  · exact .refl hA

/-- more fuel changes nothing, nor do the results of later calls of `rand` -/
theorem quicksort_congr (hlast : last < 2 ^ 32) (h : Agree t.calls E E') (hle : fuel ≤ fuel')
    (ht : quicksort E fuel s start last = some t) : quicksort E' fuel' s start last = some t := by
  induction fuel generalizing fuel' s t start last with
  | zero => cases ht
  | succ fuel ih =>
    obtain ⟨fuel', rfl⟩ := Nat.exists_eq_add_of_lt hle
    have hmore : fuel ≤ fuel + fuel' := Nat.le_add_right _ _
    rcases Nat.lt_or_ge start last with hlt | hge
    · obtain ⟨p, s₁, s₂, hp, hlo, hhi, hleft, hright⟩ := quicksort_eq_some hlt hlast ht
      have hcalls := partition_calls hlt hlast hp
      have hcalls₂ : s₁.calls ≤ s₂.calls := part_calls (by omega) hleft
      have hcalls₃ : s₂.calls ≤ t.calls := part_calls hlast hright
      rw [quicksort, if_pos hlt, partition_congr (h.mono (by omega)) hmore hp, Option.bind_some]
      have hl : (if start < p then quicksort E' (fuel + fuel') s₁ start (subU p 1) else some s₁) = some s₂ := by
        rcases hleft with ⟨hlp, hleft⟩ | ⟨rfl, rfl⟩
        · rw [if_pos hlp, subU_eq (by omega) (by omega)]
          exact ih (by omega) (h.mono hcalls₃) hmore hleft
        · exact if_neg (lt_irrefl _)
      simp only [hl, Option.bind_some]
      rcases hright with ⟨hpl, hright⟩ | ⟨rfl, rfl⟩
      · rw [if_pos hpl, addU_eq (by omega)]
        exact ih hlast h hmore hright
      · exact if_neg (lt_irrefl _)
    · rw [quicksort_of_le hge] at ht ⊢
      exact ht

theorem quicksort_unique (hlast : last < 2 ^ 32) (h : Agree t.calls E E') (ht : quicksort E fuel s start last = some t)
    (hu : quicksort E' fuel' s start last = some u) : u = t := by
  have ht' := quicksort_congr hlast h (le_max_left fuel fuel') ht
  have hu' := quicksort_congr hlast (.refl u.calls E') (le_max_right fuel fuel') hu
  exact Option.some.inj (hu'.symm.trans ht')

theorem partition_unique {x y : ℕ × St} (h : Agree (s.calls + 1) E E') (hx : partition E fuel s start last = some x)
    (hy : partition E' fuel' s start last = some y) : x = y := by
  have hx' := partition_congr h (le_max_left fuel fuel') hx
  have hy' := partition_congr (.refl (s.calls + 1) E') (le_max_right fuel fuel') hy
  exact Option.some.inj (hx'.symm.trans hy')

/-! ## Losses -/

/-- with some results of `rand` from here on, a call of `quicksort` loses something -/
def CanLose (n : ℕ) (E : Env) (s : St) (start last : ℕ) : Prop :=
  ∃ E', Agree s.calls E E' ∧ ∀ fuel t, quicksort E' fuel s start last = some t → total n t.A < total n s.A

section CanLose

variable (hA : ∀ i < n, Fits (s.A i)) (hn : n ≤ 2 ^ 32) (hlt : start < last) (hlast : last < n)
include hA hn hlt hlast

/-- `partition` loses something -/
theorem canLose_of_partition (hE : Agree s.calls E E') (hp : partition E' fuel s start last = some (p, s₁))
    (hloss : total n s₁.A < total n s.A) : CanLose n E s start last := by
  refine ⟨E', hE, ?_⟩
  intro fuel t ht
  cases fuel with
  | zero => cases ht
  | succ fuel =>
    have hword : last < 2 ^ 32 := hlast.trans_le hn
    obtain ⟨q, u₁, u₂, hq, hlo, hhi, hleft, hright⟩ := quicksort_eq_some hlt hword ht
    obtain ⟨rfl, rfl⟩ := Prod.mk.inj (partition_unique (.refl _ E') hp hq)
    have h₁ := (partition_lossy hA hlt hlast hn hp).1
    have h₂ : Lossy n s₁.A u₂.A := part_lossy hn (by omega) h₁.fits hleft
    have h₃ : Lossy n u₂.A t.A := part_lossy hn hlast h₂.fits hright
    exact ((h₂.trans h₃).total_le).trans_lt hloss

/-- what is before the pivot can lose something -/
theorem canLose_of_left (hE : Agree s.calls E E') (hp : partition E' fuel s start last = some (p, s₁)) (hlp : start < p)
    (h : CanLose n E' s₁ start (p - 1)) : CanLose n E s start last := by
  have hword : last < 2 ^ 32 := hlast.trans_le hn
  obtain ⟨E'', hE'', hloss⟩ := h
  rw [partition_calls hlt hword hp] at hE''
  refine ⟨E'', hE.trans (hE''.mono (Nat.le_succ _)), ?_⟩
  intro fuel t ht
  cases fuel with
  | zero => cases ht
  | succ fuel =>
    obtain ⟨q, u₁, u₂, hq, hlo, hhi, hleft, hright⟩ := quicksort_eq_some hlt hword ht
    obtain ⟨rfl, rfl⟩ := Prod.mk.inj (partition_unique hE'' hp hq)
    have h₁ := (partition_lossy hA hlt hlast hn hp).1
    rcases hleft with ⟨-, hleft⟩ | ⟨heq, -⟩
    · have h₂ := quicksort_lossy hn hleft (by omega) h₁.fits
      have h₃ : Lossy n u₂.A t.A := part_lossy hn hlast h₂.fits hright
      exact (h₃.total_le.trans_lt (hloss _ _ hleft)).trans_le h₁.total_le
    · exact absurd heq hlp.ne'

/-- what is behind the pivot can lose something, once what is before it has been sorted -/
theorem canLose_of_right (hE : Agree s.calls E E') (hp : partition E' fuel s start last = some (p, s₁))
    (hleft : (start < p ∧ quicksort E' fuel' s₁ start (p - 1) = some s₂) ∨ (p = start ∧ s₂ = s₁)) (hpl : p < last)
    (h : CanLose n E' s₂ (p + 1) last) : CanLose n E s start last := by
  have hword : last < 2 ^ 32 := hlast.trans_le hn
  have hcalls := partition_calls hlt hword hp
  have hcalls₂ : s₁.calls ≤ s₂.calls := part_calls (by omega) hleft
  have h₁ := (partition_lossy hA hlt hlast hn hp).1
  have h₂ : Lossy n s₁.A s₂.A := part_lossy hn (by omega) h₁.fits hleft
  obtain ⟨E'', hE'', hloss⟩ := h
  refine ⟨E'', hE.trans (hE''.mono (by omega)), ?_⟩
  intro fuel t ht
  cases fuel with
  | zero => cases ht
  | succ fuel =>
    obtain ⟨q, u₁, u₂, hq, hlo, hhi, hleft', hright⟩ := quicksort_eq_some hlt hword ht
    obtain ⟨rfl, rfl⟩ := Prod.mk.inj (partition_unique (hE''.mono (by omega)) hp hq)
    have hu₂ : u₂ = s₂ := by
      rcases hleft with ⟨hlp, hleft⟩ | ⟨heq, rfl⟩
      · rcases hleft' with ⟨-, hleft'⟩ | ⟨heq, -⟩
        · exact quicksort_unique (by omega) hE'' hleft hleft'
        · exact absurd heq hlp.ne'
      · rcases hleft' with ⟨hlp, -⟩ | ⟨-, rfl⟩
        · exact absurd heq hlp.ne'
        · rfl
    subst hu₂
    rcases hright with ⟨-, hright⟩ | ⟨heq, -⟩
    · exact (hloss _ _ hright).trans_le (h₁.trans h₂).total_le
    · exact absurd heq hpl.ne

end CanLose

/-! ## Fractions -/

theorem pivotIndex_next (E : Env) (s : St) (r : Fin (2 ^ 31)) :
    pivotIndex (E.next s.calls r) s start last = start + (r : ℕ) % (last - start) := by
  simp only [pivotIndex, Env.next, Function.update_self]

/-- with the first element as the pivot, a fraction in the last one comes to the first place and is lost there -/
theorem last_lost (hA : ∀ i < n, Fits (s.A i)) (hn : n ≤ 2 ^ 32) (hlt : start < last) (hlast : last < n)
    (hidx : pivotIndex E s start last = start) (hfrac : ¬ Whole (s.A last))
    (h : partition E fuel s start last = some (p, t)) : total n t.A < total n s.A := by
  obtain ⟨u, hloop, rfl⟩ := partition_eq_some hlt (hlast.trans_le hn) h
  have hfirst := withPivot_lossy (E := E) hA hlt hlast
  have hrule : (Lossy n s.A u.A ∧ (total n u.A = total n s.A → p = start ∧ ¬ Whole (u.A start))) ∧ start ≤ p ∧ p ≤ last := by
    refine partitionLoop_rule (I := fun _ target u => Lossy n s.A u.A ∧
      (total n u.A = total n s.A → target = start ∧ ¬ Whole (u.A start))) (hlast.trans_le hn) ?_ ?_ hloop ?_ le_rfl hlt.le
    · intro index target u hI htarget hindex _
      obtain ⟨hu, hkept⟩ := hI
      have hswap := swap_lossy E (s := u.read index) hu.fits (a := target) (b := index) (by omega) (by omega)
      refine ⟨hu.trans hswap, ?_⟩
      intro heq
      obtain ⟨heq₁, heq₂⟩ := hu.exact hswap heq
      obtain ⟨rfl, hnot⟩ := hkept heq₁
      exact absurd (swap_exact (s := u.read index) hu.fits (by omega) (by omega) heq₂) hnot
    · intro index target u hI _ _ _
      exact hI
    · refine ⟨hfirst, fun heq => ⟨rfl, ?_⟩⟩
      have hwhole : Whole (s.A (pivotIndex E s start last)) :=
        swap_exact (s := { s with calls := s.calls + 1 }) hA (by omega) hlast heq
      have hswap : (withPivot E s start last).A = s.A ∘ Equiv.swap (pivotIndex E s start last) last := swap_of_whole hwhole
      have hstart : (withPivot E s start last).A start = s.A last := by
        rw [hswap, hidx, Function.comp_apply, Equiv.swap_apply_left]
      change ¬ Whole ((withPivot E s start last).A start)
      rwa [hstart]
  obtain ⟨⟨hu, hkept⟩, -, hhi⟩ := hrule
  have hswap := swap_lossy E hu.fits (hhi.trans_lt hlast) hlast
  apply lt_of_le_of_ne (hu.trans hswap).total_le
  intro heq
  obtain ⟨heq₁, heq₂⟩ := hu.exact hswap heq
  obtain ⟨rfl, hnot⟩ := hkept heq₁
  exact hnot (swap_exact hu.fits (by omega) hlast heq₂)

/-- the last exchange leaves a whole number behind the pivot -/
theorem partition_last (hlt : start < last) (hlast : last < 2 ^ 32)
    (h : partition E fuel s start last = some (p, t)) : Whole (t.A last) := by
  obtain ⟨u, -, rfl⟩ := partition_eq_some hlt hlast h
  rw [swap_A_right]
  exact whole_toUnsigned E (u.A p)

/-- an element up to the pivot is not behind it -/
theorem Split.le_of_small (h : Split E start last p s t) (hlast : i ≤ last)
    (hle : (t.A i).le (s.A (pivotIndex E s start last)) = true) : i ≤ p := by
  by_contra hgt
  have hlarge := h.large i (not_le.1 hgt) hlast
  rw [h.pivot, hle] at hlarge
  cases hlarge

/-- with three elements up to the pivot, two of them are before it -/
theorem Split.three (h : Split E start last p s t) {a b c : ℕ} (hab : a ≠ b) (hac : a ≠ c) (hbc : b ≠ c)
    (hin : ∀ x ∈ [a, b, c], (start ≤ x ∧ x ≤ last) ∧ (s.A x).le (s.A (pivotIndex E s start last)) = true) :
    start + 2 ≤ p := by
  obtain ⟨pos, hinj, hpos⟩ := h.moved.exists_position
  have small : ∀ x ∈ [a, b, c], start ≤ pos x ∧ pos x ≤ p := by
    intro x hx
    obtain ⟨hb, hle⟩ := hin x hx
    obtain ⟨hpx, hval⟩ := hpos x hb.1 hb.2
    exact ⟨hpx.1, h.le_of_small hpx.2 (hval ▸ hle)⟩
  have ha := small a (by simp)
  have hb := small b (by simp)
  have hc := small c (by simp)
  have hab' := hinj.ne hab
  have hac' := hinj.ne hac
  have hbc' := hinj.ne hbc
  omega

theorem le_self {d : Double} (h : Fits d) : d.le d = true := by
  obtain ⟨q, rfl, -⟩ := h
  simp [Double.le]

/-- an element that is alone before the first pivot is not alone before the second one -/
theorem Split.second (hA : ∀ i < n, Fits (s.A i)) (hlast : last < n) {q : ℕ} (h : Split E start last (start + 1) s s₁)
    (hidx : pivotIndex E s start last = start) (h' : Split E' start last q s s₂)
    (hidx' : pivotIndex E' s start last = start + 1) (hi : start + 1 < i ∧ i ≤ last)
    (hle : (s.A i).le (s.A start) = true) : start + 2 ≤ q ∧ (s.A i).le (s.A (start + 1)) = true := by
  have hfirst : Fits (s.A start) := hA start (by omega)
  have hsecond : Fits (s.A (start + 1)) := hA (start + 1) (by omega)
  have hgt : (s.A (start + 1)).le (s.A start) = false := by
    by_contra hnot
    rw [Bool.not_eq_false] at hnot
    have hthree := h.three (a := start) (b := start + 1) (c := i) (by omega) (by omega) (by omega) (by
      rw [hidx]
      simp only [List.mem_cons, List.not_mem_nil, or_false]
      rintro x (rfl | rfl | rfl)
      · exact ⟨by omega, le_self hfirst⟩
      · exact ⟨by omega, hnot⟩
      · exact ⟨by omega, hle⟩)
    omega
  have hlt := le_of_not_le hsecond hfirst hgt
  have hle' := Double.le_trans _ _ _ hle hlt
  refine ⟨h'.three (a := start) (b := start + 1) (c := i) (by omega) (by omega) (by omega) ?_, hle'⟩
  rw [hidx']
  simp only [List.mem_cons, List.not_mem_nil, or_false]
  rintro x (rfl | rfl | rfl)
  · exact ⟨by omega, hlt⟩
  · exact ⟨by omega, le_self hsecond⟩
  · exact ⟨by omega, hle'⟩

/-- A fraction that is alone before the first element as the pivot. With the second one as the pivot it has company
there, and `hless` is what is known of shorter ranges. -/
theorem canLose_of_alone (hA : ∀ i < n, Fits (s.A i)) (hn : n ≤ 2 ^ 32) (hlast : last < n) (hi : start < i ∧ i ≤ last)
    (hfrac : ¬ Whole (s.A i)) (hS : Split E start last (start + 1) s s₁) (hidx : pivotIndex E s start last = start)
    (hle : (s.A i).le (s.A start) = true) (hmore : start + 1 < last)
    (hless : ∀ {E : Env} {u : St} {q j : ℕ}, (∀ i < n, Fits (u.A i)) → start + 2 ≤ q → q ≤ last → start ≤ j → j < q →
      ¬ Whole (u.A j) → CanLose n E u start (q - 1)) : CanLose n E' s start last := by
  have hlt : start < last := hi.1.trans_le hi.2
  have hword : last < 2 ^ 32 := hlast.trans_le hn
  have hagree := agree_next E' s.calls 1
  obtain ⟨q, u₁, hq⟩ := partition_ends (E'.next s.calls 1) s hlt hword (Nat.lt_succ_self _)
  obtain ⟨h₁, hsplit⟩ := partition_lossy hA hlt hlast hn hq
  have hidx' : pivotIndex (E'.next s.calls 1) s start last = start + 1 := by
    rw [pivotIndex_next, Nat.mod_eq_of_lt]
    · rfl
    · change 1 < last - start
      omega
  rcases h₁.total_le.lt_or_eq with hloss | heq
  · exact canLose_of_partition hA hn hlt hlast hagree hq hloss
  have hS' := hsplit heq
  have hisecond : i ≠ start + 1 := by
    rintro rfl
    exact hfrac (hidx' ▸ hS'.whole)
  obtain ⟨htwo, hle'⟩ := hS.second hA hlast hidx hS' hidx' (by omega) hle
  obtain ⟨pos, -, hpos⟩ := hS'.moved.exists_position
  obtain ⟨hj, hval⟩ := hpos i hi.1.le hi.2
  have hjq : pos i ≤ q := hS'.le_of_small hj.2 (by rw [hval, hidx']; exact hle')
  rw [← hval] at hfrac
  have hne : pos i ≠ q := by
    intro heq
    rw [heq, hS'.pivot] at hfrac
    exact hfrac hS'.whole
  obtain ⟨-, hqlast⟩ := partition_bounds hlt hword hq
  exact canLose_of_left hA hn hlt hlast hagree hq (by omega)
    (hless h₁.fits htwo hqlast hj.1 (hjq.lt_of_ne hne) hfrac)

/-- sorting what is before the pivot ends, and leaves what is behind it where it is -/
theorem exists_left_sorted (E : Env) (hn : n ≤ 2 ^ 32) (hA : ∀ i < n, Fits (s.A i)) (hp : p < n) (hstart : start ≤ p) :
    ∃ fuel t, ((start < p ∧ quicksort E fuel s start (p - 1) = some t) ∨ (p = start ∧ t = s)) ∧
      (∀ i < n, Fits (t.A i)) ∧ ∀ j, p < j → t.A j = s.A j := by
  rcases hstart.lt_or_eq with hlp | rfl
  · have hprev : p - 1 < 2 ^ 32 := by omega
    obtain ⟨t, ht⟩ := quicksort_ends E s start hprev le_rfl
    refine ⟨_, t, Or.inl ⟨hlp, ht⟩, (quicksort_lossy hn ht (by omega) hA).fits, fun j hj => ?_⟩
    exact (quicksort_within hprev ht (by omega)).frame _ (by omega)
  · exact ⟨0, s, Or.inr ⟨rfl, rfl⟩, hA, fun _ _ => rfl⟩

/-- **A fraction can be lost** wherever it is, as long as there is another element. -/
theorem canLose (hA : ∀ i < n, Fits (s.A i)) (hn : n ≤ 2 ^ 32) (hlt : start < last) (hlast : last < n) (hlo : start ≤ i)
    (hhi : i ≤ last) (hfrac : ¬ Whole (s.A i)) : CanLose n E s start last := by
  induction hk : last - start using Nat.strong_induction_on generalizing s start last i E with
  | _ k ih =>
    have hword : last < 2 ^ 32 := hlast.trans_le hn
    -- the first element is the pivot
    obtain ⟨p, s₁, hp⟩ := partition_ends (E.next s.calls 0) s hlt hword (Nat.lt_succ_self _)
    obtain ⟨h₁, hsplit⟩ := partition_lossy hA hlt hlast hn hp
    have hagree := agree_next E s.calls 0
    have hidx : pivotIndex (E.next s.calls 0) s start last = start := by
      rw [pivotIndex_next]
      simp
    rcases h₁.total_le.lt_or_eq with hloss | heq
    · exact canLose_of_partition hA hn hlt hlast hagree hp hloss
    have hS := hsplit heq
    obtain ⟨hstart, hend⟩ := partition_bounds hlt hword hp
    have hpivot : Whole (s₁.A p) := hS.pivot ▸ hS.whole
    obtain ⟨pos, hinj, hpos⟩ := hS.moved.exists_position
    obtain ⟨hj, hval⟩ := hpos i hlo hhi
    have histart : i ≠ start := by
      rintro rfl
      exact hfrac (hidx ▸ hS.whole)
    have hilast : i ≠ last := by
      rintro rfl
      exact (last_lost hA hn hlt hlast hidx hfrac hp).ne heq
    have hfrac' : ¬ Whole (s₁.A (pos i)) := hval.symm ▸ hfrac
    have hjlast : pos i ≠ last := fun heq => hfrac' (heq ▸ partition_last hlt hword hp)
    rcases lt_trichotomy (pos i) p with hjp | heq | hjp
    · rcases Nat.lt_or_ge start (p - 1) with hmore | hone
      · exact canLose_of_left hA hn hlt hlast hagree hp (by omega)
          (ih (p - 1 - start) (by omega) h₁.fits hmore (by omega) hj.1 (by omega) hfrac' rfl)
      · obtain rfl : p = start + 1 := by omega
        have hle := hS.small (pos i) hj.1 hjp
        rw [hval, hS.pivot, hidx] at hle
        refine canLose_of_alone hA hn hlast (by omega) hfrac hS hidx hle (by omega) ?_
        intro E u q j hu hq hqlast hj hjq hfrac
        exact ih (q - 1 - start) (by omega) hu (by omega) (by omega) hj (by omega) hfrac rfl
    · exact absurd (heq ▸ hpivot) hfrac'
    · obtain ⟨fuel, s₂, hleft, hfits, hframe⟩ :=
        exists_left_sorted (E.next s.calls 0) hn h₁.fits (hend.trans_lt hlast) hstart
      rw [← hframe (pos i) hjp] at hfrac'
      exact canLose_of_right hA hn hlt hlast hagree hp hleft (by omega)
        (ih (last - (p + 1)) (by omega) hfits (by omega) hlast hjp hj.2 hfrac' rfl)

/-! ## Result -/

/-- `quicksort` ends, and the array has the values it had -/
def KeepsValues (E : Env) (s : St) (n start last : ℕ) : Prop :=
  ∃ fuel t, quicksort E fuel s start last = some t ∧
    values (Finset.range n) t.A = values (Finset.range n) s.A

/-- **The values of the array are kept** for all results of `rand` if and only if the range has no fraction, or nothing
is exchanged at all. -/
theorem keeps_values_iff (s : St) (n start last : ℕ) (hA : ∀ i < n, Fits (s.A i)) (hn : n ≤ 2 ^ 32) (hlast : last < n) :
    (∀ E, KeepsValues E s n start last) ↔ last ≤ start ∨ ∀ i, start ≤ i → i ≤ last → Whole (s.A i) := by
  have hword : last < 2 ^ 32 := hlast.trans_le hn
  constructor
  · intro h
    rcases Nat.lt_or_ge start last with hlt | hge
    · refine Or.inr fun i hlo hhi => ?_
      by_contra hfrac
      obtain ⟨E, -, hloss⟩ := canLose (E := ⟨fun _ => 0, fun _ => 0⟩) hA hn hlt hlast hlo hhi hfrac
      obtain ⟨fuel, t, ht, hvalues⟩ := h E
      have hlt := hloss fuel t ht
      rw [total, hvalues] at hlt
      exact lt_irrefl _ hlt
    · exact Or.inl hge
  · rintro (hge | hwhole) E
    · exact ⟨1, s, quicksort_of_le hge 0, rfl⟩
    · obtain ⟨t, ht⟩ := quicksort_ends E s start hword le_rfl
      exact ⟨_, t, ht, rearranged_values (quicksort_whole ht hword hwhole) hlast⟩

/-- a half and a one, and `rand` gives 0 -/
def halfAndOne : St := ⟨fun i => if i = 0 then .finite (1 / 2) else .ofNat 1, 0, []⟩

def zeroes : Env := ⟨fun _ => 0, fun _ => 0⟩

theorem fits_halfAndOne : ∀ i < 2, Fits (halfAndOne.A i) := by
  intro i _
  simp only [halfAndOne]
  split_ifs
  · exact ⟨1 / 2, rfl, by norm_num, by norm_num⟩
  · exact Whole.fits ⟨1, rfl, by norm_num⟩

theorem not_whole_half : ¬ Whole (.finite (1 / 2)) := by
  rintro ⟨m, hm, -⟩
  have heq : (1 / 2 : ℚ) = m := Double.finite.inj hm
  have hcast : (1 : ℚ) = (2 * m : ℕ) := by
    push_cast
    linarith
  have hnat : 1 = 2 * m := by exact_mod_cast hcast
  omega

theorem keeps_values_half : ¬ ∀ E, KeepsValues E halfAndOne 2 0 1 := by
  rw [keeps_values_iff halfAndOne 2 0 1 fits_halfAndOne (by norm_num) (by norm_num)]
  rintro (hle | hwhole)
  · omega
  · exact not_whole_half (hwhole 0 le_rfl (by norm_num))

/-- **A half is lost.** The array is 0.5 and 1, and afterwards it is 0 and 1. -/
theorem half_lost : ((quicksort zeroes 3 halfAndOne 0 1).map fun t => (t.A 0, t.A 1)) = some (.ofNat 0, .ofNat 1) ∧
    ¬ KeepsValues zeroes halfAndOne 2 0 1 := by
  have hrun : ((quicksort zeroes 3 halfAndOne 0 1).map fun t => (t.A 0, t.A 1)) = some (.ofNat 0, .ofNat 1) := by
    decide +kernel
  refine ⟨hrun, ?_⟩
  rintro ⟨fuel, t, ht, hvalues⟩
  obtain ⟨u, hu, heq⟩ := Option.map_eq_some_iff.1 hrun
  obtain rfl := quicksort_unique (by norm_num) (.refl u.calls zeroes) hu ht
  obtain ⟨h0, h1⟩ := Prod.mk.inj heq
  have htotal : total 2 t.A = total 2 halfAndOne.A := by rw [total, hvalues, total]
  simp only [total_eq_sum, Finset.sum_range_succ, Finset.sum_range_zero, h0, h1] at htotal
  norm_num [halfAndOne, Double.toRat, Double.ofNat] at htotal

end Cse422.Sort
