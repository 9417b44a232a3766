/-
Three nested counting loops, one test at a time. Library: nothing here is about one program.

`for (i = 0; i < n; ++i) for (j = 0; j < m; ++j) for (k = 0; k < l; ++k)` is at a `Place`, and a `step` from it is over,
moves to another place, or visits an `i, j, k` and moves on.

- `InRange.visit`: what is visited is in range;
- `done_move`, `done_visit`, `done_over`: what has been visited at a place (`Place.Done`), and that it is everything when
  the loops are over;
- `rest_move`, `rest_visit`: how many steps are left.
-/
import Mathlib.Tactic

namespace Nest

/-- at the test of a loop -/
inductive Place where
  | outer (i : ℕ)
  | middle (i j : ℕ)
  | inner (i j k : ℕ)
  deriving DecidableEq, Repr

inductive Turn where
  | over
  | move (q : Place)
  | visit (i j k : ℕ) (q : Place)
  deriving DecidableEq, Repr

def Place.step (n m l : ℕ) : Place → Turn
  | .outer i => if i < n then .move (.middle i 0) else .over
  | .middle i j => if j < m then .move (.inner i j 0) else .move (.outer (i + 1))
  | .inner i j k => if k < l then .visit i j k (.inner i j (k + 1)) else .move (.middle i (j + 1))

/-- the tests of the loops around the place have passed -/
def Place.InRange (n m : ℕ) : Place → Prop
  | .outer _ => True
  | .middle i _ => i < n
  | .inner i j _ => i < n ∧ j < m

variable {n m l : ℕ} {p q : Place}

theorem InRange.move (h : p.InRange n m) (hst : p.step n m l = .move q) : q.InRange n m := by
  cases p with
  | outer i =>
    simp only [Place.step] at hst
    split_ifs at hst with hi
    cases hst
    exact hi
  | middle i j =>
    simp only [Place.step] at hst
    split_ifs at hst with hj
    · cases hst
      exact ⟨h, hj⟩
    · cases hst
      trivial
  | inner i j k =>
    simp only [Place.step] at hst
    split_ifs at hst
    cases hst
    exact h.1

theorem InRange.visit (h : p.InRange n m) {i j k : ℕ} (hst : p.step n m l = .visit i j k q) :
    (i < n ∧ j < m ∧ k < l) ∧ q.InRange n m := by
  cases p with
  | outer i =>
    simp only [Place.step] at hst
    split_ifs at hst
  | middle i j =>
    simp only [Place.step] at hst
    split_ifs at hst
  | inner i j k =>
    simp only [Place.step] at hst
    split_ifs at hst with hk
    cases hst
    exact ⟨⟨h.1, h.2, hk⟩, h⟩

/-! ## What has been visited -/

/-- the body has been executed for `i, j, k` -/
def Place.Done : Place → ℕ → ℕ → ℕ → Prop
  | .outer i, i', _, _ => i' < i
  | .middle i j, i', j', _ => i' < i ∨ (i' = i ∧ j' < j)
  | .inner i j k, i', j', k' => i' < i ∨ (i' = i ∧ (j' < j ∨ (j' = j ∧ k' < k)))

theorem done_outer_zero {i j k : ℕ} : ¬ (Place.outer 0).Done i j k := Nat.not_lt_zero i

theorem done_move (h : p.step n m l = .move q) {i j k : ℕ} (hj : j < m) (hk : k < l) :
    q.Done i j k ↔ p.Done i j k := by
  cases p with
  | outer a =>
    simp only [Place.step] at h
    split_ifs at h
    cases h
    simp [Place.Done]
  | middle a b =>
    simp only [Place.step] at h
    split_ifs at h with hb
    · cases h
      simp [Place.Done]
    · cases h
      simp only [Place.Done]
      omega
  | inner a b c =>
    simp only [Place.step] at h
    split_ifs at h with hc
    cases h
    simp only [Place.Done]
    omega

theorem done_visit {a b c : ℕ} (h : p.step n m l = .visit a b c q) {i j k : ℕ} :
    q.Done i j k ↔ p.Done i j k ∨ (i = a ∧ j = b ∧ k = c) := by
  cases p with
  | outer a =>
    simp only [Place.step] at h
    split_ifs at h
  | middle a b =>
    simp only [Place.step] at h
    split_ifs at h
  | inner a b c =>
    simp only [Place.step] at h
    split_ifs at h
    cases h
    simp only [Place.Done]
    omega

theorem done_over (h : p.step n m l = .over) {i j k : ℕ} (hi : i < n) : p.Done i j k := by
  cases p with
  | outer a =>
    simp only [Place.step] at h
    split_ifs at h with ha
    exact lt_of_lt_of_le hi (not_lt.1 ha)
  | middle a b =>
    simp only [Place.step] at h
    split_ifs at h
  | inner a b c =>
    simp only [Place.step] at h
    split_ifs at h

/-! ## The loops end -/

/-- the steps that are left -/
def Place.rest (n m l : ℕ) : Place → ℕ
  | .outer i => (n - i) * (m * (l + 2) + 2)
  | .middle i j => (n - (i + 1)) * (m * (l + 2) + 2) + (m - j) * (l + 2) + 1
  | .inner i j k => (n - (i + 1)) * (m * (l + 2) + 2) + (m - (j + 1)) * (l + 2) + 1 + (l - k) + 1

theorem sub_mul_eq {a b : ℕ} (h : a < b) (c : ℕ) : (b - a) * c = (b - (a + 1)) * c + c := by
  have hsucc : b - a = b - (a + 1) + 1 := by omega
  rw [hsucc, Nat.add_mul, Nat.one_mul]

theorem rest_move (h : p.step n m l = .move q) : q.rest n m l < p.rest n m l := by
  cases p with
  | outer i =>
    simp only [Place.step] at h
    split_ifs at h with hi
    cases h
    simp only [Place.rest, sub_mul_eq hi, Nat.sub_zero]
    omega
  | middle i j =>
    simp only [Place.step] at h
    split_ifs at h with hj
    · cases h
      simp only [Place.rest, sub_mul_eq hj, Nat.sub_zero]
      omega
    · cases h
      simp only [Place.rest]
      omega
  | inner i j k =>
    simp only [Place.step] at h
    split_ifs at h with hk
    cases h
    simp only [Place.rest]
    omega

theorem rest_visit {i j k : ℕ} (h : p.step n m l = .visit i j k q) : q.rest n m l < p.rest n m l := by
  cases p with
  | outer i =>
    simp only [Place.step] at h
    split_ifs at h
  | middle i j =>
    simp only [Place.step] at h
    split_ifs at h
  | inner i j k =>
    simp only [Place.step] at h
    split_ifs at h
    cases h
    simp only [Place.rest]
    omega

end Nest
