/-
Threads that share a state and take atomic steps in any order. Library: nothing here is about one program.

One atomic step of a thread is `act : σ → ℓ → γ → Option (σ × ℓ)`: in the shared state, with the thread's local
state and an answer from outside, it gives the new shared and local state, or `none` when the thread has ended. A
`Pool` is a shared state and one local state for each thread; an input of the pool is the number of a thread and an
answer.

Proofs about pools are proof outlines: an assertion about the local state of each thread, and a relation between
the local states of any two of them (`Outline`), both of which may speak of the shared state.

- `steps_iff`: what a step of the pool does;
- `forall_others_iff`: a condition on the other threads can be checked, and with it a condition along a run;
- `Outline.set`: the outline holds after a step of one thread if that thread establishes its own assertion and the
  assertions and relations of the others are stable under the step;
- `countP_set`, `sum_map_set`: how a count of threads and a sum over them change with a step.
-/
import Cse422.Core.Lts

namespace Lts

universe u v w

structure Pool (σ : Type u) (ℓ : Type v) where
  shared : σ
  locals : List ℓ

section Steps

variable {σ : Type u} {ℓ : Type v} {γ : Type w}

/-- thread `i.1` takes a step with the answer `i.2` -/
def poolStep (act : σ → ℓ → γ → Option (σ × ℓ)) (p : Pool σ ℓ) (i : ℕ × γ) : Option (Pool σ ℓ) :=
  match p.locals[i.1]? with
  | none => none
  | some a => (act p.shared a i.2).map fun r => ⟨r.1, p.locals.set i.1 r.2⟩

def Steps (act : σ → ℓ → γ → Option (σ × ℓ)) (p : Pool σ ℓ) (i : ℕ × γ) (q : Pool σ ℓ) : Prop :=
  poolStep act p i = some q

variable {act : σ → ℓ → γ → Option (σ × ℓ)}

theorem steps_iff {p q : Pool σ ℓ} {i : ℕ × γ} :
    Steps act p i q ↔ ∃ a t b, p.locals[i.1]? = some a ∧ act p.shared a i.2 = some (t, b) ∧
      q = ⟨t, p.locals.set i.1 b⟩ := by
  unfold Steps poolStep
  cases p.locals[i.1]? with
  | none => simp
  | some a =>
    simp only [Option.map_eq_some_iff, Prod.exists, Option.some.injEq]
    constructor
    · intro ⟨t, b, h, hq⟩
      exact ⟨a, t, b, rfl, h, hq.symm⟩
    · intro ⟨a', t, b, ha, h, hq⟩
      subst ha
      exact ⟨t, b, h, hq.symm⟩

/-- the runs of a pool are the monadic folds of its step function -/
theorem run_pool_iff {p q : Pool σ ℓ} {l : List (ℕ × γ)} :
    Run (Steps act) p l q ↔ l.foldlM (poolStep act) p = some q := run_takes_iff

instance {Q : Pool σ ℓ → ℕ × γ → Pool σ ℓ → Prop} [∀ p i q, Decidable (Q p i q)] {p : Pool σ ℓ} {l : List (ℕ × γ)} :
    Decidable (Along (Steps act) Q p l) := decidableAlong (poolStep act) Q p l

/-- what is said of the threads other than one, as a check of finitely many -/
theorem forall_others_iff {ls : List ℓ} {i : ℕ} {P : ℓ → Prop} :
    (∀ j c, j ≠ i → ls[j]? = some c → P c) ↔ ∀ j < ls.length, j ≠ i → ∀ c ∈ ls[j]?, P c := by
  constructor
  · intro h j _ hji c hc
    exact h j c hji hc
  · intro h j c hji hc
    obtain ⟨hlt, -⟩ := List.getElem?_eq_some_iff.1 hc
    exact h j hlt hji c hc

instance decidableForallOthers {ls : List ℓ} {i : ℕ} {P : ℓ → Prop} [DecidablePred P] :
    Decidable (∀ j c, j ≠ i → ls[j]? = some c → P c) := decidable_of_iff _ forall_others_iff.symm

end Steps

/-! ## Proof outlines -/

section Outline

variable {ℓ : Type v}

/-- each thread satisfies its assertion, and any two of them are related -/
structure Outline (L : ℓ → Prop) (A : ℓ → ℓ → Prop) (ls : List ℓ) : Prop where
  each : ∀ a ∈ ls, L a
  apart : ∀ (i j : ℕ) (a b : ℓ), i ≠ j → ls[i]? = some a → ls[j]? = some b → A a b

variable {L L' : ℓ → Prop} {A A' : ℓ → ℓ → Prop} {ls : List ℓ} {i : ℕ} {a b c : ℓ}

theorem Outline.thread (h : Outline L A ls) (hi : ls[i]? = some a) : L a := h.each a (List.mem_of_getElem? hi)

/-- another thread than the one at `i`, by a difference of the local states -/
theorem Outline.other (h : Outline L A ls) (hi : ls[i]? = some a) (hc : c ∈ ls) (hne : c ≠ a) : A a c := by
  obtain ⟨j, hj⟩ := List.mem_iff_getElem?.1 hc
  refine h.apart i j a c ?_ hi hj
  intro hij
  subst hij
  rw [hi] at hj
  exact hne (Option.some.inj hj).symm

theorem getElem?_set_cases {j : ℕ} (h : (ls.set i b)[j]? = some c) : (j = i ∧ c = b) ∨ (j ≠ i ∧ ls[j]? = some c) := by
  rw [List.getElem?_set] at h
  split_ifs at h with hij hlt
  · exact Or.inl ⟨hij.symm, (Option.some.inj h).symm⟩
  · exact Or.inr ⟨fun hji => hij hji.symm, h⟩

/-- **Outline rule.** After a step of the thread at `i`, an outline holds if the thread satisfies its assertion,
and the assertions of the others and the relations are stable under the step. -/
theorem Outline.set (h : Outline L A ls) (hi : ls[i]? = some a) (symm : ∀ x y, A' x y → A' y x) (own : L' b)
    (keeps : ∀ (j : ℕ) (c : ℓ), j ≠ i → ls[j]? = some c → L c → A a c → L' c ∧ A' b c)
    (frame : ∀ (j : ℕ) (c d : ℓ), j ≠ i → ls[j]? = some c → L c → L d → A a c → A a d → A c d → A' c d) :
    Outline L' A' (ls.set i b) where
  each c hc := by
    obtain ⟨j, hj⟩ := List.mem_iff_getElem?.1 hc
    rcases getElem?_set_cases hj with ⟨-, rfl⟩ | ⟨hji, hj⟩
    · exact own
    · exact (keeps j c hji hj (h.thread hj) (h.apart i j a c hji.symm hi hj)).1
  apart j k c d hjk hj hk := by
    rcases getElem?_set_cases hj with ⟨rfl, rfl⟩ | ⟨hji, hc⟩
    · rcases getElem?_set_cases hk with ⟨rfl, -⟩ | ⟨hki, hd⟩
      · exact absurd rfl hjk
      · exact (keeps k d hki hd (h.thread hd) (h.apart j k a d hjk hi hd)).2
    · rcases getElem?_set_cases hk with ⟨rfl, rfl⟩ | ⟨hki, hd⟩
      · exact symm _ _ (keeps j c hji hc (h.thread hc) (h.apart k j a c hjk.symm hi hc)).2
      · exact frame j c d hji hc (h.thread hc) (h.thread hd) (h.apart i j a c hji.symm hi hc)
          (h.apart i k a d hki.symm hi hd) (h.apart j k c d hjk hc hd)

theorem mem_set_of_ne (hi : ls[i]? = some a) (hc : c ∈ ls) (hne : c ≠ a) : c ∈ ls.set i b := by
  obtain ⟨j, hj⟩ := List.mem_iff_getElem?.1 hc
  have hij : i ≠ j := by
    intro hij
    subst hij
    rw [hi] at hj
    exact hne (Option.some.inj hj).symm
  refine List.mem_iff_getElem?.2 ⟨j, ?_⟩
  rw [List.getElem?_set_ne hij, hj]

theorem mem_set_self (hi : ls[i]? = some a) : b ∈ ls.set i b := by
  obtain ⟨hlt, -⟩ := List.getElem?_eq_some_iff.1 hi
  exact List.mem_set hlt b

/-- a property that the stepping thread keeps stays true of all threads -/
theorem forall_mem_set {P : ℓ → Prop} (h : ∀ c ∈ ls, P c) (hb : P b) : ∀ c ∈ ls.set i b, P c := by
  intro c hc
  rcases List.mem_or_eq_of_mem_set hc with hc | rfl
  · exact h c hc
  · exact hb

/-- **Counting rule.** -/
theorem countP_set (q : ℓ → Bool) (hi : ls[i]? = some a) :
    (ls.set i b).countP q + (if q a then 1 else 0) = ls.countP q + (if q b then 1 else 0) := by
  obtain ⟨hlt, ha⟩ := List.getElem?_eq_some_iff.1 hi
  have hpos : (if q a then 1 else 0) ≤ ls.countP q := by
    split_ifs with hq
    · exact List.countP_pos_iff.2 ⟨a, List.mem_of_getElem? hi, hq⟩
    · exact Nat.zero_le _
  rw [List.countP_set hlt, ha]
  omega

theorem sum_map_set {M : Type*} [AddCommMonoid M] (f : ℓ → M) (hi : ls[i]? = some a) :
    ((ls.set i b).map f).sum + f a = (ls.map f).sum + f b := by
  induction ls generalizing i with
  | nil => cases hi
  | cons c ls ih =>
    cases i with
    | zero =>
      obtain rfl := Option.some.inj hi
      simp only [List.set_cons_zero, List.map_cons, List.sum_cons]
      abel
    | succ i =>
      simp only [List.set_cons_succ, List.map_cons, List.sum_cons]
      rw [add_assoc, ih hi, add_assoc]

end Outline

end Lts
