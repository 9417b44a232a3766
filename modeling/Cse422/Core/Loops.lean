/-
Counting loops that end. Library: nothing here is about one program.

`forLoop n body s` is `for (i = 0; i < n; i++)` with a body that changes the state and neither `i` nor `n`.

- `forLoop_succ`: the last turn;
- `forLoop_rule`: an invariant that each turn takes from `i` to `i + 1`;
- `forLoopM_rule`: the same for a body that may stop the program, which it does not when each turn goes through.
-/
import Mathlib.Tactic

namespace Loops

variable {σ : Type*} {n : ℕ} {s : σ}

def forLoop (n : ℕ) (body : σ → ℕ → σ) (s : σ) : σ := (List.range n).foldl body s

@[simp] theorem forLoop_zero (body : σ → ℕ → σ) (s : σ) : forLoop 0 body s = s := rfl

theorem forLoop_succ (n : ℕ) (body : σ → ℕ → σ) (s : σ) : forLoop (n + 1) body s = body (forLoop n body s) n := by
  rw [forLoop, List.range_succ, List.foldl_append]
  rfl

/-- **Loop rule.** -/
theorem forLoop_rule {I : ℕ → σ → Prop} {body : σ → ℕ → σ} (h0 : I 0 s) (hstep : ∀ i s, i < n → I i s → I (i + 1) (body s i)) :
    I n (forLoop n body s) := by
  have hupto : ∀ k ≤ n, I k (forLoop k body s) := by
    intro k
    induction k with
    | zero => exact fun _ => h0
    | succ k ih =>
      intro hk
      rw [forLoop_succ]
      exact hstep k _ hk (ih (Nat.le_of_succ_le hk))
  exact hupto n le_rfl

section Stopping

variable {ε : Type*}

def forLoopM (n : ℕ) (body : σ → ℕ → Except ε σ) (s : σ) : Except ε σ := (List.range n).foldlM body s

theorem forLoopM_succ (n : ℕ) (body : σ → ℕ → Except ε σ) (s : σ) :
    forLoopM (n + 1) body s = (forLoopM n body s).bind fun t => body t n := by
  rw [forLoopM, List.range_succ, List.foldlM_append]
  refine congrArg _ (funext fun t => ?_)
  cases hbody : body t n with
  | error e => simp only [List.foldlM_cons, hbody, bind, Except.bind]
  | ok u => simp only [List.foldlM_cons, List.foldlM_nil, hbody, bind, Except.bind, pure, Except.pure]

/-- **Loop rule** for a body that may stop. -/
theorem forLoopM_rule {I : ℕ → σ → Prop} {body : σ → ℕ → Except ε σ} (h0 : I 0 s)
    (hstep : ∀ i s, i < n → I i s → ∃ t, body s i = .ok t ∧ I (i + 1) t) : ∃ t, forLoopM n body s = .ok t ∧ I n t := by
  have hupto : ∀ k ≤ n, ∃ t, forLoopM k body s = .ok t ∧ I k t := by
    intro k
    induction k with
    | zero => exact fun _ => ⟨s, rfl, h0⟩
    | succ k ih =>
      intro hk
      obtain ⟨t, ht, hI⟩ := ih (Nat.le_of_succ_le hk)
      obtain ⟨u, hu, hI'⟩ := hstep k t hk hI
      refine ⟨u, ?_, hI'⟩
      rw [forLoopM_succ, ht]
      exact hu
  exact hupto n le_rfl

/-- a turn in which the program stops -/
theorem forLoopM_error {body : σ → ℕ → Except ε σ} {k : ℕ} {t : σ} {e : ε} (hk : k < n) (ht : forLoopM k body s = .ok t)
    (he : body t k = .error e) : forLoopM n body s = .error e := by
  have hupto : ∀ j, forLoopM (k + 1 + j) body s = .error e := by
    intro j
    induction j with
    | zero =>
      rw [Nat.add_zero, forLoopM_succ, ht]
      exact he
    | succ j ih =>
      rw [← Nat.add_assoc, forLoopM_succ, ih]
      rfl
  obtain ⟨j, rfl⟩ := Nat.exists_eq_add_of_lt hk
  rw [Nat.add_right_comm]
  exact hupto j

end Stopping

end Loops
