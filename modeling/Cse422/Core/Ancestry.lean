/-
The path from an element up to the first root, when each element has one parent. Library: nothing here is about one
program.

- `PathUp.unique`, `PathUp.nodup`: there is at most one path, and it meets nothing twice;
- `exists_pathUp`: there is one when some ancestor is a root;
- `PathUp.getLast_root`: the last element is a root.
-/
import Mathlib.Tactic

namespace Ancestry

variable {α : Type*} {parent : α → α} {root : α → Prop} {a b : α} {p q : List α}

/-- `p` leads from an element up to the first root -/
inductive PathUp (parent : α → α) (root : α → Prop) : α → List α → Prop
  | root {a : α} : root a → PathUp parent root a [a]
  | up {a : α} {p : List α} : ¬ root a → PathUp parent root (parent a) p → PathUp parent root a (a :: p)

theorem PathUp.unique (hp : PathUp parent root a p) (hq : PathUp parent root a q) : p = q := by
  induction hp generalizing q with
  | root ha =>
    cases hq with
    | root => rfl
    | up hnot => exact absurd ha hnot
  | up hnot _ ih =>
    cases hq with
    | root ha => exact absurd ha hnot
    | up _ hq => rw [ih hq]

/-- the path of an element that a path meets -/
theorem PathUp.of_mem (hp : PathUp parent root a p) (hb : b ∈ p) : ∃ q, PathUp parent root b q ∧ q.length ≤ p.length := by
  induction hp with
  | root ha =>
    obtain rfl := List.mem_singleton.1 hb
    exact ⟨_, .root ha, le_rfl⟩
  | up hnot hp ih =>
    rcases List.mem_cons.1 hb with rfl | hb
    · exact ⟨_, .up hnot hp, le_rfl⟩
    · obtain ⟨q, hq, hle⟩ := ih hb
      exact ⟨q, hq, hle.trans (Nat.le_succ _)⟩

/-- an element that came again would have two paths -/
theorem PathUp.nodup (hp : PathUp parent root a p) : p.Nodup := by
  induction hp with
  | root => exact List.nodup_singleton _
  | @up a p hnot hp ih =>
    refine List.nodup_cons.2 ⟨fun ha => ?_, ih⟩
    obtain ⟨q, hq, hle⟩ := hp.of_mem ha
    have heq : a :: p = q := (PathUp.up hnot hp).unique hq
    rw [← heq, List.length_cons] at hle
    exact Nat.not_succ_le_self _ hle

theorem PathUp.ne_nil (hp : PathUp parent root a p) : p ≠ [] := by
  cases hp <;> exact List.cons_ne_nil _ _

theorem PathUp.getLast_root (hp : PathUp parent root a p) : root (p.getLast hp.ne_nil) := by
  induction hp with
  | root ha => exact ha
  | up hnot hp ih => rwa [List.getLast_cons hp.ne_nil]

theorem exists_pathUp [DecidablePred root] (n : ℕ) (h : root (parent^[n] a)) : ∃ p, PathUp parent root a p := by
  induction n generalizing a with
  | zero => exact ⟨[a], .root h⟩
  | succ n ih =>
    by_cases ha : root a
    · exact ⟨[a], .root ha⟩
    · obtain ⟨p, hp⟩ := ih (a := parent a) h
      exact ⟨a :: p, .up ha hp⟩

end Ancestry
