/-
Queues of a fixed capacity. Library: nothing here is about one program.

A `Queue α cap` holds at most `cap` items, and says so in its type. `push` adds one at the end, and refuses when the
queue is full; `pop` takes the first. What both do is said once about the list of items (`push_eq_some`,
`pop_eq_some`), and whoever uses a queue reasons about that list.
-/
import Mathlib.Tactic

namespace Fifo

structure Queue (α : Type*) (cap : ℕ) where
  items : List α
  bounded : items.length ≤ cap
  deriving DecidableEq

variable {α : Type*} {cap : ℕ}

def empty : Queue α cap := ⟨[], Nat.zero_le cap⟩

def Queue.push (q : Queue α cap) (a : α) : Option (Queue α cap) :=
  if h : q.items.length < cap then some ⟨q.items ++ [a], by rw [List.length_append]; exact h⟩ else none

def Queue.pop : Queue α cap → Option (α × Queue α cap)
  | ⟨[], _⟩ => none
  | ⟨a :: l, h⟩ => some (a, ⟨l, (Nat.le_succ _).trans h⟩)

@[simp] theorem empty_items : (empty : Queue α cap).items = [] := rfl

theorem push_eq_some {q r : Queue α cap} {a : α} : q.push a = some r ↔ r.items = q.items ++ [a] := by
  unfold Queue.push
  constructor
  · intro h
    split_ifs at h
    exact (congrArg Queue.items (Option.some.inj h)).symm
  · intro h
    have hlt : q.items.length < cap := by
      have hr := r.bounded
      rw [h, List.length_append] at hr
      exact hr
    obtain ⟨items, hb⟩ := r
    obtain rfl : items = q.items ++ [a] := h
    rw [dif_pos hlt]

theorem push_eq_none {q : Queue α cap} {a : α} : q.push a = none ↔ cap ≤ q.items.length := by
  unfold Queue.push
  split_ifs with h
  · simp [h]
  · simp [Nat.le_of_not_lt h]

theorem pop_eq_some {q r : Queue α cap} {a : α} : q.pop = some (a, r) ↔ q.items = a :: r.items := by
  obtain ⟨items, hq⟩ := q
  obtain ⟨rest, hr⟩ := r
  cases items <;> simp [Queue.pop]

theorem pop_eq_none {q : Queue α cap} : q.pop = none ↔ q.items = [] := by
  obtain ⟨items, hq⟩ := q
  cases items <;> simp [Queue.pop]

/-- a queue with room takes an item -/
theorem exists_push {q : Queue α cap} (h : q.items.length < cap) (a : α) :
    ∃ r, q.push a = some r ∧ r.items = q.items ++ [a] := by
  cases hp : q.push a with
  | none => exact absurd (push_eq_none.1 hp) (Nat.not_le_of_lt h)
  | some r => exact ⟨r, rfl, push_eq_some.1 hp⟩

/-- a queue that is not empty gives its first item -/
theorem exists_pop {q : Queue α cap} {a : α} {l : List α} (h : q.items = a :: l) :
    ∃ r, q.pop = some (a, r) ∧ r.items = l := by
  obtain ⟨items, hq⟩ := q
  obtain rfl : items = a :: l := h
  exact ⟨_, rfl, rfl⟩

end Fifo
