/-
The bounds of the sort program. `quicksort` and `partition` take the last index of a range, and `main` passes the number
of elements, so the first exchange is with the element behind the array. The loop under VERIFY_CORRECT ends at
`array_size - 1` in `unsigned`, which for an empty array is the largest index there is.

- `sorts_its_array_iff`: the program stays within its array, and leaves there what it has generated in ascending order,
  if and only if the array is empty and VERIFY_CORRECT is not defined, whatever the random numbers and whatever is in
  memory;
- `stray_element`: an array of one element, which is lost to the one behind it.
-/
import Cse422.Sort.Program

namespace Cse422.Sort

open Words

/-! ## The property -/

/-- the numbers that `main` generates -/
def generated (E : Env) (n : ℕ) : List Double := (List.range n).map fun i => .ofNat (E.rand i)

def Ascending (A : ℕ → Double) (n : ℕ) : Prop := ∀ i j, i < j → j < n → (A i).le (A j)

/-- the program ends, has accessed its array and nothing else, and has put into it what it generated, in ascending order -/
def SortsItsArray (E : Env) (verify : Bool) (arraySize : Word) (A : ℕ → Double) : Prop :=
  ∃ fuel t, sortMain E verify fuel arraySize A = some (t, false) ∧ (∀ i ∈ t.log, i < arraySize.toNat) ∧
    Ascending t.A arraySize.toNat ∧ ((List.range arraySize.toNat).map t.A).Perm (generated E arraySize.toNat)

/-! ## Accesses -/

section Access

variable {E : Env} {s t : St} {verify aborted : Bool} {fuel : ℕ} {arraySize : Word} {A : ℕ → Double}

/-- the last index of a range that is sorted is accessed -/
theorem quicksort_last {start last : ℕ} (hlt : start < last) (h : quicksort E fuel s start last = some t) :
    last ∈ t.log := by
  cases fuel with
  | zero => cases h
  | succ fuel =>
    rw [quicksort, if_pos hlt] at h
    obtain ⟨⟨pivot, s₁⟩, hp, h⟩ := Option.bind_eq_some_iff.1 h
    obtain ⟨s₂, hleft, hright⟩ := Option.bind_eq_some_iff.1 h
    have hlast : last ∈ s₁.log := (partition_log hp).2
    have hleft' : last ∈ s₂.log := by
      split_ifs at hleft
      · exact quicksort_log hleft hlast
      · exact Option.some.inj hleft ▸ hlast
    split_ifs at hright
    · exact quicksort_log hright hleft'
    · exact Option.some.inj hright ▸ hleft'

/-- the element behind the array -/
theorem sortMain_behind (hn : 0 < arraySize.toNat) (h : sortMain E verify fuel arraySize A = some (t, aborted)) :
    arraySize.toNat ∈ t.log := by
  obtain ⟨s, hs, h⟩ := Option.bind_eq_some_iff.1 h
  have hmem := quicksort_last hn hs
  split_ifs at h
  · exact (verifyLoop_log h).1 hmem
  · obtain ⟨rfl, -⟩ := Prod.mk.inj (Option.some.inj h)
    exact hmem

/-- the first element of an empty array -/
theorem sortMain_verify (h : sortMain E true fuel 0 A = some (t, aborted)) : 0 ∈ t.log := by
  obtain ⟨s, -, h⟩ := Option.bind_eq_some_iff.1 h
  rw [if_pos rfl] at h
  exact (verifyLoop_log h).2 (by decide)

theorem not_sorts_of_pos (hn : 0 < arraySize.toNat) : ¬ SortsItsArray E verify arraySize A := by
  intro h
  obtain ⟨fuel, t, ht, hbounds, -⟩ := h
  exact Nat.lt_irrefl _ (hbounds _ (sortMain_behind hn ht))

end Access

/-! ## Result -/

/-- **The sort program sorts exactly its array** if and only if there is nothing to sort and nothing to verify. -/
theorem sorts_its_array_iff (E : Env) (verify : Bool) (arraySize : Word) (A : ℕ → Double) :
    SortsItsArray E verify arraySize A ↔ arraySize = 0 ∧ verify = false := by
  constructor
  · intro h
    have hzero : arraySize = 0 := by
      by_contra hne
      apply not_sorts_of_pos (E := E) (A := A) _ h
      exact Nat.pos_of_ne_zero fun hn => hne (BitVec.toNat_eq.2 hn)
    subst hzero
    refine ⟨rfl, ?_⟩
    by_contra hverify
    obtain ⟨fuel, t, ht, hbounds, -⟩ := h
    rw [Bool.not_eq_false] at hverify
    subst hverify
    exact Nat.not_lt_zero _ (hbounds 0 (sortMain_verify ht))
  · rintro ⟨rfl, rfl⟩
    refine ⟨1, ⟨A, 0, []⟩, rfl, ?_, ?_, .refl _⟩
    · intro i hi
      cases hi
    · intro i j _ hj
      exact absurd hj (Nat.not_lt_zero j)

/-- `rand` gives 5, and then 0 -/
def fiveFirst : Env := ⟨fun k => if k = 0 then 5 else 0, fun _ => 0⟩

/-- **A stray element.** The array is 5 and 3 is behind it; afterwards the array is 3. -/
theorem stray_element :
    ((sortMain fiveFirst false 4 1 fun _ => .ofNat 3).map fun p => (p.1.A 0, p.1.A 1, p.1.log.contains 1)) =
        some (.ofNat 3, .ofNat 5, true) ∧
      ¬ SortsItsArray fiveFirst false 1 fun _ => .ofNat 3 :=
  ⟨by decide +kernel, not_sorts_of_pos (by decide)⟩

end Cse422.Sort
