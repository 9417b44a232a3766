/-
The randomised quicksort of `labs/lab2/user/sort.c`. The functions follow the C functions of the same names: the end of
a range is inclusive, indices are `unsigned`, the array is of `double`, and the temporaries of `swap` and `partition` are
`unsigned`.

The program copies doubles, compares them, and converts them from and to `unsigned`; it never computes with them. So a
finite double is a rational number here, and nothing is rounded. Memory is what `A[i]` finds for every `i`, within the
array or not; every access is in the log. Loops and the recursion take fuel, and without fuel there is no result.

Premises about C:
- `rand` gives any numbers up to RAND_MAX; a conversion of a double that does not fit `unsigned` gives any value,
  which is a parameter (`Env.undef`);
- an access behind the array finds a double and does not fault; `Sort.OnPaging` goes without this.

- `swap_log`, `partitionLoop_log`, `quicksort_log`: what has been accessed stays in the log;
- `partition_log`: a call of `partition` accesses the end of its range.
-/
import Mathlib.Tactic
import Cse422.Core.Words

namespace Cse422.Sort

open Words

/-! ## Values -/

inductive Double where
  | nan
  | infinity (negative : Bool)
  | finite (q : ℚ)
  deriving DecidableEq

/-- an integer as a double -/
def Double.ofNat (n : ℕ) : Double := .finite n

/-- the comparison `<=` -/
def Double.le : Double → Double → Bool
  | .finite a, .finite b => a ≤ b
  | .infinity true, .infinity _ | .infinity true, .finite _ => true
  | .infinity false, .infinity false | .finite _, .infinity false => true
  | _, _ => false

/-- addition of `unsigned` -/
def addU (a b : ℕ) : ℕ := (a + b) % 2 ^ 32

/-- subtraction of `unsigned` -/
def subU (a b : ℕ) : ℕ := (a + (2 ^ 32 - b)) % 2 ^ 32

/-! ## The machine -/

instance neZeroRand : NeZero (2 ^ 31) := ⟨by decide⟩

structure Env where
  /-- the results of `rand`, one call after the other; RAND_MAX is 2147483647 -/
  rand : ℕ → Fin (2 ^ 31)
  /-- what the conversion to `unsigned` gives where C leaves it undefined -/
  undef : Double → ℕ

/-- the conversion to `unsigned` drops the fraction -/
def Env.toUnsigned (E : Env) : Double → ℕ
  | .finite q => if -1 < q ∧ q < 2 ^ 32 then q.floor.toNat else E.undef (.finite q) % 2 ^ 32
  | d => E.undef d % 2 ^ 32

structure St where
  A : ℕ → Double
  /-- the calls of `rand` so far -/
  calls : ℕ
  /-- the indices that have been accessed -/
  log : List ℕ

def St.read (s : St) (i : ℕ) : St := { s with log := s.log ++ [i] }

def St.store (s : St) (i : ℕ) (d : Double) : St := { s with A := Function.update s.A i d, log := s.log ++ [i] }

/-! ## The functions -/

/-- `temp = *a; *a = *b; *b = temp;` -/
def swap (E : Env) (s : St) (a b : ℕ) : St :=
  let temp := E.toUnsigned (s.A a)
  let s₁ := (s.read a).read b
  let s₂ := s₁.store a (s₁.A b)
  s₂.store b (.ofNat temp)

/-- the loop of `partition`, at most `fuel` turns of it -/
def partitionLoop (E : Env) (last pivotVal : ℕ) : ℕ → ℕ → ℕ → St → Option (ℕ × St)
  | 0, _, _, _ => none
  | fuel + 1, index, target, s =>
    if index < last then
      if (s.A index).le (.ofNat pivotVal) then
        partitionLoop E last pivotVal fuel (addU index 1) (addU target 1) (swap E (s.read index) target index)
      else partitionLoop E last pivotVal fuel (addU index 1) target (s.read index)
    else some (target, s)

def partition (E : Env) (fuel : ℕ) (s : St) (start last : ℕ) : Option (ℕ × St) :=
  let range := subU last start
  let pivot := addU ((E.rand s.calls : ℕ) % range) start
  -- the pivot goes into the last position
  let s₁ := swap E { s with calls := s.calls + 1 } pivot last
  let pivotVal := E.toUnsigned (s₁.A last)
  (partitionLoop E last pivotVal fuel start start (s₁.read last)).map fun p => (p.1, swap E p.2 p.1 last)

def quicksort (E : Env) : ℕ → St → ℕ → ℕ → Option St
  | 0, _, _, _ => none
  | fuel + 1, s, start, last =>
    if start < last then
      (partition E fuel s start last).bind fun p =>
        (if start < p.1 then quicksort E fuel p.2 start (subU p.1 1) else some p.2).bind fun s₂ =>
          if p.1 < last then quicksort E fuel s₂ (addU p.1 1) last else some s₂
    else some s

/-- `A[index] = (double) rand()` for the first indices -/
def fill (E : Env) : ℕ → St → St
  | 0, s => s
  | k + 1, s =>
    let s₁ := fill E k s
    { s₁.store k (.ofNat (E.rand s₁.calls)) with calls := s₁.calls + 1 }

/-- the reads of `error_quit`, before it aborts -/
def errorQuit (s : St) (arraySize : ℕ) : St := { s with log := s.log ++ List.range arraySize }

/-- the loop under VERIFY_CORRECT, at most `fuel` turns of it; and whether it has aborted -/
def verifyLoop (arraySize : ℕ) : ℕ → ℕ → St → Option (St × Bool)
  | 0, _, _ => none
  | fuel + 1, index, s =>
    if index < subU arraySize 1 then
      let s₁ := (s.read index).read (addU index 1)
      if (s.A index).le (s.A (addU index 1)) then verifyLoop arraySize fuel (addU index 1) s₁
      else some (errorQuit s₁ arraySize, true)
    else some (s, false)

/-- `main` with an array, and memory around it; `verify` is whether VERIFY_CORRECT is defined -/
def sortMain (E : Env) (verify : Bool) (fuel : ℕ) (arraySize : Word) (A : ℕ → Double) : Option (St × Bool) :=
  let s := fill E arraySize.toNat ⟨A, 0, []⟩
  (quicksort E fuel s 0 arraySize.toNat).bind fun t =>
    if verify then verifyLoop arraySize.toNat fuel 0 t else some (t, false)

/-! ## The log -/

section Log

variable {E : Env} {s t : St}

theorem subset_read (s : St) (i : ℕ) : s.log ⊆ (s.read i).log := List.subset_append_left _ _

theorem swap_log (E : Env) (s : St) (a b : ℕ) : (swap E s a b).log = s.log ++ [a, b, a, b] := by
  simp [swap, St.store, St.read]

theorem subset_swap (E : Env) (s : St) (a b : ℕ) : s.log ⊆ (swap E s a b).log := by
  rw [swap_log]
  exact List.subset_append_left _ _

theorem partitionLoop_log {last pivotVal fuel index target r : ℕ}
    (h : partitionLoop E last pivotVal fuel index target s = some (r, t)) : s.log ⊆ t.log := by
  induction fuel generalizing index target s with
  | zero => cases h
  | succ fuel ih =>
    have hread := subset_read s index
    unfold partitionLoop at h
    split_ifs at h with hlt hle
    · calc s.log ⊆ (s.read index).log := hread
        _ ⊆ (swap E (s.read index) target index).log := subset_swap E _ _ _
        _ ⊆ t.log := ih h
    · exact List.Subset.trans hread (ih h)
    · obtain ⟨-, rfl⟩ := Prod.mk.inj (Option.some.inj h)
      exact List.Subset.refl _

/-- the pivot has gone into the last position -/
theorem partition_log {fuel start last r : ℕ} (h : partition E fuel s start last = some (r, t)) :
    s.log ⊆ t.log ∧ last ∈ t.log := by
  obtain ⟨p, hp, heq⟩ := Option.map_eq_some_iff.1 h
  obtain ⟨-, rfl⟩ := Prod.mk.inj heq
  have hloop := partitionLoop_log (r := p.1) (t := p.2) hp
  constructor
  · let s₀ := { s with calls := s.calls + 1 }
    let s₁ := swap E s₀ (addU ((E.rand s.calls : ℕ) % subU last start) start) last
    calc s₀.log ⊆ s₁.log := subset_swap E _ _ _
      _ ⊆ (s₁.read last).log := subset_read _ _
      _ ⊆ p.2.log := hloop
      _ ⊆ (swap E p.2 p.1 last).log := subset_swap E _ _ _
  · rw [swap_log]
    exact List.mem_append_right _ (by simp)

theorem quicksort_log {fuel start last : ℕ} (h : quicksort E fuel s start last = some t) : s.log ⊆ t.log := by
  induction fuel generalizing s t start last with
  | zero => cases h
  | succ fuel ih =>
    unfold quicksort at h
    split_ifs at h with hlt
    · obtain ⟨⟨pivot, s₁⟩, hp, h⟩ := Option.bind_eq_some_iff.1 h
      obtain ⟨s₂, hleft, hright⟩ := Option.bind_eq_some_iff.1 h
      have h₁ : s.log ⊆ s₁.log := (partition_log hp).1
      have h₂ : s₁.log ⊆ s₂.log := by
        split_ifs at hleft
        · exact ih hleft
        · exact Option.some.inj hleft ▸ List.Subset.refl _
      have h₃ : s₂.log ⊆ t.log := by
        split_ifs at hright
        · exact ih hright
        · exact Option.some.inj hright ▸ List.Subset.refl _
      calc s.log ⊆ s₁.log := h₁
        _ ⊆ s₂.log := h₂
        _ ⊆ t.log := h₃
    · exact Option.some.inj h ▸ List.Subset.refl _

theorem verifyLoop_log {arraySize fuel index : ℕ} {aborted : Bool}
    (h : verifyLoop arraySize fuel index s = some (t, aborted)) :
    s.log ⊆ t.log ∧ (index < subU arraySize 1 → index ∈ t.log) := by
  induction fuel generalizing index s with
  | zero => cases h
  | succ fuel ih =>
    have hread := List.Subset.trans (subset_read s index) (subset_read (s.read index) (addU index 1))
    have hmem : index ∈ (s.read index).log := List.mem_append_right _ (List.mem_singleton.2 rfl)
    have hindex := subset_read (s.read index) (addU index 1) hmem
    unfold verifyLoop at h
    split_ifs at h with hlt hle
    · have hrest := (ih h).1
      exact ⟨List.Subset.trans hread hrest, fun _ => hrest hindex⟩
    · obtain ⟨rfl, -⟩ := Prod.mk.inj (Option.some.inj h)
      have hquit : ((s.read index).read (addU index 1)).log ⊆ _ := List.subset_append_left _ (List.range arraySize)
      exact ⟨List.Subset.trans hread hquit, fun _ => hquit hindex⟩
    · obtain ⟨rfl, -⟩ := Prod.mk.inj (Option.some.inj h)
      exact ⟨List.Subset.refl _, fun hidx => absurd hidx hlt⟩

end Log

end Cse422.Sort
