/-
The run-time statistics of `timed_parallel_dense_mm.c`. The program reads the clock before and after each multiplication
and takes only the nanoseconds of the two readings, and it divides by the number of iterations that it was asked for.
`long` has 64 bits; the differences of nanoseconds are small and stay integers, the sum is an `unsigned long`.

Premises: `clock_gettime` gives a time with less than 10^9 nanoseconds and does not go back.

- `statistics_eq`: what is printed when no run crosses a second boundary;
- `statistics_true_iff`: the statistics are those of the elapsed times if and only if there is an iteration and no run
  crosses a second boundary;
- `second_boundary`: a run of 200 ns that is reported as a negative time.
-/
import Cse422.Core.Loops

namespace Cse422.DenseMm

open Loops

/-! ## The program -/

structure Timespec where
  tvSec : ℤ
  tvNsec : ℤ

structure Stats where
  /-- an `unsigned long` -/
  sumns : ℕ
  /-- without a value before it is set -/
  maxns : Option ℤ
  minns : Option ℤ

/-- `end.tv_nsec - start.tv_nsec`; iteration `i` starts with reading `2 * i` of the clock -/
def runns (clock : ℕ → Timespec) (i : ℕ) : ℤ := (clock (2 * i + 1)).tvNsec - (clock (2 * i)).tvNsec

/-- `sumns += runns` -/
def addLong (sumns : ℕ) (runns : ℤ) : ℕ := ((sumns + runns) % 2 ^ 64).toNat

/-- one turn of the loop; nothing follows from the use of a variable that is not set -/
def turn (clock : ℕ → Timespec) (st : Stats) (i : ℕ) : Option Stats :=
  let runns := runns clock i
  let st' : Option Stats :=
    if i = 0 then some { st with maxns := some runns, minns := some runns }
    else
      match st.maxns, st.minns with
      | some maxns, some minns =>
        if runns > maxns then some { st with maxns := some runns }
        else if runns < minns then some { st with minns := some runns }
        else some st
      | _, _ => none
  st'.map fun st => { st with sumns := addLong st.sumns runns }

/-- `atoi(argv[2])`, or 1 without the argument -/
def iterations (arg : Option (BitVec 32)) : ℤ := (arg.getD 1).toInt

structure Report where
  max : ℤ
  min : ℤ
  mean : ℤ

/-- an `unsigned long`, printed with `%ld` -/
def toLong (n : ℕ) : ℤ := (BitVec.ofNat 64 n).toInt

/-- what is printed; nothing for a division by zero or a variable that is not set -/
def report (iterations : ℤ) (st : Stats) : Option Report :=
  let divisor := (iterations % 2 ^ 64).toNat
  match st.maxns, st.minns with
  | some maxns, some minns => if divisor = 0 then none else some ⟨maxns, minns, toLong (st.sumns / divisor)⟩
  | _, _ => none

/-- the loop, and the line of the statistics -/
def statistics (arg : Option (BitVec 32)) (clock : ℕ → Timespec) : Option Report :=
  (forLoop (iterations arg).toNat (fun st i => st.bind fun st => turn clock st i) (some ⟨0, none, none⟩)).bind
    (report (iterations arg))

/-! ## The property -/

/-- the nanoseconds between the readings of an iteration -/
def elapsed (clock : ℕ → Timespec) (i : ℕ) : ℤ :=
  ((clock (2 * i + 1)).tvSec - (clock (2 * i)).tvSec) * 10 ^ 9 +
    ((clock (2 * i + 1)).tvNsec - (clock (2 * i)).tvNsec)

/-- one reading is not after the other -/
def Timespec.Le (a b : Timespec) : Prop := a.tvSec < b.tvSec ∨ (a.tvSec = b.tvSec ∧ a.tvNsec ≤ b.tvNsec)

/-- statistics of the numbers `f i` for `i < k` -/
structure Report.Of (r : Report) (k : ℕ) (f : ℕ → ℤ) : Prop where
  max_mem : ∃ i < k, f i = r.max
  le_max : ∀ i < k, f i ≤ r.max
  min_mem : ∃ i < k, f i = r.min
  min_le : ∀ i < k, r.min ≤ f i
  mean : r.mean = (∑ i ∈ Finset.range k, f i) / k
  ordered : r.min ≤ r.mean ∧ r.mean ≤ r.max

/-- there are statistics, of numbers that are the elapsed times -/
def TrueStatistics (arg : Option (BitVec 32)) (clock : ℕ → Timespec) : Prop :=
  (∀ i < (iterations arg).toNat, runns clock i = elapsed clock i) ∧
    ∃ r, statistics arg clock = some r ∧ r.Of (iterations arg).toNat (runns clock)

/-! ## The loop -/

section Loop

variable {clock : ℕ → Timespec} {k : ℕ}

/-- after `k` turns, at least one -/
structure After (f : ℕ → ℤ) (k : ℕ) (st : Stats) (M m : ℤ) : Prop where
  maxns : st.maxns = some M
  minns : st.minns = some m
  sumns : (st.sumns : ℤ) = ∑ i ∈ Finset.range k, f i
  max_mem : ∃ i < k, f i = M
  le_max : ∀ i < k, f i ≤ M
  min_mem : ∃ i < k, f i = m
  min_le : ∀ i < k, m ≤ f i

theorem addLong_eq {s : ℕ} {x : ℤ} (hx : 0 ≤ x) (hs : (s : ℤ) + x < 2 ^ 64) : (addLong s x : ℤ) = s + x := by
  rw [addLong, Int.emod_eq_of_lt (by omega) hs, Int.toNat_of_nonneg (by omega)]

theorem first_turn (h0 : 0 ≤ runns clock 0) (h : runns clock 0 < 10 ^ 9) :
    ∃ st, turn clock ⟨0, none, none⟩ 0 = some st ∧ After (runns clock) 1 st (runns clock 0) (runns clock 0) := by
  refine ⟨_, rfl, rfl, rfl, ?_, ⟨0, Nat.zero_lt_one, rfl⟩, ?_, ⟨0, Nat.zero_lt_one, rfl⟩, ?_⟩
  · rw [Finset.sum_range_one]
    have hsum := addLong_eq (s := 0) h0 (by omega)
    simpa using hsum
  · intro i hi
    obtain rfl := Nat.lt_one_iff.1 hi
    exact le_rfl
  · intro i hi
    obtain rfl := Nat.lt_one_iff.1 hi
    exact le_rfl

/-- what holds of the first `k` and of `k` -/
theorem forall_lt_succ {P : ℕ → Prop} (h : ∀ i < k, P i) (hk : P k) : ∀ i < k + 1, P i := by
  intro i hi
  rcases Nat.lt_succ_iff_lt_or_eq.1 hi with hlt | rfl
  · exact h i hlt
  · exact hk

theorem next_turn {st : Stats} {M m : ℤ} (hk : 0 < k) (h : After (runns clock) k st M m) (h0 : 0 ≤ runns clock k)
    (hsum : ∑ i ∈ Finset.range k, runns clock i + runns clock k < 2 ^ 64) :
    ∃ st' M' m', turn clock st k = some st' ∧ After (runns clock) (k + 1) st' M' m' := by
  have hmM : m ≤ M := by
    obtain ⟨i, hi, heq⟩ := h.min_mem
    exact heq ▸ h.le_max i hi
  have hadd : (addLong st.sumns (runns clock k) : ℤ) = ∑ i ∈ Finset.range (k + 1), runns clock i := by
    rw [addLong_eq h0 (by rw [h.sumns]; exact hsum), h.sumns, Finset.sum_range_succ]
  have old : ∀ {x : ℤ}, (∃ i < k, runns clock i = x) → ∃ i < k + 1, runns clock i = x :=
    fun ⟨i, hi, heq⟩ => ⟨i, Nat.lt_succ_of_lt hi, heq⟩
  have new : ∃ i < k + 1, runns clock i = runns clock k := ⟨k, Nat.lt_succ_self k, rfl⟩
  simp only [turn, if_neg hk.ne', h.maxns, h.minns]
  split_ifs with hmax hmin
  · refine ⟨_, runns clock k, m, rfl, rfl, rfl, hadd, new, ?_, old h.min_mem, ?_⟩
    · exact forall_lt_succ (fun i hi => (h.le_max i hi).trans hmax.le) le_rfl
    · exact forall_lt_succ h.min_le (hmM.trans hmax.le)
  · refine ⟨_, M, runns clock k, rfl, rfl, rfl, hadd, old h.max_mem, ?_, new, ?_⟩
    · exact forall_lt_succ h.le_max (not_lt.1 hmax)
    · exact forall_lt_succ (fun i hi => hmin.le.trans (h.min_le i hi)) le_rfl
  · refine ⟨_, M, m, rfl, h.maxns, h.minns, hadd, old h.max_mem, ?_, old h.min_mem, ?_⟩
    · exact forall_lt_succ h.le_max (not_lt.1 hmax)
    · exact forall_lt_succ h.min_le (not_lt.1 hmin)

theorem sum_bounds {f : ℕ → ℤ} (h : ∀ i < k, 0 ≤ f i ∧ f i < 10 ^ 9) :
    0 ≤ ∑ i ∈ Finset.range k, f i ∧ ∑ i ∈ Finset.range k, f i ≤ k * 10 ^ 9 := by
  constructor
  · apply Finset.sum_nonneg
    exact fun i hi => (h i (Finset.mem_range.1 hi)).1
  · calc ∑ i ∈ Finset.range k, f i ≤ ∑ _i ∈ Finset.range k, (10 : ℤ) ^ 9 :=
          Finset.sum_le_sum fun i hi => (h i (Finset.mem_range.1 hi)).2.le
      _ = k * 10 ^ 9 := by rw [Finset.sum_const, Finset.card_range, nsmul_eq_mul]

/-- the invariant of the loop: nothing is set before the first turn -/
def UpTo (clock : ℕ → Timespec) (j : ℕ) (o : Option Stats) : Prop :=
  (j = 0 ∧ o = some ⟨0, none, none⟩) ∨ (0 < j ∧ ∃ st M m, o = some st ∧ After (runns clock) j st M m)

/-- the whole loop -/
theorem loop_after (hk : 0 < k) (hlong : k < 2 ^ 31) (h : ∀ i < k, 0 ≤ runns clock i ∧ runns clock i < 10 ^ 9) :
    ∃ st M m, forLoop k (fun st i => st.bind fun st => turn clock st i) (some ⟨0, none, none⟩) = some st ∧
      After (runns clock) k st M m := by
  have hrule : UpTo clock k (forLoop k (fun st i => st.bind fun st => turn clock st i) (some ⟨0, none, none⟩)) := by
    apply forLoop_rule (Or.inl ⟨rfl, rfl⟩)
    rintro j o hj (⟨rfl, rfl⟩ | ⟨hpos, st, M, m, rfl, hafter⟩)
    · obtain ⟨st, hst, hafter⟩ := first_turn (h 0 hk).1 (h 0 hk).2
      exact Or.inr ⟨Nat.zero_lt_one, st, _, _, hst, hafter⟩
    · have hsum := (sum_bounds fun i hi => h i (hi.trans hj)).2
      obtain ⟨st', M', m', hst, hafter'⟩ := next_turn hpos hafter (h j hj).1 (by
        have hlast := (h j hj).2
        omega)
      exact Or.inr ⟨Nat.succ_pos j, st', M', m', hst, hafter'⟩
  exact (hrule.resolve_left fun h0 => hk.ne' h0.1).2

end Loop

/-! ## Result -/

section Result

variable {arg : Option (BitVec 32)} {clock : ℕ → Timespec}

theorem iterations_lt (arg : Option (BitVec 32)) : iterations arg < 2 ^ 31 := by
  have hlt := BitVec.two_mul_toInt_lt (x := arg.getD 1)
  rw [iterations]
  omega

theorem toLong_eq {n : ℕ} (hn : n < 2 ^ 63) : toLong n = n := by
  rw [toLong, BitVec.toInt_eq_toNat_of_lt]
  · rw [BitVec.toNat_ofNat, Nat.mod_eq_of_lt (by omega)]
  · rw [BitVec.toNat_ofNat, Nat.mod_eq_of_lt (by omega)]
    omega

/-- what is printed when the differences are not negative and short -/
theorem statistics_eq (hpos : 1 ≤ iterations arg)
    (h : ∀ i < (iterations arg).toNat, 0 ≤ runns clock i ∧ runns clock i < 10 ^ 9) :
    ∃ r, statistics arg clock = some r ∧ r.Of (iterations arg).toNat (runns clock) := by
  have hlt := iterations_lt arg
  obtain ⟨k, hk⟩ : ∃ k : ℕ, iterations arg = k := Int.eq_ofNat_of_zero_le (by omega)
  rw [hk, Int.toNat_natCast] at h ⊢
  obtain ⟨st, M, m, hloop, hafter⟩ := loop_after (k := k) (by omega) (by omega) h
  have hbounds := sum_bounds h
  have hdivisor : ((k : ℤ) % 2 ^ 64).toNat = k := by
    rw [Int.emod_eq_of_lt (by omega) (by omega), Int.toNat_natCast]
  have hmean : toLong (st.sumns / k) = (∑ i ∈ Finset.range k, runns clock i) / k := by
    have hle : st.sumns / k ≤ st.sumns := Nat.div_le_self _ _
    rw [toLong_eq (by have hsum := hafter.sumns; omega), Int.natCast_div, hafter.sumns]
  refine ⟨⟨M, m, toLong (st.sumns / k)⟩, ?_, hafter.max_mem, hafter.le_max, hafter.min_mem, hafter.min_le, hmean, ?_⟩
  · rw [statistics, hk, Int.toNat_natCast, hloop, Option.bind_some]
    simp only [report, hafter.maxns, hafter.minns, hdivisor]
    rw [if_neg (by omega)]
  · rw [hmean]
    constructor
    · apply Int.le_ediv_of_mul_le (by omega)
      calc m * k = ∑ _i ∈ Finset.range k, m := by rw [Finset.sum_const, Finset.card_range, nsmul_eq_mul, mul_comm]
        _ ≤ ∑ i ∈ Finset.range k, runns clock i :=
          Finset.sum_le_sum fun i hi => hafter.min_le i (Finset.mem_range.1 hi)
    · apply Int.ediv_le_of_le_mul (by omega)
      calc ∑ i ∈ Finset.range k, runns clock i ≤ ∑ _i ∈ Finset.range k, M :=
          Finset.sum_le_sum fun i hi => hafter.le_max i (Finset.mem_range.1 hi)
        _ = M * k := by rw [Finset.sum_const, Finset.card_range, nsmul_eq_mul, mul_comm]

/-- without an iteration nothing is set -/
theorem statistics_none (h : iterations arg ≤ 0) : statistics arg clock = none := by
  rw [statistics, Int.toNat_of_nonpos h]
  rfl

/-- **The statistics are true** if and only if the loop runs and no iteration crosses a second boundary. -/
theorem statistics_true_iff (arg : Option (BitVec 32)) (clock : ℕ → Timespec) (hmono : ∀ k, (clock k).Le (clock (k + 1)))
    (hnsec : ∀ k, 0 ≤ (clock k).tvNsec ∧ (clock k).tvNsec < 10 ^ 9) :
    TrueStatistics arg clock ↔ 1 ≤ iterations arg ∧
      ∀ i < (iterations arg).toNat, (clock (2 * i + 1)).tvSec = (clock (2 * i)).tvSec := by
  constructor
  · rintro ⟨hruns, r, hr, -⟩
    refine ⟨?_, fun i hi => ?_⟩
    · by_contra hnot
      rw [statistics_none (by omega)] at hr
      cases hr
    · have heq := hruns i hi
      simp only [runns, elapsed] at heq
      omega
  · rintro ⟨hpos, hsec⟩
    have hruns : ∀ i < (iterations arg).toNat, runns clock i = elapsed clock i := by
      intro i hi
      simp only [runns, elapsed, hsec i hi]
      omega
    refine ⟨hruns, statistics_eq hpos ?_⟩
    intro i hi
    have hstart := hnsec (2 * i)
    have hend := hnsec (2 * i + 1)
    have hle := (hmono (2 * i)).resolve_left (by rw [hsec i hi]; exact lt_irrefl _)
    simp only [runns]
    omega

/-- two runs of 5 and of 7 ns -/
theorem statistics_two : TrueStatistics (some 2) fun k => ⟨3, if k < 3 then 5 * k else 17⟩ := by
  refine (statistics_true_iff (some 2) _ ?_ ?_).2 ⟨by decide, fun _ _ => rfl⟩
  · intro k
    refine Or.inr ⟨rfl, ?_⟩
    dsimp only
    split_ifs <;> omega
  · intro k
    dsimp only
    split_ifs <;> omega

/-- **A second boundary.** A run of 200 ns starts 100 ns before it. -/
theorem second_boundary : ∃ r, statistics none (fun k => if k = 0 then ⟨0, 999999900⟩ else ⟨1, 100⟩) = some r ∧
    r.max = -999999800 ∧ elapsed (fun k => if k = 0 then ⟨0, 999999900⟩ else ⟨1, 100⟩) 0 = 200 ∧
    ¬ TrueStatistics none fun k => if k = 0 then ⟨0, 999999900⟩ else ⟨1, 100⟩ := by
  refine ⟨_, rfl, by decide, by decide, ?_⟩
  intro h
  have heq := h.1 0 (by decide)
  revert heq
  decide

end Result

end Cse422.DenseMm
