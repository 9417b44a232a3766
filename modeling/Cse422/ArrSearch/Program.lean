/-
`arr_search.c`: a table of square roots, and `bsearch` in it with `compare_float`, which converts the difference of two
floats to `int`. The conversion drops the fraction, so all elements less than 1 away from the key compare equal to it.

A finite float is a rational number here. Premises about the C library: `Floats` has what the program relies on: rounding
to nearest keeps the order and the sign and does not change a number that is a float, and `sqrt` is rounded correctly.
`bsearch` may look at the elements in any order that narrows an interval.

- `compareFloat_eq_zero`: when two floats compare equal;
- `finds_exactly_iff`: in a sorted array whose differences are below `2 ^ 31`, each element is found at its own place if and
  only if any two elements are at least 1 apart, after rounding;
- `libraryCalls_value`: what `library_calls` finds is near its key, and with the usual `bsearch` it is the root of 385, not
  that of 383.
-/
import Mathlib.Tactic
import Cse422.Core.Bsearch

namespace Cse422.ArrSearch

open Bsearch

/-! ## Floats -/

structure Floats where
  /-- the float nearest to an exact result -/
  fl : ℚ → ℚ
  mono : Monotone fl
  neg : ∀ q, fl (-q) = -fl q
  /-- halves of small integers are floats -/
  half : ∀ n : ℤ, |n| ≤ 2 ^ 24 → fl (n / 2) = n / 2
  /-- `sqrt` of an integer, as a float -/
  sqrt : ℕ → ℚ
  sqrt_le : ∀ (k : ℕ) (r : ℚ), 0 ≤ r → fl r = r → (k : ℚ) ≤ r ^ 2 → sqrt k ≤ r
  le_sqrt : ∀ (k : ℕ) (r : ℚ), 0 ≤ r → fl r = r → r ^ 2 ≤ k → r ≤ sqrt k
  sqrt_mono : Monotone sqrt
  /-- what the conversion to `int` gives where C leaves it undefined -/
  undef : ℚ → ℤ

variable {E : Floats} {P : Probe} {n : ℕ}

/-- towards zero -/
def trunc (q : ℚ) : ℤ := if 0 ≤ q then ⌊q⌋ else ⌈q⌉

/-- the conversion to `int` -/
def Floats.toInt (E : Floats) (q : ℚ) : ℤ :=
  if -2 ^ 31 ≤ trunc q ∧ trunc q < 2 ^ 31 then trunc q else E.undef q

theorem trunc_pos_iff {q : ℚ} : 0 < trunc q ↔ 1 ≤ q := by
  unfold trunc
  split_ifs with h
  · rw [Int.floor_pos]
  · constructor
    · intro hpos
      rw [Int.ceil_pos] at hpos
      exact absurd hpos.le h
    · intro h1
      exact absurd (zero_le_one.trans h1) h

theorem trunc_neg_iff {q : ℚ} : trunc q < 0 ↔ q ≤ -1 := by
  unfold trunc
  split_ifs with h
  · constructor
    · intro hneg
      exact absurd (Int.floor_nonneg.2 h) (not_le.2 hneg)
    · intro h1
      linarith
  · have hstep : ⌈q⌉ < 0 ↔ ⌈q⌉ ≤ -1 := by omega
    rw [hstep, Int.ceil_le]
    norm_num

/-- a float that has an `int` -/
theorem toInt_of_abs_lt {q : ℚ} (h : |q| < 2 ^ 31) : E.toInt q = trunc q := by
  obtain ⟨hlo, hhi⟩ := abs_lt.1 h
  have hlo' : ((-2 ^ 31 : ℤ) : ℚ) ≤ q := by
    push_cast
    exact hlo.le
  have hhi' : q < ((2 ^ 31 : ℤ) : ℚ) := by
    push_cast
    exact hhi
  refine if_pos ?_
  unfold trunc
  split_ifs with hq
  · exact ⟨Int.le_floor.2 hlo', Int.floor_lt.2 hhi'⟩
  · have hceil : ⌈q⌉ ≤ 0 := Int.ceil_nonpos.2 (not_le.1 hq).le
    refine ⟨?_, lt_of_le_of_lt hceil (by norm_num)⟩
    exact_mod_cast hlo'.trans (Int.le_ceil q)

theorem fl_zero (E : Floats) : E.fl 0 = 0 := by simpa using E.half 0 (by norm_num)

theorem fl_one (E : Floats) : E.fl 1 = 1 := by simpa using E.half 2 (by norm_num)

/-! ## compare_float -/

def compareFloat (E : Floats) (f1 f2 : ℚ) : ℤ := E.toInt (E.fl (f1 - f2))

/-- the difference of the two has an `int` -/
def Comparable (E : Floats) (f1 f2 : ℚ) : Prop := |E.fl (f1 - f2)| < 2 ^ 31

theorem compareFloat_pos {x y : ℚ} (h : Comparable E x y) : 0 < compareFloat E x y ↔ 1 ≤ E.fl (x - y) := by
  rw [compareFloat, toInt_of_abs_lt h, trunc_pos_iff]

theorem compareFloat_neg {x y : ℚ} (h : Comparable E x y) : compareFloat E x y < 0 ↔ E.fl (x - y) ≤ -1 := by
  rw [compareFloat, toInt_of_abs_lt h, trunc_neg_iff]

/-- **Equal means less than 1 apart**, after rounding. -/
theorem compareFloat_eq_zero {x y : ℚ} (h : Comparable E x y) : compareFloat E x y = 0 ↔ |E.fl (x - y)| < 1 := by
  have hpos := compareFloat_pos h
  have hneg := compareFloat_neg h
  rw [abs_lt, ← not_le, ← not_le, ← hpos, ← hneg]
  omega

/-- the key `x` and the elements of the array -/
def keyOf (E : Floats) (values : ℕ → ℚ) (x : ℚ) (i : ℕ) : ℤ := compareFloat E x (values i)

/-- a sorted array is in order for every key -/
theorem inOrder_keyOf {values : ℕ → ℚ} (hsorted : ∀ i j, i ≤ j → j < n → values i ≤ values j) {x : ℚ}
    (hx : ∀ i < n, Comparable E x (values i)) : InOrder (keyOf E values x) n where
  below i j hij hj h := by
    rw [keyOf, compareFloat_pos (hx j hj)] at h
    rw [keyOf, compareFloat_pos (hx i (hij.trans_lt hj))]
    exact h.trans (E.mono (sub_le_sub_left (hsorted i j hij hj) x))
  above i j hij hj h := by
    rw [keyOf, compareFloat_neg (hx i (hij.trans_lt hj))] at h
    rw [keyOf, compareFloat_neg (hx j hj)]
    exact (E.mono (sub_le_sub_left (hsorted i j hij hj) x)).trans h

/-- two elements of a sorted array compare equal, and so do all between them -/
theorem block_of_close {values : ℕ → ℚ} (hsorted : ∀ i j, i ≤ j → j < n → values i ≤ values j)
    (hcomp : ∀ i j, i < n → j < n → Comparable E (values i) (values j)) {i j p : ℕ} (hj : j < n)
    (hclose : E.fl (values j - values i) < 1) (hip : i ≤ p) (hpj : p ≤ j) :
    keyOf E values (values i) p = 0 ∧ keyOf E values (values j) p = 0 := by
  have hp : p < n := hpj.trans_lt hj
  have hi : i < n := hip.trans_lt hp
  have h1 := hsorted i p hip hp
  have h2 := hsorted p j hpj hj
  constructor
  · rw [keyOf, compareFloat_eq_zero (hcomp i p hi hp), abs_lt]
    have hneg : E.fl (values i - values p) = -E.fl (values p - values i) := by rw [← E.neg, neg_sub]
    have hle : E.fl (values p - values i) ≤ E.fl (values j - values i) := E.mono (by linarith)
    have hnonneg : E.fl 0 ≤ E.fl (values p - values i) := E.mono (by linarith)
    rw [fl_zero] at hnonneg
    constructor <;> linarith
  · rw [keyOf, compareFloat_eq_zero (hcomp j p hj hp), abs_lt]
    have hle : E.fl (values j - values p) ≤ E.fl (values j - values i) := E.mono (by linarith)
    have hnonneg : E.fl 0 ≤ E.fl (values j - values p) := E.mono (by linarith)
    rw [fl_zero] at hnonneg
    constructor <;> linarith

/-- the side of an element on which others compare -/
theorem keyOf_nonneg {values : ℕ → ℚ} {x : ℚ} {p : ℕ} (hcomp : Comparable E x (values p)) (h : values p ≤ x) :
    0 ≤ keyOf E values x p := by
  have hnonneg : E.fl 0 ≤ E.fl (x - values p) := E.mono (by linarith)
  rw [fl_zero] at hnonneg
  rw [keyOf, ← not_lt, compareFloat_neg hcomp]
  linarith

theorem keyOf_nonpos {values : ℕ → ℚ} {x : ℚ} {p : ℕ} (hcomp : Comparable E x (values p)) (h : x ≤ values p) :
    keyOf E values x p ≤ 0 := by
  have hnonpos : E.fl (x - values p) ≤ E.fl 0 := E.mono (by linarith)
  rw [fl_zero] at hnonpos
  rw [keyOf, ← not_lt, compareFloat_pos hcomp]
  linarith

theorem keyOf_self {values : ℕ → ℚ} {i : ℕ} (h : Comparable E (values i) (values i)) :
    keyOf E values (values i) i = 0 := by
  rw [keyOf, compareFloat_eq_zero h, sub_self, fl_zero, abs_zero]
  exact one_pos

section Sorted

variable {values : ℕ → ℚ} (hsorted : ∀ i j, i ≤ j → j < n → values i ≤ values j)
  (hcomp : ∀ i j, i < n → j < n → Comparable E (values i) (values j))

include hsorted hcomp

/-- elements that are found at their own places are apart -/
theorem far_of_found (hall : ∀ i < n, bsearch P (keyOf E values (values i)) n = some i) (i j : ℕ) (hij : i < j)
    (hj : j < n) : 1 ≤ E.fl (values j - values i) := by
  by_contra hclose
  rw [not_le] at hclose
  have hi : i < n := hij.trans hj
  refine hij.ne (search_block (hall i hi) (hall j hj) ?_ ?_ ?_ le_rfl hij.le)
  · exact fun p hip hpj => block_of_close hsorted hcomp hj hclose hip hpj
  · intro p hp
    have hpi := hsorted p i hp.le hi
    have hpj := hpi.trans (hsorted i j hij.le hj)
    exact ⟨keyOf_nonneg (hcomp i p hi (hp.trans hi)) hpi, keyOf_nonneg (hcomp j p hj (hp.trans hi)) hpj⟩
  · intro p hp hpn
    have hjp := hsorted j p hp.le hpn
    have hip := (hsorted i j hij.le hj).trans hjp
    exact ⟨keyOf_nonpos (hcomp i p hi hpn) hip, keyOf_nonpos (hcomp j p hj hpn) hjp⟩

theorem found_of_far (hfar : ∀ i j, i < j → j < n → 1 ≤ E.fl (values j - values i)) (i : ℕ) (hi : i < n) :
    bsearch P (keyOf E values (values i)) n = some i := by
  have horder : InOrder (keyOf E values (values i)) n := inOrder_keyOf hsorted fun j hj => hcomp i j hi hj
  have hsome := (search_isSome_iff (P := P) horder).2 ⟨i, hi, keyOf_self (hcomp i i hi hi)⟩
  obtain ⟨j, hj⟩ := Option.isSome_iff_exists.1 hsome
  obtain ⟨-, hjn, hzero⟩ := search_sound hj
  rw [keyOf, compareFloat_eq_zero (hcomp i j hi hjn), abs_lt] at hzero
  rcases lt_trichotomy i j with hij | rfl | hij
  · -- `j` would be at least 1 above
    have hge := hfar i j hij hjn
    rw [← neg_sub, E.neg] at hge
    linarith
  · exact hj
  · have hge := hfar j i hij hi
    linarith

end Sorted

/-- **Each element is found at its own place** exactly when no two compare equal; all differences are below `2 ^ 31`, so
that they have an `int`. -/
theorem finds_exactly_iff (E : Floats) (P : Probe) (n : ℕ) (values : ℕ → ℚ)
    (hsorted : ∀ i j, i ≤ j → j < n → values i ≤ values j)
    (hcomp : ∀ i j, i < n → j < n → Comparable E (values i) (values j)) :
    (∀ i < n, bsearch P (keyOf E values (values i)) n = some i) ↔
      ∀ i j, i < j → j < n → 1 ≤ E.fl (values j - values i) :=
  ⟨far_of_found hsorted hcomp, found_of_far hsorted hcomp⟩

theorem trunc_neg (q : ℚ) : trunc (-q) = -trunc q := by
  unfold trunc
  rcases lt_trichotomy q 0 with h | rfl | h
  · rw [if_pos (by linarith), if_neg (by linarith), Int.floor_neg]
  · simp
  · rw [if_neg (by linarith), if_pos h.le, Int.ceil_neg]

theorem trunc_mono : Monotone trunc := by
  intro p q h
  unfold trunc
  split_ifs with hp hq hq
  · exact Int.floor_mono h
  · exact absurd (hp.trans h) hq
  · exact (Int.ceil_nonpos.2 (not_le.1 hp).le).trans (Int.floor_nonneg.2 hq)
  · exact Int.ceil_mono h

theorem trunc_intCast (z : ℤ) : trunc z = z := by
  unfold trunc
  rw [Int.floor_intCast, Int.ceil_intCast, ite_self]

/-- halves of integers, the results of which are rounded towards zero -/
def halves : Floats where
  fl q := trunc (2 * q) / 2
  mono p q h := by
    have hle : trunc (2 * p) ≤ trunc (2 * q) := trunc_mono (by linarith)
    have hcast : (trunc (2 * p) : ℚ) ≤ trunc (2 * q) := by exact_mod_cast hle
    linarith
  neg q := by
    rw [mul_neg, trunc_neg]
    push_cast
    ring
  half z _ := by
    rw [mul_div_cancel₀ (z : ℚ) two_ne_zero, trunc_intCast]
  sqrt k := Nat.sqrt (4 * k) / 2
  sqrt_le k r h0 _ h := by
    have hsq : ((Nat.sqrt (4 * k) : ℚ)) ^ 2 ≤ 4 * k := by exact_mod_cast Nat.sqrt_le' (4 * k)
    have hle : (Nat.sqrt (4 * k) : ℚ) ≤ 2 * r := abs_le_of_sq_le_sq' (by nlinarith) (by linarith) |>.2
    linarith
  le_sqrt k r h0 hr h := by
    have htwo : (trunc (2 * r) : ℚ) = 2 * r := by linarith
    have hnonneg : 0 ≤ trunc (2 * r) := by
      have hcast : (0 : ℚ) ≤ trunc (2 * r) := by linarith
      exact_mod_cast hcast
    obtain ⟨m, hm⟩ := Int.eq_ofNat_of_zero_le hnonneg
    have hmr : (m : ℚ) = 2 * r := by
      rw [← htwo, hm]
      rfl
    have hsq : m ^ 2 ≤ 4 * k := by
      have hcast : (m : ℚ) ^ 2 ≤ 4 * k := by
        rw [hmr]
        linarith
      exact_mod_cast hcast
    have hle : m ≤ Nat.sqrt (4 * k) := Nat.le_sqrt'.2 hsq
    have hcast : (m : ℚ) ≤ Nat.sqrt (4 * k) := by exact_mod_cast hle
    linarith
  sqrt_mono k l h := by
    have hle : Nat.sqrt (4 * k) ≤ Nat.sqrt (4 * l) := Nat.sqrt_le_sqrt (Nat.mul_le_mul_left 4 h)
    have hcast : (Nat.sqrt (4 * k) : ℚ) ≤ Nat.sqrt (4 * l) := by exact_mod_cast hle
    show (Nat.sqrt (4 * k) : ℚ) / 2 ≤ Nat.sqrt (4 * l) / 2
    linarith
  undef _ := 0

def evenNumbers (i : ℕ) : ℚ := 2 * i

/-- 0 and 2 are found -/
theorem finds_exactly_two : bsearch halving (keyOf halves evenNumbers (evenNumbers 0)) 2 = some 0 ∧
    bsearch halving (keyOf halves evenNumbers (evenNumbers 1)) 2 = some 1 := by
  have hfound := (finds_exactly_iff halves halving 2 evenNumbers ?_ ?_).2 ?_
  · exact ⟨hfound 0 (by norm_num), hfound 1 (by norm_num)⟩
  · intro i j hij _
    have hcast : (i : ℚ) ≤ j := by exact_mod_cast hij
    unfold evenNumbers
    linarith
  · intro i j hi hj
    interval_cases i <;> interval_cases j <;> norm_num [Comparable, halves, trunc, evenNumbers]
  · intro i j hij hj
    interval_cases j <;> interval_cases i
    norm_num [halves, trunc, evenNumbers]

/-! ## library_calls -/

def arrSize : ℕ := 512

/-- the table after the loop -/
def Floats.values (E : Floats) (i : ℕ) : ℚ := E.sqrt (i + 1)

def Floats.key (E : Floats) : ℚ := E.sqrt 383

/-- a call for memory -/
inductive Call where
  | malloc (ok : Bool)
  | free
  deriving DecidableEq, Repr

/-- the returned value, the calls for memory, and the place of `value` in the table -/
structure LibraryCalls where
  ret : ℤ
  calls : List Call
  value : Option ℕ

/-- `ok` is whether `malloc` finds a block -/
def libraryCalls (E : Floats) (P : Probe) (ok : Bool) : LibraryCalls :=
  if ok then ⟨0, [.malloc true, .free], bsearch P (keyOf E E.values E.key) arrSize⟩ else ⟨-1, [.malloc false], none⟩

theorem fl_natCast (E : Floats) {k : ℕ} (hk : k ≤ 2 ^ 23) : E.fl k = k := by
  have habs : |(2 * k : ℤ)| ≤ 2 ^ 24 := by
    rw [abs_of_nonneg (by positivity)]
    omega
  have h := E.half (2 * k) habs
  push_cast at h
  rwa [mul_div_cancel_left₀ (k : ℚ) two_ne_zero] at h

/-- the root of a number up to a square -/
theorem sqrt_le_natCast (E : Floats) {k r : ℕ} (hr : r ≤ 2 ^ 23) (h : k ≤ r ^ 2) : E.sqrt k ≤ r :=
  E.sqrt_le k r (Nat.cast_nonneg r) (fl_natCast E hr) (by exact_mod_cast h)

theorem natCast_le_sqrt (E : Floats) {k r : ℕ} (hr : r ≤ 2 ^ 23) (h : r ^ 2 ≤ k) : (r : ℚ) ≤ E.sqrt k :=
  E.le_sqrt k r (Nat.cast_nonneg r) (fl_natCast E hr) (by exact_mod_cast h)

/-- the same with halves: `r` halves -/
theorem sqrt_le_half (E : Floats) {k r : ℕ} (hr : r ≤ 2 ^ 24) (h : 4 * k ≤ r ^ 2) : E.sqrt k ≤ (r : ℚ) / 2 := by
  have habs : |(r : ℤ)| ≤ 2 ^ 24 := by
    rw [abs_of_nonneg (by positivity)]
    exact_mod_cast hr
  have hcast : (4 * k : ℚ) ≤ r ^ 2 := by exact_mod_cast h
  refine E.sqrt_le k _ (by positivity) (by simpa using E.half r habs) ?_
  rw [div_pow]
  linarith

theorem half_le_sqrt (E : Floats) {k r : ℕ} (hr : r ≤ 2 ^ 24) (h : r ^ 2 ≤ 4 * k) : (r : ℚ) / 2 ≤ E.sqrt k := by
  have habs : |(r : ℤ)| ≤ 2 ^ 24 := by
    rw [abs_of_nonneg (by positivity)]
    exact_mod_cast hr
  have hcast : (r ^ 2 : ℚ) ≤ 4 * k := by exact_mod_cast h
  refine E.le_sqrt k _ (by positivity) (by simpa using E.half r habs) ?_
  rw [div_pow]
  linarith

theorem values_sorted (E : Floats) (i j : ℕ) (hij : i ≤ j) : E.values i ≤ E.values j := E.sqrt_mono (by omega)

/-- the roots of the table and the key are between 1 and 23 -/
theorem sqrt_bounds (E : Floats) {k : ℕ} (h1 : 1 ≤ k) (h2 : k ≤ arrSize) : 1 ≤ E.sqrt k ∧ E.sqrt k ≤ 23 := by
  unfold arrSize at h2
  exact ⟨by simpa using natCast_le_sqrt E (r := 1) (by norm_num) (by omega),
    by simpa using sqrt_le_natCast E (r := 23) (by norm_num) (by omega)⟩

theorem comparable_of_sqrt (E : Floats) {k l : ℕ} (hk : 1 ≤ k ∧ k ≤ arrSize) (hl : 1 ≤ l ∧ l ≤ arrSize) :
    Comparable E (E.sqrt k) (E.sqrt l) := by
  obtain ⟨hk1, hk2⟩ := sqrt_bounds E hk.1 hk.2
  obtain ⟨hl1, hl2⟩ := sqrt_bounds E hl.1 hl.2
  have hup : E.fl (E.sqrt k - E.sqrt l) ≤ E.fl (22 : ℕ) := E.mono (by push_cast; linarith)
  have hdown : E.fl (-(22 : ℕ)) ≤ E.fl (E.sqrt k - E.sqrt l) := E.mono (by push_cast; linarith)
  rw [E.neg, fl_natCast E (by norm_num)] at hdown
  rw [fl_natCast E (by norm_num)] at hup
  push_cast at hup hdown
  rw [Comparable, abs_lt]
  constructor <;> linarith

theorem comparable_key (E : Floats) {i : ℕ} (hi : i < arrSize) : Comparable E E.key (E.values i) :=
  comparable_of_sqrt E ⟨by norm_num, by norm_num [arrSize]⟩ ⟨by omega, hi⟩

/-- a place that compares equal to the key is near it -/
theorem near_of_keyOf_eq_zero (E : Floats) {i : ℕ} (hi : i < arrSize) (h : keyOf E E.values E.key i = 0) :
    342 ≤ i ∧ i < 440 := by
  rw [keyOf, compareFloat_eq_zero (comparable_key E hi), abs_lt] at h
  have hkey1 : ((39 : ℕ) : ℚ) / 2 ≤ E.key := half_le_sqrt E (by norm_num) (by norm_num)
  have hkey2 : E.key ≤ (20 : ℕ) := sqrt_le_natCast E (by norm_num) (by norm_num)
  push_cast at hkey1 hkey2
  have hone := fl_one E
  by_contra hnot
  rcases Nat.lt_or_ge i 342 with hlt | hge
  · have hval : E.values i ≤ ((37 : ℕ) : ℚ) / 2 := sqrt_le_half E (by norm_num) (by norm_num; omega)
    push_cast at hval
    have hfl : E.fl 1 ≤ E.fl (E.key - E.values i) := E.mono (by linarith)
    linarith
  · have hval : ((21 : ℕ) : ℚ) ≤ E.values i := natCast_le_sqrt E (by norm_num) (by norm_num; omega)
    push_cast at hval
    have hfl : E.fl 1 ≤ E.fl (-(E.key - E.values i)) := E.mono (by linarith)
    rw [E.neg] at hfl
    linarith

/-- where `bsearch` looks when it halves the table -/
theorem halving_finds (E : Floats) : bsearch halving (keyOf E E.values E.key) arrSize = some 384 := by
  have hkey1 : ((39 : ℕ) : ℚ) / 2 ≤ E.key := half_le_sqrt E (by norm_num) (by norm_num)
  have hkey2 : E.key ≤ (20 : ℕ) := sqrt_le_natCast E (by norm_num) (by norm_num)
  push_cast at hkey1 hkey2
  have h256 : 0 < keyOf E E.values E.key 256 := by
    have hval : E.values 256 ≤ (17 : ℕ) := sqrt_le_natCast E (by norm_num) (by norm_num)
    push_cast at hval
    have hfl : E.fl 1 ≤ E.fl (E.key - E.values 256) := E.mono (by linarith)
    rw [fl_one] at hfl
    exact (compareFloat_pos (comparable_key E (by norm_num [arrSize]))).2 hfl
  have h384 : keyOf E E.values E.key 384 = 0 := by
    have hval1 : ((39 : ℕ) : ℚ) / 2 ≤ E.values 384 := half_le_sqrt E (by norm_num) (by norm_num)
    have hval2 : E.values 384 ≤ (20 : ℕ) := sqrt_le_natCast E (by norm_num) (by norm_num)
    push_cast at hval1 hval2
    have hhalf : E.fl (1 / 2) = 1 / 2 := by simpa using E.half 1 (by norm_num)
    have hup : E.fl (E.key - E.values 384) ≤ E.fl (1 / 2) := E.mono (by linarith)
    have hdown : E.fl (-(1 / 2)) ≤ E.fl (E.key - E.values 384) := E.mono (by linarith)
    rw [E.neg, hhalf] at hdown
    rw [hhalf] at hup
    rw [keyOf, compareFloat_eq_zero (comparable_key E (by norm_num [arrSize])), abs_lt]
    constructor <;> linarith
  -- the first turn goes to the right of 256, the second ends at 384
  show search halving (keyOf E E.values E.key) (510 + 1 + 1) 0 512 = some 384
  simp [search, halving, h256, not_lt.2 h256.le, h384]

/-- **What `library_calls` finds**: never nothing, but not what it looks for. -/
theorem libraryCalls_value (E : Floats) (P : Probe) :
    (∃ i, (libraryCalls E P true).value = some i ∧ 342 ≤ i ∧ i < 440) ∧
    (libraryCalls E halving true).value = some 384 ∧ E.values 382 = E.key ∧
    ∃ i < arrSize, bsearch P (keyOf E E.values (E.values i)) arrSize ≠ some i := by
  have horder : InOrder (keyOf E E.values E.key) arrSize :=
    inOrder_keyOf (fun i j hij _ => values_sorted E i j hij) fun i hi => comparable_key E hi
  have hself : keyOf E E.values E.key 382 = 0 := keyOf_self (i := 382) (comparable_key E (by norm_num [arrSize]))
  refine ⟨?_, halving_finds E, rfl, ?_⟩
  · obtain ⟨i, hi⟩ := Option.isSome_iff_exists.1 ((search_isSome_iff (P := P) horder).2 ⟨382, by norm_num [arrSize], hself⟩)
    obtain ⟨-, hlt, hzero⟩ := search_sound hi
    exact ⟨i, hi, near_of_keyOf_eq_zero E hlt hzero⟩
  · -- the roots of 1 and 2 are half a unit apart at most
    by_contra hall
    push Not at hall
    have hcomp : ∀ i j, i < arrSize → j < arrSize → Comparable E (E.values i) (E.values j) :=
      fun i j hi hj => comparable_of_sqrt E ⟨by omega, hi⟩ ⟨by omega, hj⟩
    have hfar := far_of_found (fun i j hij _ => values_sorted E i j hij) hcomp hall 0 1 (by norm_num) (by norm_num [arrSize])
    have hval0 : ((2 : ℕ) : ℚ) / 2 ≤ E.values 0 := half_le_sqrt E (by norm_num) (by norm_num)
    have hval1 : E.values 1 ≤ ((3 : ℕ) : ℚ) / 2 := sqrt_le_half E (by norm_num) (by norm_num)
    push_cast at hval0 hval1
    have hhalf : E.fl (1 / 2) = 1 / 2 := by simpa using E.half 1 (by norm_num)
    have hup : E.fl (E.values 1 - E.values 0) ≤ E.fl (1 / 2) := E.mono (by linarith)
    linarith

/-! ## main -/

/-- `n` more calls of `library_calls` after `k`, up to one that fails; what `main` returns, and the calls for memory -/
def mainLoop (E : Floats) (P : Probe) (ok : ℕ → Bool) : ℕ → ℕ → ℤ × List Call
  | 0, _ => (0, [])
  | n + 1, k =>
    let r := libraryCalls E P (ok k)
    if r.ret ≠ 0 then (-1, r.calls)
    else
      let m := mainLoop E P ok n (k + 1)
      (m.1, r.calls ++ m.2)

/-- `iterations` is what `atoi` makes of the argument, and `ok k` the answer of the `k`-th `malloc` -/
def main (E : Floats) (P : Probe) (argc : ℕ) (iterations : ℤ) (ok : ℕ → Bool) : ℤ × List Call :=
  if argc < 2 then (-1, [])
  else if iterations ≤ 0 then (-1, [])
  else mainLoop E P ok iterations.toNat 0

theorem mainLoop_spec (E : Floats) (P : Probe) (ok : ℕ → Bool) (n k : ℕ) :
    (mainLoop E P ok n k).2.count (.malloc true) = (mainLoop E P ok n k).2.count .free ∧
      ((mainLoop E P ok n k).1 = 0 ↔ ∀ i < n, ok (k + i)) := by
  induction n generalizing k with
  | zero => simp [mainLoop]
  | succ n ih =>
    obtain ⟨hcount, hret⟩ := ih (k + 1)
    cases hk : ok k with
    | false =>
      refine ⟨by simp [mainLoop, libraryCalls, hk], ?_⟩
      simp only [mainLoop, libraryCalls, hk]
      simp only [Bool.false_eq_true, if_false, ne_eq, neg_eq_zero, one_ne_zero, not_false_iff, if_true, false_iff]
      intro hall
      have h0 := hall 0 (Nat.succ_pos n)
      rw [Nat.add_zero, hk] at h0
      cases h0
    | true =>
      constructor
      · simp [mainLoop, libraryCalls, hk, hcount]
      · have hcons : (mainLoop E P ok (n + 1) k).1 = (mainLoop E P ok n (k + 1)).1 := by simp [mainLoop, libraryCalls, hk]
        rw [hcons, hret]
        constructor
        · intro hall i hi
          cases i with
          | zero => exact hk
          | succ i =>
            rw [Nat.add_comm i 1, ← Nat.add_assoc]
            exact hall i (Nat.lt_of_succ_lt_succ hi)
        · intro hall i hi
          rw [Nat.add_assoc, Nat.add_comm 1 i]
          exact hall (i + 1) (Nat.succ_lt_succ hi)

end Cse422.ArrSearch
