/-
The numbers between `appendfile_count.c` and `readfile.c`: `"%lu "` on one side, `getLineLen` on the other.

- `headerRead_iff`: `getLineLen` gives the number back exactly when it is below `2 ^ 31`. Up to there its `int` follows
  the digits; the first accumulation that leaves `int` is an overflow, and without one the result is the number.

Every `unsigned long` can be printed, so the other half is reachable: `header_wraps` is the first number that is lost.
-/
import Cse422.Records.Decoding

namespace Cse422.Records

open Words

/-! ## Properties -/

/-- the values of `int` -/
def InInt (x : ℤ) : Prop := -2 ^ 31 ≤ x ∧ x < 2 ^ 31

instance (x : ℤ) : Decidable (InInt x) := inferInstanceAs (Decidable (_ ∧ _))

/-- no operation of `getLineLen` leaves `int` on these bytes -/
def NoOverflow (len : ℤ) : List Byte → Prop
  | [] => True
  | c :: rest =>
    if c = space then True
    else InInt (len * 10) ∧ InInt (wrapInt (len * 10) + (c.toNat - 48)) ∧
      NoOverflow (wrapInt (wrapInt (len * 10) + (c.toNat - 48))) rest

/-- the header of `len`, in front of `rest`, is read back: the digits and the space are consumed and nothing else, the
result is `len` again as an `unsigned long`, and no operation overflows -/
structure HeaderRead (len : ℕ) (rest : List Byte) : Prop where
  consumes : (getLineLen 0 (decimal len ++ space :: rest)).2 = (rest, false)
  result : toULong (getLineLen 0 (decimal len ++ space :: rest)).1 = len
  noOverflow : NoOverflow 0 (decimal len ++ space :: rest)

/-! ## Digit by digit -/

/-- what `digits` make of a number that has been read so far -/
def valueFrom (n : ℕ) (digits : List Byte) : ℕ := digits.foldl (fun n c => 10 * n + (c.toNat - 48)) n

section Digits

variable {c : Byte} {digits : List Byte} {n : ℕ}

theorem valueFrom_zero (digits : List Byte) : valueFrom 0 digits = value digits := rfl

theorem valueFrom_cons (n : ℕ) (c : Byte) (digits : List Byte) :
    valueFrom n (c :: digits) = valueFrom (10 * n + (c.toNat - 48)) digits := by
  rw [valueFrom, List.foldl_cons, ← valueFrom]

theorem le_valueFrom (n : ℕ) (digits : List Byte) : n ≤ valueFrom n digits := by
  induction digits generalizing n with
  | nil => exact le_rfl
  | cons c digits ih =>
    calc n ≤ 10 * n + (c.toNat - 48) := by omega
      _ ≤ valueFrom (10 * n + (c.toNat - 48)) digits := ih _
      _ = valueFrom n (c :: digits) := (valueFrom_cons n c digits).symm

theorem wrapInt_of_inInt {x : ℤ} (h : InInt x) : wrapInt x = x := by
  obtain ⟨hlo, hhi⟩ := h
  apply Int.bmod_eq_of_le
  · omega
  · omega

theorem inInt_natCast : InInt n ↔ n < 2 ^ 31 := by
  simp only [InInt]
  omega

theorem ne_space_of_isDigit (hc : isDigit c) : c ≠ space := by
  rintro rfl
  exact absurd hc (by decide)

theorem isDigit_iff : isDigit c ↔ 48 ≤ c.toNat ∧ c.toNat ≤ 57 := by
  simp [isDigit]

/-- a digit is added in two operations; their results are in `int` when the new number is -/
theorem accumulate (hc : isDigit c) (h : 10 * n + (c.toNat - 48) < 2 ^ 31) :
    InInt (n * 10 : ℤ) ∧ InInt (wrapInt (n * 10) + (c.toNat - 48)) ∧
      wrapInt (wrapInt (n * 10) + (c.toNat - 48)) = (10 * n + (c.toNat - 48) : ℕ) := by
  obtain ⟨hlo, hhi⟩ := isDigit_iff.1 hc
  have hten : InInt (n * 10 : ℤ) := by
    constructor
    · omega
    · omega
  have hsum : wrapInt (n * 10 : ℤ) + (c.toNat - 48) = (10 * n + (c.toNat - 48) : ℕ) := by
    rw [wrapInt_of_inInt hten]
    omega
  have hnew : InInt ((10 * n + (c.toNat - 48) : ℕ) : ℤ) := inInt_natCast.2 h
  rw [hsum]
  exact ⟨hten, hnew, wrapInt_of_inInt hnew⟩

theorem getLineLen_digits (hd : ∀ c ∈ digits, isDigit c) (hn : valueFrom n digits < 2 ^ 31) (rest : List Byte) :
    getLineLen n (digits ++ space :: rest) = ((valueFrom n digits : ℤ), rest, false) := by
  induction digits generalizing n with
  | nil => simp [getLineLen, valueFrom]
  | cons c digits ih =>
    obtain ⟨hc, hd⟩ := List.forall_mem_cons.1 hd
    rw [valueFrom_cons] at hn ⊢
    obtain ⟨-, -, hacc⟩ := accumulate hc ((le_valueFrom _ _).trans_lt hn)
    rw [List.cons_append, getLineLen, if_neg (ne_space_of_isDigit hc), hacc]
    exact ih hd hn

theorem noOverflow_digits (hd : ∀ c ∈ digits, isDigit c) (hn : n < 2 ^ 31) (rest : List Byte) :
    NoOverflow n (digits ++ space :: rest) ↔ valueFrom n digits < 2 ^ 31 := by
  induction digits generalizing n with
  | nil => simpa [NoOverflow, valueFrom] using hn
  | cons c digits ih =>
    obtain ⟨hc, hd⟩ := List.forall_mem_cons.1 hd
    rw [List.cons_append, NoOverflow, if_neg (ne_space_of_isDigit hc), valueFrom_cons]
    by_cases hnew : 10 * n + (c.toNat - 48) < 2 ^ 31
    · obtain ⟨hten, hsum, hacc⟩ := accumulate hc hnew
      rw [hacc, ih hd hnew]
      exact ⟨fun h => h.2.2, fun h => ⟨hten, hsum, h⟩⟩
    · -- the digit that leads out of `int`
      constructor
      · rintro ⟨hten, hsum, -⟩
        obtain ⟨hlo, -⟩ := isDigit_iff.1 hc
        obtain ⟨-, hhi⟩ := hsum
        rw [wrapInt_of_inInt hten] at hhi
        omega
      · intro h
        exact absurd ((le_valueFrom _ _).trans_lt h) hnew

end Digits

/-! ## Result -/

theorem toULong_natCast {n : ℕ} (h : n < 2 ^ 31) : toULong n = n := by
  simp only [toULong]
  omega

/-- **A header is read back exactly when its number is an `int`.** -/
theorem headerRead_iff (len : ℕ) (rest : List Byte) : HeaderRead len rest ↔ len < 2 ^ 31 := by
  have hd := decimal_isDigit len
  have hvalue : valueFrom 0 (decimal len) = len := by rw [valueFrom_zero, value_decimal]
  have hover := noOverflow_digits hd (n := 0) (by decide) rest
  rw [hvalue] at hover
  constructor
  · intro h
    exact hover.1 h.noOverflow
  · intro hlen
    have hget := getLineLen_digits hd (n := 0) (by rw [hvalue]; exact hlen) rest
    rw [hvalue] at hget
    exact ⟨congrArg Prod.snd hget, (congrArg (toULong ∘ Prod.fst) hget).trans (toULong_natCast hlen), hover.2 hlen⟩

/-- `2147483648 ` is read as `-2 ^ 31`, which is another `unsigned long` -/
theorem header_wraps : decimal (2 ^ 31) = [50, 49, 52, 55, 52, 56, 51, 54, 52, 56] ∧
    getLineLen 0 (decimal (2 ^ 31) ++ space :: []) = (-2 ^ 31, [], false) ∧ toULong (-2 ^ 31) = 2 ^ 64 - 2 ^ 31 ∧
      ¬ ∀ len < 2 ^ 64, ∀ rest, HeaderRead len rest := by
  refine ⟨by decide +kernel, by decide +kernel, by decide, ?_⟩
  intro h
  have hresult := (h (2 ^ 31) (by decide) []).result
  revert hresult
  decide +kernel

end Cse422.Records
