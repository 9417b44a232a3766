/-
How the kernel reads and prints a number for the two modules of studio 5: `kstrtoint` with base 10, and `sprintf` with
`"%d\n"`. The first is kernel code; it is written down after what the kernel says of it, and both modules use it.

- `kstrtoint_printInt`: the text that a file shows is accepted, and stands for the value shown;
- `kstrtoint_inInt`: what is accepted fits an `int`.

Premises: `kstrtoint` takes one sign (a minus or a plus), at least one digit, and at most one newline before the end of
the string, and answers `-EINVAL` to any other text and `-ERANGE` to a number that is no `int`; it stores nothing when it
fails.
-/
import Cse422.Records.Decoding
import Cse422.Records.Header

namespace Cse422.Kobject

open Words Records

def eInval : ℤ := 22
def eRange : ℤ := 34

/-- `sprintf(buf, "%d\n", v)`, without its NUL -/
def printInt (v : ℤ) : List Byte := (if v < 0 then [45] else []) ++ decimal v.natAbs ++ [newline]

/-- whether there is a minus, and the text after a sign -/
def splitSign : List Byte → Bool × List Byte
  | [] => (false, [])
  | c :: rest => if c = 45 then (true, rest) else if c = 43 then (false, rest) else (false, c :: rest)

/-- `kstrtoint(buf, 10, &res)`: a sign, digits, and one newline before the end of the string -/
def kstrtoint (buf : List Byte) : Except ℤ ℤ :=
  let s := splitSign (buf.takeWhile fun c => c ≠ 0)
  let digits := s.2.takeWhile isDigit
  let rest := s.2.dropWhile isDigit
  if digits = [] then .error (-eInval)
  else if 2 ^ 64 ≤ value digits then .error (-eRange)
  else if rest ≠ [] ∧ rest ≠ [newline] then .error (-eInval)
  else
    let v : ℤ := if s.1 then -value digits else value digits
    if -2 ^ 31 ≤ v ∧ v < 2 ^ 31 then .ok v else .error (-eRange)

/-- the text of a number that has come from `kstrtoint` -/
theorem kstrtoint_inInt {buf : List Byte} {v : ℤ} (h : kstrtoint buf = .ok v) : InInt v := by
  simp only [kstrtoint] at h
  split_ifs at h with h1 h2 h3 h4 h5
  all_goals
    obtain rfl := Except.ok.inj h
    assumption

theorem decimal_ne_zero (n : ℕ) : ∀ c ∈ decimal n, (decide (c ≠ 0)) = true := by
  intro c hc
  have hdigit := isDigit_iff.1 (decimal_isDigit n c hc)
  rw [decide_eq_true_iff]
  rintro rfl
  exact absurd hdigit.1 (by decide)

/-- digits are no sign -/
theorem splitSign_digits {digits : List Byte} (hd : ∀ c ∈ digits, isDigit c) (rest : List Byte) (hne : digits ≠ []) :
    splitSign (digits ++ rest) = (false, digits ++ rest) := by
  obtain ⟨c, ds, rfl⟩ := List.exists_cons_of_ne_nil hne
  have hc := isDigit_iff.1 (hd c List.mem_cons_self)
  have h45 : c ≠ 45 := by
    rintro rfl
    exact absurd hc.1 (by decide)
  have h43 : c ≠ 43 := by
    rintro rfl
    exact absurd hc.1 (by decide)
  rw [List.cons_append, splitSign, if_neg h45, if_neg h43]

theorem splitSign_printInt (v : ℤ) :
    splitSign ((printInt v).takeWhile fun c => c ≠ 0) = (decide (v < 0), decimal v.natAbs ++ [newline]) := by
  have hdec := decimal_ne_zero v.natAbs
  have htail : (decimal v.natAbs ++ [newline]).takeWhile (fun c : Byte => decide (c ≠ 0)) = decimal v.natAbs ++ [newline] := by
    rw [List.takeWhile_append_of_pos hdec]
    rfl
  unfold printInt
  split_ifs with hv
  · have hminus : ((45 : Byte) :: (decimal v.natAbs ++ [newline])).takeWhile (fun c => decide (c ≠ 0)) =
        45 :: (decimal v.natAbs ++ [newline]) := by
      rw [List.takeWhile_cons_of_pos (by decide), htail]
    rw [List.append_assoc, List.singleton_append, hminus, splitSign, if_pos rfl, decide_eq_true hv]
  · rw [List.nil_append, htail, splitSign_digits (decimal_isDigit _) _ (decimal_ne_nil _), decide_eq_false hv]

/-- **What is printed is read back.** -/
theorem kstrtoint_printInt {v : ℤ} (hv : InInt v) : kstrtoint (printInt v) = .ok v := by
  obtain ⟨hlo, hhi⟩ := hv
  have hdigits : (decimal v.natAbs ++ [newline]).takeWhile isDigit = decimal v.natAbs := by
    rw [List.takeWhile_append_of_pos (decimal_isDigit v.natAbs)]
    exact List.append_nil _
  have hrest : (decimal v.natAbs ++ [newline]).dropWhile isDigit = [newline] := by
    rw [List.dropWhile_append_of_pos (decimal_isDigit v.natAbs)]
    rfl
  have hbound : ¬ 2 ^ 64 ≤ v.natAbs := by omega
  have hvalue : (if decide (v < 0) = true then -(v.natAbs : ℤ) else v.natAbs) = v := by
    split_ifs with hneg
    · have hlt := of_decide_eq_true hneg
      omega
    · have hge : ¬ v < 0 := fun h => hneg (decide_eq_true h)
      omega
  simp only [kstrtoint, splitSign_printInt, hdigits, hrest, value_decimal, hvalue]
  rw [if_neg (decimal_ne_nil _), if_neg hbound, if_neg (by simp), if_pos ⟨hlo, hhi⟩]

end Cse422.Kobject
