/-
The length-prefixed format of `appendfile_count.c`, apart from the reader that comes with it.

- `records_decode`: the number in front of a record is the length of its body, in every run; a decoder that reads a
  number, skips a space and takes that many bytes finds the bodies of all records in order, with nothing left over,
  whatever the arguments look like; and one more append adds one body.

The number comes from a loop of its own in `unsigned long`. It does not wrap around, because the strings it counts are
in memory together with `argv[0]` and the name of the file (`InMemory`).
-/
import Cse422.Core.Framing
import Cse422.Records.RoundTrip

namespace Cse422.Records

open Words Framing

/-! ## The runs -/

/-- a run of the program: the strings of `argv` have their own bytes in memory, each with its NUL -/
structure InMemory extends AppendRun where
  fits : 1 + 1 + (args.map fun a => a.length + 1).sum ≤ 2 ^ 64

def InMemory.body (r : InMemory) : List Byte := recordBody r.args

theorem recordBody_length (args : List (List Byte)) :
    (recordBody args).length = (args.map fun a => a.length + 1).sum + 1 := by
  simp only [recordBody, List.length_append, List.length_flatten, List.map_map, List.length_singleton]
  congr 2
  exact List.map_congr_left fun a _ => List.length_append

/-- the loop that counts and the loop that writes agree -/
theorem InMemory.recordLen_eq (r : InMemory) : recordLen r.args = r.body.length := by
  rw [InMemory.body, recordBody_length, recordLen]
  apply Nat.mod_eq_of_lt
  have hfits := r.fits
  omega

/-! ## The decoder -/

def isDigit (c : Byte) : Bool := 48 ≤ c.toNat && c.toNat ≤ 57

/-- the number that digits stand for -/
def value (digits : List Byte) : ℕ := digits.foldl (fun n c => 10 * n + (c.toNat - 48)) 0

/-- a number, a space, and that many bytes; and what follows -/
def nextRecord (bs : List Byte) : Option (List Byte × List Byte) :=
  let digits := bs.takeWhile isDigit
  match bs.dropWhile isDigit with
  | [] => none
  | c :: rest =>
    if digits ≠ [] ∧ c = space ∧ value digits ≤ rest.length then
      some (rest.take (value digits), rest.drop (value digits))
    else none

section Decoder

variable {bs body rest digits : List Byte}

theorem space_not_digit : isDigit space = false := rfl

theorem nextRecord_eq (hd : ∀ c ∈ digits, isDigit c) (hne : digits ≠ []) (hlen : value digits = body.length) :
    nextRecord (digits ++ space :: (body ++ rest)) = some (body, rest) := by
  have htake : (digits ++ space :: (body ++ rest)).takeWhile isDigit = digits := by
    rw [List.takeWhile_append_of_pos hd, List.takeWhile_cons_of_neg (by simp [space_not_digit]), List.append_nil]
  have hdrop : (digits ++ space :: (body ++ rest)).dropWhile isDigit = space :: (body ++ rest) := by
    rw [List.dropWhile_append_of_pos hd, List.dropWhile_cons_of_neg (by simp [space_not_digit])]
  simp only [nextRecord, htake, hdrop, hlen]
  rw [if_pos ⟨hne, trivial, by simp⟩, List.take_left, List.drop_left]

/-- what a record that is taken off looks like -/
theorem nextRecord_shape (h : nextRecord bs = some (body, rest)) :
    ∃ digits, (∀ c ∈ digits, isDigit c) ∧ digits ≠ [] ∧ value digits = body.length ∧
      bs = digits ++ space :: (body ++ rest) := by
  have hsplit : bs.takeWhile isDigit ++ bs.dropWhile isDigit = bs := List.takeWhile_append_dropWhile
  unfold nextRecord at h
  cases hdrop : bs.dropWhile isDigit with
  | nil => simp [hdrop] at h
  | cons c tail =>
    simp only [hdrop] at h
    split_ifs at h with hc
    obtain ⟨hne, rfl, hle⟩ := hc
    obtain ⟨rfl, rfl⟩ := Prod.mk.inj (Option.some.inj h)
    refine ⟨bs.takeWhile isDigit, fun c hc => List.mem_takeWhile_imp hc, hne, ?_, ?_⟩
    · rw [List.length_take, Nat.min_eq_left hle]
    · rw [List.take_append_drop, ← hdrop, hsplit]

/-- the reference decoder -/
def decoder : Decoder (List Byte) Byte where
  next := nextRecord
  shortens h := by
    obtain ⟨digits, -, -, -, rfl⟩ := nextRecord_shape h
    simp only [List.length_append, List.length_cons]
    omega

theorem decoder_local : decoder.Local := by
  intro bs body rest t h
  obtain ⟨digits, hd, hne, hlen, rfl⟩ := nextRecord_shape h
  rw [List.append_assoc, List.cons_append, List.append_assoc]
  exact nextRecord_eq hd hne hlen

end Decoder

/-! ## Decimal numbers -/

theorem decimal_isDigit (n : ℕ) : ∀ c ∈ decimal n, isDigit c := by
  intro c hc
  obtain ⟨h48, h57⟩ := decimal_digit hc
  simp [isDigit, h48, h57]

theorem decimal_ne_nil (n : ℕ) : decimal n ≠ [] := by
  simp [decimal, Nat.toDigits_ne_nil]

theorem value_decimal (n : ℕ) : value (decimal n) = n := by
  rw [value, decimal, List.foldl_map]
  calc (Nat.toDigits 10 n).foldl (fun m c => 10 * m + ((BitVec.ofNat 8 c.toNat).toNat - 48)) 0
      = (Nat.toDigits 10 n).foldl (fun m c => 10 * m + (c.toNat - 48)) 0 := by
        apply List.foldl_ext
        intro m c hc
        have hdig := Nat.isDigit_of_mem_toDigits (by decide) (by decide) hc
        have h57 : c.toNat ≤ 57 := (Char.isDigit_iff_toNat.1 hdig).2
        rw [BitVec.toNat_ofNat, Nat.mod_eq_of_lt (by omega)]
    _ = Nat.ofDigitChars 10 (Nat.toDigits 10 n) 0 := rfl
    _ = n := Nat.ofDigitChars_ten_toDigits

/-! ## Result -/

theorem nextRecord_record (r : InMemory) (rest : List Byte) :
    nextRecord (record r.args ++ rest) = some (r.body, rest) := by
  have hlen : value (decimal (recordLen r.args)) = r.body.length := by rw [value_decimal, r.recordLen_eq]
  have hrecord : record r.args ++ rest = decimal (recordLen r.args) ++ space :: (r.body ++ rest) := by
    simp [record, InMemory.body]
  rw [hrecord]
  exact nextRecord_eq (decimal_isDigit _) (decimal_ne_nil _) hlen

/-- **The file decodes to its records**, and an append adds one. -/
theorem records_decode (runs : List InMemory) :
    (∀ r : InMemory, ∃ digits, record r.args = digits ++ space :: r.body ∧ space ∉ digits ∧
        value digits = r.body.length) ∧
      decoder.all (produced (runs.map InMemory.toAppendRun)) = some (runs.map InMemory.body) ∧
      ∀ r : InMemory, decoder.all (appendMain (produced (runs.map InMemory.toAppendRun)) r.args) =
        some (runs.map InMemory.body ++ [r.body]) := by
  have hdecode : decoder.all (produced (runs.map InMemory.toAppendRun)) = some (runs.map InMemory.body) := by
    rw [produced_eq, List.map_map]
    exact all_flatten (d := decoder) nextRecord_record runs
  refine ⟨?_, hdecode, ?_⟩
  · intro r
    refine ⟨decimal (recordLen r.args), ?_, space_notMem_decimal _, ?_⟩
    · simp [record, InMemory.body]
    · rw [value_decimal, r.recordLen_eq]
  · intro r
    have hlast : decoder.all (record r.args) = some [r.body] := by
      have h := all_flatten (d := decoder) nextRecord_record [r]
      simpa using h
    rw [appendMain, if_neg r.nonempty, all_append decoder_local hdecode, hlast]
    rfl

/-- `appendcount_test.txt` -/
def sampleFile : List Byte :=
  [56, 32, 72, 101, 108, 108, 111, 44, 32, 10] ++ [56, 32, 87, 111, 114, 108, 100, 33, 32, 10] ++
    [49, 56, 32, 105, 115, 32, 116, 104, 105, 115, 32, 99, 111, 114, 114, 101, 99, 116, 63, 32, 10]

example : (decoder.all sampleFile).map (List.map List.length) = some [8, 8, 18] := by decide

end Cse422.Records
