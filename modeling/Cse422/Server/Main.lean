/-
The server of `studios/studio18/serverip.c`. It accepts one client after another, reads once from each into a block of
20 words that `malloc` returns, and goes through all the words of the block: it prints each one, up to the first that
is a newline or the code that shuts the server down.

What a client finds in memory that nobody has initialised is in `Before`: the contents of the block, and `recv_data`.
`loop` is the `for` loop, `serve` one turn of the main loop and `serverMain` the main loop, for any number of clients.

Premises: the host is little-endian and `unsigned int` has 32 bits; `read` returns -1 or the first bytes that have come,
at most as many as asked for; `printf` does not fail.

- `toNat_recvData`: only the first two bytes of a word count;
- `loop_fst`, `loop_shutdown`: what the loop prints and leaves, from the values in the block.
-/
import Mathlib.Data.List.TakeWhile
import Cse422.Core.Words

namespace Cse422.Server

open Words

/-! ## The program -/

def dataLen : ℕ := 20

/-- `'\n'` -/
def newline : Word := 10

/-- the code that shuts the server down -/
def coffeeTerminate : Word := 418

/-- swaps the bytes, on a little-endian host -/
def ntohs (x : BitVec 16) : BitVec 16 := x.extractLsb' 0 8 ++ x.extractLsb' 8 8

/-- `recv_data = ntohs(data[i])`: the word is converted to the 16 bits of the parameter, and back -/
def recvData (data : Mem) (i : ℕ) : Word := (ntohs ((load data (4 * i)).setWidth 16)).setWidth 32

/-- what is printed of a client -/
inductive Line where
  | connected (clientCount : ℕ)
  | received (v : Word)
  | terminate
  | read (recvLen uints : ℕ)
  deriving DecidableEq, Repr

/-- the `for` loop with `n` turns left, and `recv_data` as it was; what it prints, and `recv_data` after it -/
def loop (data : Mem) : ℕ → ℕ → Word → List Line × Word
  | 0, _, last => ([], last)
  | n + 1, i, _ =>
    if recvData data i = newline then ([], recvData data i)
    else if recvData data i = coffeeTerminate then ([.terminate], recvData data i)
    else
      let r := loop data n (i + 1) (recvData data i)
      (.received (recvData data i) :: r.1, r.2)

/-- what is in memory before a client is served -/
structure Before where
  /-- the block that `malloc` returns -/
  block : Mem
  recvData : Word

/-- what `read` gives: at most as many bytes as the block has -/
structure Received where
  bytes : List Byte
  bound : bytes.length ≤ 4 * dataLen

/-- the block after `read` -/
def readInto (block : Mem) (bytes : List Byte) : Mem := fun a => bytes.getD a (block a)

structure Served where
  lines : List Line
  shutdown : Bool
  deriving DecidableEq

/-- the main loop's body, from `read` to its last test -/
def serve (b : Before) (r : Received) : Served :=
  let data := readInto b.block r.bytes
  let l := loop data dataLen 0 b.recvData
  ⟨l.1 ++ [.read r.bytes.length (r.bytes.length / 4)], l.2 = coffeeTerminate⟩

/-- what the next client makes of `accept` and `read` -/
inductive Client where
  /-- `accept` returns -1 -/
  | notAccepted
  /-- `read` returns -1 -/
  | notRead
  | sends (r : Received)

inductive Ending where
  /-- in `accept` -/
  | waiting
  /-- exited by `handle_error` -/
  | failed
  | closed
  deriving DecidableEq, Repr

/-- the main loop after `k` clients, with what each client finds in memory -/
def serverMain (before : ℕ → Before) : ℕ → List Client → List Line × Ending
  | _, [] => ([], .waiting)
  | _, .notAccepted :: _ => ([], .failed)
  | k, .notRead :: _ => ([.connected (k + 1)], .failed)
  | k, .sends r :: rest =>
    let c := serve (before k) r
    if c.shutdown then (.connected (k + 1) :: c.lines, .closed)
    else
      let m := serverMain before (k + 1) rest
      (.connected (k + 1) :: c.lines ++ m.1, m.2)

/-! ## Spec lemmas -/

theorem toNat_ntohs (x : BitVec 16) : (ntohs x).toNat = 2 ^ 8 * (x.toNat % 2 ^ 8) + x.toNat / 2 ^ 8 := by
  have hx := x.isLt
  rw [ntohs, BitVec.toNat_append, BitVec.extractLsb'_toNat, BitVec.extractLsb'_toNat, Nat.shiftRight_zero,
    Nat.shiftRight_eq_div_pow, Nat.mod_eq_of_lt (a := x.toNat / 2 ^ 8) (by omega),
    ← Nat.shiftLeft_add_eq_or_of_lt (by omega), Nat.shiftLeft_eq]
  omega

/-- only the first two bytes of a word count, and the first is the high one -/
theorem toNat_recvData (data : Mem) (i : ℕ) :
    (recvData data i).toNat = 2 ^ 8 * (data (4 * i)).toNat + (data (4 * i + 1)).toNat := by
  have h₀ := (data (4 * i)).isLt
  have h₁ := (data (4 * i + 1)).isLt
  have hlow : ((load data (4 * i)).setWidth 16).toNat = (data (4 * i)).toNat + 2 ^ 8 * (data (4 * i + 1)).toNat := by
    rw [BitVec.toNat_setWidth, load, toNat_ofBytes]
    omega
  have hmod : ((data (4 * i)).toNat + 2 ^ 8 * (data (4 * i + 1)).toNat) % 2 ^ 8 = (data (4 * i)).toNat := by omega
  have hdiv : ((data (4 * i)).toNat + 2 ^ 8 * (data (4 * i + 1)).toNat) / 2 ^ 8 = (data (4 * i + 1)).toNat := by omega
  rw [recvData, BitVec.toNat_setWidth, toNat_ntohs, hlow, hmod, hdiv]
  omega

theorem recvData_congr {data data' : Mem} {i : ℕ} (h₀ : data (4 * i) = data' (4 * i))
    (h₁ : data (4 * i + 1) = data' (4 * i + 1)) : recvData data i = recvData data' i := by
  apply BitVec.eq_of_toNat_eq
  rw [toNat_recvData, toNat_recvData, h₀, h₁]

theorem readInto_of_lt {bytes : List Byte} {a : ℕ} (h : a < bytes.length) (block : Mem) :
    readInto block bytes a = bytes[a] := by simp [readInto, h]

theorem readInto_of_le {bytes : List Byte} {a : ℕ} (h : bytes.length ≤ a) (block : Mem) :
    readInto block bytes a = block a := by simp [readInto, h]

/-- a word of which the first two bytes have been received is what it is before any block -/
theorem recvData_received {bytes : List Byte} {i : ℕ} (h : 4 * i + 2 ≤ bytes.length) (block block' : Mem) :
    recvData (readInto block bytes) i = recvData (readInto block' bytes) i :=
  recvData_congr (by rw [readInto_of_lt (by omega), readInto_of_lt (by omega)])
    (by rw [readInto_of_lt (by omega), readInto_of_lt (by omega)])

/-- the values at which the loop ends -/
def Stop (v : Word) : Prop := v = newline ∨ v = coffeeTerminate

instance : DecidablePred Stop := fun v => inferInstanceAs (Decidable (v = newline ∨ v = coffeeTerminate))

/-- the values of the block -/
def values (data : Mem) (n i : ℕ) : List Word := (List.range' i n).map (recvData data)

theorem values_succ (data : Mem) (n i : ℕ) : values data (n + 1) i = recvData data i :: values data n (i + 1) := rfl

/-- the loop prints the values before the first at which it ends -/
theorem loop_fst (data : Mem) (n i : ℕ) (last : Word) :
    (loop data n i last).1 = ((values data n i).takeWhile fun v => ¬ Stop v).map Line.received ++
      if (values data n i).find? (fun v => Stop v) = some coffeeTerminate then [.terminate] else [] := by
  induction n generalizing i last with
  | zero => rfl
  | succ n ih =>
    rw [values_succ, loop]
    by_cases h1 : recvData data i = newline
    · simp [Stop, h1, newline, coffeeTerminate]
    · by_cases h2 : recvData data i = coffeeTerminate
      · simp [Stop, h2, newline, coffeeTerminate]
      · have hns : ¬ Stop (recvData data i) := not_or.2 ⟨h1, h2⟩
        simp [h1, h2, hns, ih]

theorem loop_shutdown (data : Mem) (n i : ℕ) {last : Word} (h : 0 < n ∨ last ≠ coffeeTerminate) :
    (loop data n i last).2 = coffeeTerminate ↔
      (values data n i).find? (fun v => Stop v) = some coffeeTerminate := by
  induction n generalizing i last with
  | zero => simp [loop, values, h.resolve_left (Nat.lt_irrefl 0)]
  | succ n ih =>
    rw [values_succ, loop]
    by_cases h1 : recvData data i = newline
    · simp [Stop, h1, newline, coffeeTerminate]
    · by_cases h2 : recvData data i = coffeeTerminate
      · simp [Stop, h2, newline, coffeeTerminate]
      · have hns : ¬ Stop (recvData data i) := not_or.2 ⟨h1, h2⟩
        simp [h1, h2, hns, ih (i + 1) (Or.inr h2)]

end Cse422.Server
