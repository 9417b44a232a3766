/-
32-bit words in byte memory, least significant byte first. Library: nothing here is about one program.

- `toNat_ofBytes`, `ofBytes_byteOf`: a word is its four bytes;
- `load_store`, `store_frame`: a store is read back, and changes no other byte;
- `load_eq_zero`: a word is zero if and only if its bytes are;
- `networkStream_getElem?`: the bytes of words in network order.
-/
import Mathlib.Tactic

namespace Words

abbrev Byte := BitVec 8

abbrev Word := BitVec 32

/-- byte `k` of a word -/
def byteOf (v : Word) (k : ℕ) : Byte := v.extractLsb' (8 * k) 8

/-- the word with these bytes, the first the least significant -/
def ofBytes (b₀ b₁ b₂ b₃ : Byte) : Word :=
  BitVec.ofNat 32 (b₀.toNat + 2 ^ 8 * b₁.toNat + 2 ^ 16 * b₂.toNat + 2 ^ 24 * b₃.toNat)

theorem toNat_ofBytes (b₀ b₁ b₂ b₃ : Byte) :
    (ofBytes b₀ b₁ b₂ b₃).toNat = b₀.toNat + 2 ^ 8 * b₁.toNat + 2 ^ 16 * b₂.toNat + 2 ^ 24 * b₃.toNat := by
  have h₀ := b₀.isLt
  have h₁ := b₁.isLt
  have h₂ := b₂.isLt
  have h₃ := b₃.isLt
  rw [ofBytes, BitVec.toNat_ofNat]
  apply Nat.mod_eq_of_lt
  omega

theorem toNat_byteOf (v : Word) (k : ℕ) : (byteOf v k).toNat = v.toNat / 2 ^ (8 * k) % 2 ^ 8 := by
  simp [byteOf, BitVec.extractLsb'_toNat, Nat.shiftRight_eq_div_pow]

theorem ofBytes_byteOf (v : Word) : ofBytes (byteOf v 0) (byteOf v 1) (byteOf v 2) (byteOf v 3) = v := by
  have hv := v.isLt
  apply BitVec.eq_of_toNat_eq
  simp only [toNat_ofBytes, toNat_byteOf]
  omega

/-- a word is zero exactly when its bytes are -/
theorem ofBytes_eq_zero {b₀ b₁ b₂ b₃ : Byte} : ofBytes b₀ b₁ b₂ b₃ = 0 ↔ b₀ = 0 ∧ b₁ = 0 ∧ b₂ = 0 ∧ b₃ = 0 := by
  have h := toNat_ofBytes b₀ b₁ b₂ b₃
  constructor
  · intro hz
    have h0 : (ofBytes b₀ b₁ b₂ b₃).toNat = 0 := by rw [hz]; rfl
    have zero : ∀ b : Byte, b.toNat = 0 → b = 0 := fun b hb => BitVec.eq_of_toNat_eq hb
    refine ⟨zero b₀ ?_, zero b₁ ?_, zero b₂ ?_, zero b₃ ?_⟩ <;> omega
  · rintro ⟨rfl, rfl, rfl, rfl⟩
    rfl

/-! ## Memory -/

abbrev Mem := ℕ → Byte

def load (m : Mem) (a : ℕ) : Word := ofBytes (m a) (m (a + 1)) (m (a + 2)) (m (a + 3))

def store (m : Mem) (a : ℕ) (v : Word) : Mem := fun x => if a ≤ x ∧ x < a + 4 then byteOf v (x - a) else m x

theorem load_congr {m m' : Mem} {a a' : ℕ} (h : ∀ k < 4, m (a + k) = m' (a' + k)) : load m a = load m' a' := by
  have h₀ := h 0 (by omega)
  have h₁ := h 1 (by omega)
  have h₂ := h 2 (by omega)
  have h₃ := h 3 (by omega)
  simp only [Nat.add_zero] at h₀
  rw [load, load, h₀, h₁, h₂, h₃]

/-- a store changes no other byte -/
theorem store_frame {m : Mem} {a x : ℕ} (v : Word) (h : x < a ∨ a + 4 ≤ x) : store m a v x = m x :=
  if_neg (by omega)

@[simp] theorem load_store (m : Mem) (a : ℕ) (v : Word) : load (store m a v) a = v := by
  have hk : ∀ k < 4, store m a v (a + k) = byteOf v k := by
    intro k hk
    rw [store, if_pos (by omega), Nat.add_sub_cancel_left]
  have h₀ := hk 0 (by omega)
  simp only [Nat.add_zero] at h₀
  rw [load, h₀, hk 1 (by omega), hk 2 (by omega), hk 3 (by omega), ofBytes_byteOf]

theorem load_eq_zero {m : Mem} {a : ℕ} : load m a = 0 ↔ ∀ k < 4, m (a + k) = 0 := by
  rw [load, ofBytes_eq_zero]
  constructor
  · rintro ⟨h₀, h₁, h₂, h₃⟩ k hk
    interval_cases k
    · exact h₀
    · exact h₁
    · exact h₂
    · exact h₃
  · intro h
    exact ⟨h 0 (by omega), h 1 (by omega), h 2 (by omega), h 3 (by omega)⟩

/-! ## Network order -/

/-- the bytes of a word, the most significant first -/
def networkBytes (v : Word) : List Byte := [byteOf v 3, byteOf v 2, byteOf v 1, byteOf v 0]

/-- the bytes of words in network order -/
def networkStream (vs : List Word) : List Byte := (vs.map networkBytes).flatten

theorem networkStream_cons (v : Word) (vs : List Word) :
    networkStream (v :: vs) = networkBytes v ++ networkStream vs := rfl

theorem networkStream_length (vs : List Word) : (networkStream vs).length = 4 * vs.length := by
  induction vs with
  | nil => rfl
  | cons v vs ih =>
    rw [networkStream_cons, List.length_append, ih, List.length_cons, networkBytes]
    simp only [List.length_cons, List.length_nil]
    omega

theorem networkStream_getElem? (vs : List Word) (i : ℕ) {k : ℕ} (hk : k < 4) :
    (networkStream vs)[4 * i + k]? = vs[i]?.map fun v => byteOf v (3 - k) := by
  induction vs generalizing i with
  | nil => simp [networkStream]
  | cons v vs ih =>
    rw [networkStream_cons]
    cases i with
    | zero =>
      rw [List.getElem?_append_left (by rw [networkBytes]; simp; omega)]
      interval_cases k <;> rfl
    | succ i =>
      rw [List.getElem?_append_right (by rw [networkBytes]; simp; omega), List.getElem?_cons_succ, ← ih]
      congr 1
      rw [networkBytes]
      simp
      omega

end Words
