/-
Binary search with a comparison function, for any choice of the element to look at. Library: nothing here is about one
program.

A key is given by how it compares with the elements: `cmp i` is negative, zero or positive. A `Probe` chooses where to look
in an interval. `search` narrows the interval until the key compares equal or nothing is left.

- `search_sound`: what is found compares equal;
- `search_isSome_iff`: in an array that is in order for the key, something is found if and only if some element compares
  equal;
- `search_block`: two keys that compare equal to all elements of one block are not found at two places of it.
-/
import Mathlib.Tactic

namespace Bsearch

/-- where to look in the interval from `l` to `u` -/
structure Probe where
  mid : ℕ → ℕ → ℕ
  within : ∀ l u, l < u → l ≤ mid l u ∧ mid l u < u

/-- the middle of the interval -/
def halving : Probe where
  mid l u := (l + u) / 2
  within l u h := by omega

/-- at most `fuel` turns -/
def search (P : Probe) (cmp : ℕ → ℤ) : ℕ → ℕ → ℕ → Option ℕ
  | 0, _, _ => none
  | fuel + 1, l, u =>
    if l < u then
      if cmp (P.mid l u) < 0 then search P cmp fuel l (P.mid l u)
      else if 0 < cmp (P.mid l u) then search P cmp fuel (P.mid l u + 1) u
      else some (P.mid l u)
    else none

/-- each turn drops an element, so `n` turns are enough for `n` elements -/
def bsearch (P : Probe) (cmp : ℕ → ℤ) (n : ℕ) : Option ℕ := search P cmp n 0 n

/-- the elements below the key come first, then those that compare equal, then those above it -/
structure InOrder (cmp : ℕ → ℤ) (n : ℕ) : Prop where
  below : ∀ i j, i ≤ j → j < n → 0 < cmp j → 0 < cmp i
  above : ∀ i j, i ≤ j → j < n → cmp i < 0 → cmp j < 0

variable {P : Probe} {cmp cmp' : ℕ → ℤ} {fuel l u n i j : ℕ}

theorem search_sound (h : search P cmp fuel l u = some i) : l ≤ i ∧ i < u ∧ cmp i = 0 := by
  induction fuel generalizing l u with
  | zero => cases h
  | succ fuel ih =>
    rw [search] at h
    split_ifs at h with hlt hneg hpos
    · obtain ⟨hl, hu, hi⟩ := ih h
      exact ⟨hl, hu.trans (P.within l u hlt).2, hi⟩
    · obtain ⟨hl, hu, hi⟩ := ih h
      have hmid := (P.within l u hlt).1
      exact ⟨by omega, hu, hi⟩
    · obtain rfl := Option.some.inj h
      exact ⟨(P.within l u hlt).1, (P.within l u hlt).2, by omega⟩

theorem search_complete (ho : InOrder cmp n) (hu : u ≤ n) (hfuel : u ≤ l + fuel) (hl : l ≤ i) (hiu : i < u)
    (hi : cmp i = 0) : (search P cmp fuel l u).isSome := by
  induction fuel generalizing l u with
  | zero => omega
  | succ fuel ih =>
    have hlt : l < u := hl.trans_lt hiu
    obtain ⟨hm1, hm2⟩ := P.within l u hlt
    rw [search, if_pos hlt]
    split_ifs with hneg hpos
    · have hside : i < P.mid l u := by
        by_contra hnot
        have hbad := ho.above _ i (not_lt.1 hnot) (hiu.trans_le hu) hneg
        omega
      exact ih (hm2.le.trans hu) (by omega) hl hside
    · have hside : P.mid l u < i := by
        by_contra hnot
        have hbad := ho.below i _ (not_lt.1 hnot) (hm2.trans_le hu) hpos
        omega
      exact ih hu (by omega) hside hiu
    · rfl

/-- **Something is found exactly when something compares equal.** -/
theorem search_isSome_iff (ho : InOrder cmp n) : (bsearch P cmp n).isSome ↔ ∃ i < n, cmp i = 0 := by
  constructor
  · intro h
    obtain ⟨i, hi⟩ := Option.isSome_iff_exists.1 h
    obtain ⟨-, hlt, hzero⟩ := search_sound hi
    exact ⟨i, hlt, hzero⟩
  · rintro ⟨i, hlt, hzero⟩
    exact search_complete ho le_rfl (Nat.zero_add n).ge (Nat.zero_le i) hlt hzero

/-- **One block, one place.** The two searches look at the same elements until they look into the block. -/
theorem search_block (h : search P cmp fuel l u = some i) (h' : search P cmp' fuel l u = some j)
    (hblock : ∀ p, i ≤ p → p ≤ j → cmp p = 0 ∧ cmp' p = 0) (hbefore : ∀ p, p < i → 0 ≤ cmp p ∧ 0 ≤ cmp' p)
    (hafter : ∀ p, j < p → p < n → cmp p ≤ 0 ∧ cmp' p ≤ 0) (hu : u ≤ n) (hij : i ≤ j) : i = j := by
  induction fuel generalizing l u with
  | zero => cases h
  | succ fuel ih =>
    rw [search] at h h'
    by_cases hlt : l < u
    · obtain ⟨-, hm⟩ := P.within l u hlt
      rw [if_pos hlt] at h h'
      rcases lt_or_ge (P.mid l u) i with hp | hp
      · -- to the right, since neither search ends here
        obtain ⟨h0, h0'⟩ := hbefore _ hp
        rw [if_neg (not_lt.2 h0)] at h
        rw [if_neg (not_lt.2 h0')] at h'
        split_ifs at h h' with h1 h2
        · exact ih h h' hu
        · exact absurd (Option.some.inj h') (by omega)
        · exact absurd (Option.some.inj h) (by omega)
        · exact absurd (Option.some.inj h) (by omega)
      · rcases lt_or_ge j (P.mid l u) with hp' | hp'
        · obtain ⟨h0, h0'⟩ := hafter _ hp' (hm.trans_le hu)
          split_ifs at h h' with h1 h2 h3 h4
          · exact ih h h' (hm.le.trans hu)
          all_goals first | omega | exact absurd (Option.some.inj h) (by omega) | exact absurd (Option.some.inj h') (by omega)
        · obtain ⟨h0, h0'⟩ := hblock _ hp hp'
          simp only [h0, h0', lt_irrefl, if_false, Option.some.injEq] at h h'
          exact h.symm.trans h'
    · rw [if_neg hlt] at h
      cases h

end Bsearch
