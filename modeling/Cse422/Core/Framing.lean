/-
Frames one after the other. Library: nothing here is about one program.

A `Decoder` takes one frame from the front of a list, or refuses; what it leaves is shorter. `Decoder.all` takes frames
until nothing is left.

- `all_cons`: the first frame, then the others;
- `all_flatten`: when the decoder takes each encoded value off whatever follows it, it takes a sequence of encoded
  values apart, with nothing left over;
- `all_append`: when what follows a frame does not matter to the decoder, decoded lists can be put together.
-/
import Mathlib.Tactic

namespace Framing

structure Decoder (α β : Type*) where
  next : List β → Option (α × List β)
  shortens : ∀ {bs : List β} {a : α} {rest : List β}, next bs = some (a, rest) → rest.length < bs.length

variable {α β γ : Type*} {d : Decoder α β} {a : α} {bs rest t : List β}

/-- the frames of a list, at most as many as the fuel -/
def Decoder.frames (d : Decoder α β) : ℕ → List β → Option (List α)
  | _, [] => some []
  | 0, _ :: _ => none
  | fuel + 1, b :: bs => (d.next (b :: bs)).bind fun p => (d.frames fuel p.2).map (p.1 :: ·)

/-- the frames of a list, when it consists of frames: none of them is empty, so this is fuel enough -/
def Decoder.all (d : Decoder α β) (bs : List β) : Option (List α) := d.frames bs.length bs

theorem frames_eq {n m : ℕ} (hn : bs.length ≤ n) (hm : bs.length ≤ m) : d.frames n bs = d.frames m bs := by
  induction n generalizing m bs with
  | zero =>
    obtain rfl := List.length_eq_zero_iff.1 (Nat.le_zero.1 hn)
    cases m <;> rfl
  | succ n ih =>
    match bs, m with
    | [], 0 | [], _ + 1 => rfl
    | b :: bs, m + 1 =>
      simp only [Decoder.frames]
      cases hnext : d.next (b :: bs) with
      | none => rfl
      | some p =>
        have hlt : p.2.length < (b :: bs).length := d.shortens hnext
        simp only [List.length_cons] at hlt hn hm
        simp only [Option.bind_some]
        rw [ih (by omega) (m := m) (by omega)]

@[simp] theorem all_nil : d.all [] = some [] := rfl

theorem all_cons (h : d.next bs = some (a, rest)) : d.all bs = (d.all rest).map (a :: ·) := by
  have hlt := d.shortens h
  cases bs with
  | nil => exact absurd hlt (Nat.not_lt_zero _)
  | cons b bs =>
    rw [Decoder.all, List.length_cons, Decoder.frames, h, Option.bind_some]
    simp only [List.length_cons] at hlt
    rw [Decoder.all, frames_eq (m := rest.length) (by omega) le_rfl]

theorem next_ne_none {as : List α} (hne : bs ≠ []) (h : d.all bs = some as) :
    ∃ a rest as', d.next bs = some (a, rest) ∧ as = a :: as' ∧ d.all rest = some as' := by
  cases hnext : d.next bs with
  | none =>
    cases bs with
    | nil => exact absurd rfl hne
    | cons b bs =>
      rw [Decoder.all, List.length_cons, Decoder.frames, hnext] at h
      cases h
  | some p =>
    have hcons : d.all bs = (d.all p.2).map (p.1 :: ·) := all_cons hnext
    rw [hcons] at h
    obtain ⟨as', has, rfl⟩ := Option.map_eq_some_iff.1 h
    exact ⟨p.1, p.2, as', rfl, rfl, has⟩

/-- **Frames in sequence.** -/
theorem all_flatten {encode : γ → List β} {f : γ → α} (h : ∀ c rest, d.next (encode c ++ rest) = some (f c, rest))
    (cs : List γ) : d.all (cs.map encode).flatten = some (cs.map f) := by
  induction cs with
  | nil => rfl
  | cons c cs ih =>
    rw [List.map_cons, List.flatten_cons, all_cons (h c _), ih]
    rfl

/-- what follows a frame does not matter -/
def Decoder.Local (d : Decoder α β) : Prop :=
  ∀ bs a rest t, d.next bs = some (a, rest) → d.next (bs ++ t) = some (a, rest ++ t)

/-- **Decoded lists put together.** -/
theorem all_append (hd : d.Local) {as : List α} (h : d.all bs = some as) : d.all (bs ++ t) = (d.all t).map (as ++ ·) := by
  induction as generalizing bs with
  | nil =>
    have hnil : bs = [] := by
      by_contra hne
      obtain ⟨a, rest, as', -, hcons, -⟩ := next_ne_none hne h
      cases hcons
    subst hnil
    simp
  | cons a as ih =>
    have hne : bs ≠ [] := by
      rintro rfl
      cases h
    obtain ⟨a', rest, as', hnext, hcons, hrest⟩ := next_ne_none hne h
    obtain ⟨rfl, rfl⟩ := List.cons.inj hcons
    rw [all_cons (hd _ _ _ t hnext), ih hrest, Option.map_map]
    rfl

end Framing
