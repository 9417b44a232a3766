/-
The tree that `tree_fork.c` builds when every `fork` succeeds.

- `TreeInv`: what each process has done at its place, that children come after their parents, and that every process but
  the root is a child: the processes of a generation are counted by the children of the one before;
- `exists_step`: there is no deadlock, since the last process that has not exited can go on;
- `complete_of_finished`: when all have exited, generation `g` has been printed by `2 ^ (g - 1)` processes, and every
  process of a generation below the last has two children.
-/
import Cse422.ForkTree.Program

namespace Cse422.ForkTree

open Lts

/-! ## Properties -/

/-- the `fork` of this event, if it is one, succeeds -/
def Event.Succeeds (e : Event) : Prop := e.answer ≠ .fork false

instance (e : Event) : Decidable e.Succeeds := inferInstanceAs (Decidable (_ ≠ _))

def Finished (s : List Proc) : Prop := ∀ p ∈ s, p.pc = .exited

structure Complete (generations : ℕ) (s : List Proc) : Prop where
  printed : ∀ g, 1 ≤ g → g ≤ generations → s.countP (fun p => g ∈ p.printed) = 2 ^ (g - 1)
  children : ∀ p ∈ s, ∀ g ∈ p.printed, g < generations → p.children.length = 2

/-! ## The invariant -/

/-- what a process has printed and created when it comes to its place -/
def Proc.Ok (generations : ℕ) (p : Proc) : Prop :=
  match p.pc with
  | .test | .print => p.gen < generations ∧ p.printed = [] ∧ p.children = []
  | .incr => p.gen < generations ∧ p.printed = [p.gen + 1] ∧ p.children = []
  | .last => 1 ≤ p.gen ∧ p.gen ≤ generations ∧ p.printed = [p.gen] ∧ p.children = []
  | .forkLeft => 1 ≤ p.gen ∧ p.gen < generations ∧ p.printed = [p.gen] ∧ p.children = []
  | .forkRight => 1 ≤ p.gen ∧ p.gen < generations ∧ p.printed = [p.gen] ∧ p.children.length = 1
  | .wait | .exit | .exited =>
    1 ≤ p.gen ∧ p.gen ≤ generations ∧ p.printed = [p.gen] ∧ p.children.length = if p.gen < generations then 2 else 0

/-- the processes of generation `d + 1` are the children of those of generation `d`, and the root -/
def Counted (s : List Proc) (d : ℕ) : Prop :=
  s.countP (fun p => p.generation = d + 1) =
    (if d = 0 then 1 else 0) + (s.map fun p => if p.generation = d then p.children.length else 0).sum

structure TreeInv (generations : ℕ) (s : List Proc) : Prop where
  each : ∀ p ∈ s, p.Ok generations
  unreaped : ∀ p ∈ s, p.unreaped ⊆ p.children
  /-- a child comes after its parent -/
  younger : ∀ i p, s[i]? = some p → ∀ c ∈ p.children, i < c ∧ c < s.length
  counted : ∀ d, Counted s d

/-- a step that changes neither the generation of a process nor its children -/
structure Keeps (p q : Proc) : Prop where
  generation : q.generation = p.generation
  children : q.children = p.children
  unreaped : q.unreaped ⊆ p.unreaped

variable {generations : ℕ} {s t : List Proc} {e : Event} {p q : Proc} {i c : ℕ}

theorem go_ok (hok : p.Ok generations) (h : p.go generations = some q) : q.Ok generations ∧ Keeps p q := by
  obtain ⟨pc, gen, children, unreaped, printed⟩ := p
  cases pc with
  | test =>
    obtain rfl := Option.some.inj h
    obtain ⟨hlt, rfl, rfl⟩ := hok
    rw [if_pos hlt]
    exact ⟨⟨hlt, rfl, rfl⟩, rfl, rfl, List.Subset.refl _⟩
  | print =>
    obtain rfl := Option.some.inj h
    obtain ⟨hlt, rfl, rfl⟩ := hok
    exact ⟨⟨hlt, rfl, rfl⟩, rfl, rfl, List.Subset.refl _⟩
  | incr =>
    obtain rfl := Option.some.inj h
    obtain ⟨hlt, hprinted, rfl⟩ := hok
    obtain rfl : printed = [gen + 1] := hprinted
    exact ⟨⟨Nat.succ_pos gen, hlt, rfl, rfl⟩, rfl, rfl, List.Subset.refl _⟩
  | last =>
    obtain rfl := Option.some.inj h
    obtain ⟨hpos, hle, hprinted, rfl⟩ := hok
    obtain rfl : printed = [gen] := hprinted
    by_cases hlt : gen < generations
    · simp only [hlt, if_true]
      exact ⟨⟨hpos, hlt, rfl, rfl⟩, rfl, rfl, List.Subset.refl _⟩
    · simp only [hlt, if_false]
      exact ⟨⟨hpos, hle, rfl, (if_neg hlt).symm⟩, rfl, rfl, List.Subset.refl _⟩
  | wait =>
    dsimp only [Proc.go] at h
    split_ifs at h
    obtain rfl := Option.some.inj h
    exact ⟨hok, rfl, rfl, List.Subset.refl _⟩
  | exit =>
    obtain rfl := Option.some.inj h
    exact ⟨hok, rfl, rfl, List.Subset.refl _⟩
  | forkLeft => cases h
  | forkRight => cases h
  | exited => cases h

theorem reaped_ok (hok : p.Ok generations) (hwait : p.pc = .wait) (c : ℕ) :
    (p.reaped c).Ok generations ∧ Keeps p (p.reaped c) := by
  obtain ⟨pc, gen, children, unreaped, printed⟩ := p
  obtain rfl : pc = .wait := hwait
  exact ⟨hok, rfl, rfl, List.erase_subset⟩

/-- the parent and the child after a `fork` -/
theorem forked_ok (hok : p.Ok generations) {pc : Pc} (h : p.pc.afterFork = some pc) (child : ℕ) :
    (p.forked pc child).Ok generations ∧ (fresh p.gen).Ok generations ∧ p.generation = p.gen := by
  obtain ⟨pc', gen, children, unreaped, printed⟩ := p
  cases pc' with
  | forkLeft =>
    obtain rfl := Option.some.inj h
    obtain ⟨hpos, hlt, hprinted, rfl⟩ := hok
    obtain rfl : printed = [gen] := hprinted
    exact ⟨⟨hpos, hlt, rfl, rfl⟩, ⟨hlt, rfl, rfl⟩, rfl⟩
  | forkRight =>
    obtain rfl := Option.some.inj h
    obtain ⟨hpos, hlt, hprinted, hlen⟩ := hok
    obtain rfl : printed = [gen] := hprinted
    have hlen : children.length = 1 := hlen
    have hlt : gen < generations := hlt
    have htwo : (children ++ [child]).length = if gen < generations then 2 else 0 := by
      rw [List.length_append, hlen, if_pos hlt]
      rfl
    exact ⟨⟨hpos, hlt.le, rfl, htwo⟩, ⟨hlt, rfl, rfl⟩, rfl⟩
  | _ => cases h

theorem fork_get {r x : Proc} {j : ℕ} (h : (s.set i q ++ [r])[j]? = some x) :
    (j = i ∧ x = q) ∨ (j ≠ i ∧ s[j]? = some x) ∨ (j = s.length ∧ x = r) := by
  obtain hlt | hge := lt_or_ge j (s.set i q).length
  · rw [List.getElem?_append_left hlt] at h
    obtain hself | hother := getElem?_set_cases h
    · exact .inl hself
    · exact .inr (.inl hother)
  · rw [List.getElem?_append_right hge, List.getElem?_singleton] at h
    split_ifs at h with hzero
    rw [List.length_set] at hge hzero
    exact .inr (.inr ⟨by omega, (Option.some.inj h).symm⟩)

theorem TreeInv.get (h : TreeInv generations s) (hp : s[i]? = some p) : p.Ok generations :=
  h.each p (List.mem_of_getElem? hp)

/-- a step of one process that creates no other -/
theorem TreeInv.set (h : TreeInv generations s) (hp : s[i]? = some p) (hq : q.Ok generations) (hk : Keeps p q) :
    TreeInv generations (s.set i q) where
  each := forall_mem_set h.each hq
  unreaped := forall_mem_set h.unreaped (by
    rw [hk.children]
    exact List.Subset.trans hk.unreaped (h.unreaped p (List.mem_of_getElem? hp)))
  younger j r hj c hc := by
    rw [List.length_set]
    obtain ⟨rfl, rfl⟩ | ⟨-, hj⟩ := getElem?_set_cases hj
    · exact h.younger j p hp c (hk.children ▸ hc)
    · exact h.younger j r hj c hc
  counted d := by
    have hcount := countP_set (b := q) (fun p => p.generation = d + 1) hp
    have hsum := sum_map_set (b := q) (fun p => if p.generation = d then p.children.length else 0) hp
    have hd := h.counted d
    simp only [hk.generation, hk.children] at hcount hsum
    unfold Counted at hd ⊢
    omega

theorem TreeInv.fork (h : TreeInv generations s) (hp : s[i]? = some p) {pc : Pc} (hpc : p.pc.afterFork = some pc) :
    TreeInv generations (s.set i (p.forked pc s.length) ++ [fresh p.gen]) := by
  obtain ⟨hparent, hchild, hgen⟩ := forked_ok (h.get hp) hpc s.length
  obtain ⟨hi, -⟩ := List.getElem?_eq_some_iff.1 hp
  have hlen : (s.set i (p.forked pc s.length) ++ [fresh p.gen]).length = s.length + 1 := by simp
  refine ⟨?_, ?_, ?_, ?_⟩
  · exact List.forall_mem_append.2 ⟨forall_mem_set h.each hparent, List.forall_mem_singleton.2 hchild⟩
  · refine List.forall_mem_append.2 ⟨forall_mem_set h.unreaped ?_, List.forall_mem_singleton.2 (List.Subset.refl _)⟩
    have hold := h.unreaped p (List.mem_of_getElem? hp)
    exact List.append_subset.2 ⟨List.Subset.trans hold (List.subset_append_left _ _), List.subset_append_right _ _⟩
  · intro j r hj c hc
    rw [hlen]
    obtain ⟨rfl, rfl⟩ | ⟨-, hj⟩ | ⟨-, rfl⟩ := fork_get hj
    · obtain hc | hc := List.mem_append.1 hc
      · have hold := h.younger j p hp c hc
        omega
      · obtain rfl := List.mem_singleton.1 hc
        omega
    · have hold := h.younger j r hj c hc
      omega
    · exact absurd hc List.not_mem_nil
  · intro d
    have hcount := countP_set (b := p.forked pc s.length) (fun p => p.generation = d + 1) hp
    have hsum := sum_map_set (b := p.forked pc s.length) (fun p => if p.generation = d then p.children.length else 0) hp
    have hd := h.counted d
    have hsame : (p.forked pc s.length).generation = p.gen := hgen
    have hnew : (fresh p.gen).generation = p.gen + 1 := rfl
    have hone : (p.forked pc s.length).children.length = p.children.length + 1 := by simp [Proc.forked]
    unfold Counted at hd ⊢
    simp only [List.countP_append, List.countP_singleton, List.map_append, List.sum_append, List.map_singleton,
      List.sum_singleton, hnew, hsame, hgen, hone, decide_eq_true_eq] at hcount hsum ⊢
    have hleaf : (fresh p.gen).children.length = 0 := rfl
    rw [hleaf]
    split_ifs at hcount hsum hd ⊢ <;> omega

theorem init_inv (h : 1 ≤ generations) : TreeInv generations init where
  each := List.forall_mem_singleton.2 ⟨h, rfl, rfl⟩
  unreaped := List.forall_mem_singleton.2 (List.Subset.refl _)
  younger i p hp c hc := by
    obtain rfl := List.mem_singleton.1 (List.mem_of_getElem? hp)
    exact absurd hc List.not_mem_nil
  counted d := by
    cases d with
    | zero => rfl
    | succ d => simp [Counted, init, fresh, Proc.generation]

theorem step_inv (hs : TreeInv generations s) (he : e.Succeeds) (hst : step generations s e = some t) :
    TreeInv generations t := by
  obtain ⟨p, hp, hcases⟩ := step_cases hst
  obtain ⟨q, hq, rfl⟩ | ⟨pc, hpc, rfl⟩ | ⟨pc, -, hfail, -⟩ | ⟨c, hwait, -, -, rfl⟩ := hcases
  · obtain ⟨hok, hk⟩ := go_ok (hs.get hp) hq
    exact hs.set hp hok hk
  · exact hs.fork hp hpc
  · exact absurd hfail he
  · obtain ⟨hok, hk⟩ := reaped_ok (hs.get hp) hwait c
    exact hs.set hp hok hk

theorem run_inv (h1 : 1 ≤ generations) {l : List Event} (hl : ∀ e ∈ l, e.Succeeds)
    (h : Run (Takes (step generations)) init l s) : TreeInv generations s :=
  Along.inv (I := TreeInv generations) (fun _ _ _ hs he hst => step_inv hs he hst) (Along.of_forall hl init) h
    (init_inv h1)

/-! ## No deadlock -/

theorem exited_iff : Exited s i ↔ ∃ p, s[i]? = some p ∧ p.pc = .exited := Option.map_eq_some_iff

/-- the last process that has not exited -/
theorem exists_last (h : ¬ Finished s) : ∃ i p, s[i]? = some p ∧ p.pc ≠ .exited ∧
    ∀ j, i < j → j < s.length → Exited s j := by
  unfold Finished at h
  push Not at h
  obtain ⟨p, hp, hpc⟩ := h
  obtain ⟨i, hi⟩ := List.mem_iff_getElem?.1 hp
  have hlt : i < s.length := (List.getElem?_eq_some_iff.1 hi).1
  have hnot : ¬ Exited s i := by
    rw [exited_iff]
    rintro ⟨q, hq, hex⟩
    rw [hi] at hq
    exact hpc (Option.some.inj hq ▸ hex)
  have hle : i ≤ s.length - 1 := by omega
  let k := Nat.findGreatest (fun j => ¬ Exited s j) (s.length - 1)
  have hk : ¬ Exited s k := Nat.findGreatest_spec (P := fun j => ¬ Exited s j) hle hnot
  have hkle : k ≤ s.length - 1 := Nat.findGreatest_le _
  have hklt : k < s.length := by omega
  refine ⟨k, s[k], List.getElem?_eq_getElem hklt, fun hex => ?_, fun j hj hjlt => ?_⟩
  · exact hk (exited_iff.2 ⟨s[k], List.getElem?_eq_getElem hklt, hex⟩)
  · exact not_not.1 (Nat.findGreatest_is_greatest hj (by omega))

/-- until all have exited, some process can take a step, and no `fork` needs to fail for it -/
theorem exists_step (hs : TreeInv generations s) (h : ¬ Finished s) :
    ∃ e t, e.Succeeds ∧ step generations s e = some t := by
  obtain ⟨i, p, hp, hpc, hlater⟩ := exists_last h
  have go (h : ∃ q, p.go generations = some q) : ∃ e t, e.Succeeds ∧ step generations s e = some t := by
    obtain ⟨q, hq⟩ := h
    exact ⟨⟨i, .go⟩, s.set i q, nofun, step_go hp hq⟩
  have fork (pc : Pc) (h : p.pc.afterFork = some pc) : ∃ e t, e.Succeeds ∧ step generations s e = some t :=
    ⟨⟨i, .fork true⟩, _, nofun, step_fork generations hp h⟩
  cases hplace : p.pc with
  | wait =>
    by_cases hnone : p.unreaped = []
    · exact go (by simp [Proc.go, hplace, hnone])
    · -- its children come later in the list
      obtain ⟨c, hc⟩ := List.exists_mem_of_ne_nil _ hnone
      obtain ⟨hic, hclt⟩ := hs.younger i p hp c (hs.unreaped p (List.mem_of_getElem? hp) hc)
      exact ⟨⟨i, .reap c⟩, _, nofun, step_reap generations hp hplace hc (hlater c hic hclt)⟩
  | forkLeft => exact fork .forkRight (by rw [hplace]; rfl)
  | forkRight => exact fork .wait (by rw [hplace]; rfl)
  | exited => exact absurd hplace hpc
  | _ => exact go (by simp [Proc.go, hplace])

/-! ## The generations -/

theorem Proc.Ok.generation_pos (h : p.Ok generations) : 1 ≤ p.generation := by
  obtain ⟨pc, gen, children, unreaped, printed⟩ := p
  cases pc with
  | test => obtain ⟨-, rfl, -⟩ := h; exact Nat.succ_pos gen
  | print => obtain ⟨-, rfl, -⟩ := h; exact Nat.succ_pos gen
  | incr =>
    obtain ⟨-, hprinted, -⟩ := h
    obtain rfl : printed = [gen + 1] := hprinted
    exact Nat.succ_pos gen
  | _ =>
    obtain ⟨hpos, -, hprinted, -⟩ := h
    obtain rfl : printed = [gen] := hprinted
    exact hpos

/-- what a process has done when it exits -/
theorem Proc.Ok.exited (h : p.Ok generations) (hpc : p.pc = .exited) : p.printed = [p.generation] ∧
    p.children.length = if p.generation < generations then 2 else 0 := by
  obtain ⟨pc, gen, children, unreaped, printed⟩ := p
  obtain rfl : pc = .exited := hpc
  obtain ⟨-, -, hprinted, hlen⟩ := h
  obtain rfl : printed = [gen] := hprinted
  exact ⟨rfl, hlen⟩

theorem sum_map_ite (P : Proc → Bool) (k : ℕ) (s : List Proc) :
    (s.map fun p => if P p then k else 0).sum = k * s.countP P := by
  induction s with
  | nil => rfl
  | cons p s ih =>
    rw [List.map_cons, List.sum_cons, ih, List.countP_cons]
    split_ifs with h
    · ring
    · ring

/-- the generations double -/
theorem countP_generation (hs : TreeInv generations s) (hf : Finished s) {d : ℕ} (hd : d + 1 ≤ generations) :
    s.countP (fun p => p.generation = d + 1) = 2 ^ d := by
  induction d with
  | zero =>
    have hzero : (s.map fun p => if p.generation = 0 then p.children.length else 0).sum = 0 := by
      apply List.sum_eq_zero
      intro x hx
      obtain ⟨p, hp, rfl⟩ := List.mem_map.1 hx
      have hpos := (hs.each p hp).generation_pos
      exact if_neg (by omega)
    have hroot := hs.counted 0
    unfold Counted at hroot
    rw [hroot, hzero]
    rfl
  | succ d ih =>
    have htwo : (s.map fun p => if p.generation = d + 1 then p.children.length else 0) =
        s.map fun p => if decide (p.generation = d + 1) then 2 else 0 := by
      apply List.map_congr_left
      intro p hp
      obtain ⟨-, hlen⟩ := (hs.each p hp).exited (hf p hp)
      by_cases hgen : p.generation = d + 1
      · rw [if_pos hgen, hlen, if_pos (by omega)]
        simp [hgen]
      · simp [hgen]
    have hnext := hs.counted (d + 1)
    unfold Counted at hnext
    rw [htwo, sum_map_ite, ih (by omega), if_neg (Nat.succ_ne_zero d)] at hnext
    rw [hnext]
    ring

/-- **The tree is complete** once all processes have exited. -/
theorem complete_of_finished (hs : TreeInv generations s) (hf : Finished s) : Complete generations s where
  printed g hpos hg := by
    obtain ⟨d, rfl⟩ : ∃ d, g = d + 1 := ⟨g - 1, by omega⟩
    rw [Nat.add_sub_cancel, ← countP_generation hs hf hg]
    apply List.countP_congr
    intro p hp
    obtain ⟨hprinted, -⟩ := (hs.each p hp).exited (hf p hp)
    rw [hprinted]
    simp [eq_comm]
  children p hp g hg hlt := by
    obtain ⟨hprinted, hlen⟩ := (hs.each p hp).exited (hf p hp)
    rw [hprinted] at hg
    obtain rfl := List.mem_singleton.1 hg
    rw [hlen, if_pos hlt]

end Cse422.ForkTree
