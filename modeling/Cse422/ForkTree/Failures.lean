/-
What `tree_fork.c` does when calls of `fork` fail. The process then exits with -1, without a `wait`, and the children that
it has created go on.

A run with failures is compared with one that stops the processes whose `fork` fails at that `fork` (`Shadow`): nobody
else notices the difference, and the invariant `TreeInv` holds there.

- `shadow_step`: the comparison is kept by every step;
- `short_step`: a process that has failed stays short of children;
- `fork_failures`: whatever fails, every run ends, without a deadlock, with all processes exited; there are never more
  processes than in the complete tree, in total and in each generation; and the generations are complete at the end if
  and only if no `fork` has failed.
-/
import Cse422.ForkTree.TearDown

namespace Cse422.ForkTree

open Lts

variable {generations : ℕ} {s s' t : List Proc} {e : Event} {p p' q : Proc} {i c d : ℕ}

/-! ## A run in which failed processes stop -/

/-- the process, or what is left of it when it has left the program at a `fork` -/
def Like (p p' : Proc) : Prop :=
  p = p' ∨ (∃ pc, p'.pc.afterFork = some pc) ∧ (p = { p' with pc := .exit } ∨ p = { p' with pc := .exited })

/-- the same processes, except that those whose `fork` has failed are still at that `fork` -/
structure Shadow (s s' : List Proc) : Prop where
  length : s.length = s'.length
  like : ∀ (i : ℕ) (p p' : Proc), s[i]? = some p → s'[i]? = some p' → Like p p'

theorem Like.generation (h : Like p p') : p.generation = p'.generation := by
  obtain rfl | ⟨-, rfl | rfl⟩ := h <;> rfl

theorem Like.children (h : Like p p') : p.children = p'.children := by
  obtain rfl | ⟨-, rfl | rfl⟩ := h <;> rfl

theorem Like.unreaped (h : Like p p') : p.unreaped = p'.unreaped := by
  obtain rfl | ⟨-, rfl | rfl⟩ := h <;> rfl

theorem Like.printed (h : Like p p') : p.printed = p'.printed := by
  obtain rfl | ⟨-, rfl | rfl⟩ := h <;> rfl

/-- a process that is neither on its way out nor gone has not failed -/
theorem Like.eq_of_pc (h : Like p p') (h1 : p.pc ≠ .exit) (h2 : p.pc ≠ .exited) : p = p' := by
  obtain rfl | ⟨-, rfl | rfl⟩ := h
  · rfl
  · exact absurd rfl h1
  · exact absurd rfl h2

theorem Shadow.get (h : Shadow s s') (hp : s[i]? = some p) : ∃ p', s'[i]? = some p' ∧ Like p p' := by
  obtain ⟨hlt, -⟩ := List.getElem?_eq_some_iff.1 hp
  have hp' := List.getElem?_eq_getElem (h.length ▸ hlt)
  exact ⟨_, hp', h.like i p _ hp hp'⟩

theorem Shadow.mem (h : Shadow s s') (hp : p ∈ s) : ∃ p' ∈ s', Like p p' := by
  obtain ⟨i, hi⟩ := List.mem_iff_getElem?.1 hp
  obtain ⟨p', hp', hlike⟩ := h.get hi
  exact ⟨p', List.mem_of_getElem? hp', hlike⟩

theorem Shadow.set (h : Shadow s s') (i : ℕ) {q q' : Proc} (hq : Like q q') : Shadow (s.set i q) (s'.set i q') where
  length := by rw [List.length_set, List.length_set, h.length]
  like j r r' hr hr' := by
    obtain ⟨rfl, rfl⟩ | ⟨hj, hr⟩ := getElem?_set_cases hr
    · obtain ⟨-, rfl⟩ | ⟨hne, -⟩ := getElem?_set_cases hr'
      · exact hq
      · exact absurd rfl hne
    · obtain ⟨rfl, -⟩ | ⟨-, hr'⟩ := getElem?_set_cases hr'
      · exact absurd rfl hj
      · exact h.like j r r' hr hr'

/-- a process changes that stands still in the shadow -/
theorem Shadow.set_left (h : Shadow s s') (hp' : s'[i]? = some p') (hq : Like q p') : Shadow (s.set i q) s' where
  length := by rw [List.length_set, h.length]
  like j r r' hr hr' := by
    obtain ⟨rfl, rfl⟩ | ⟨-, hr⟩ := getElem?_set_cases hr
    · obtain rfl := Option.some.inj (hp'.symm.trans hr')
      exact hq
    · exact h.like j r r' hr hr'

theorem Shadow.append (h : Shadow s s') (q : Proc) : Shadow (s ++ [q]) (s' ++ [q]) where
  length := by simp [h.length]
  like j r r' hr hr' := by
    obtain hlt | hge := lt_or_ge j s.length
    · rw [List.getElem?_append_left hlt] at hr
      rw [List.getElem?_append_left (h.length ▸ hlt)] at hr'
      exact h.like j r r' hr hr'
    · rw [List.getElem?_append_right hge] at hr
      rw [List.getElem?_append_right (h.length ▸ hge), ← h.length] at hr'
      exact .inl (Option.some.inj (hr.symm.trans hr'))

theorem shadow_init : Shadow init init where
  length := rfl
  like _ _ _ hp hp' := .inl (Option.some.inj (hp.symm.trans hp'))

/-- **Step.** The shadow takes the step too, or stands still. -/
theorem shadow_step (hs : TreeInv generations s') (h : Shadow s s') (hst : step generations s e = some t) :
    ∃ t', TreeInv generations t' ∧ Shadow t t' := by
  obtain ⟨p, hp, hcases⟩ := step_cases hst
  obtain ⟨p', hp', hlike⟩ := h.get hp
  obtain ⟨q, hq, rfl⟩ | ⟨pc, hpc, rfl⟩ | ⟨pc, hpc, -, rfl⟩ | ⟨c, hwait, -, -, rfl⟩ := hcases
  · obtain rfl | ⟨hat, hout⟩ := hlike
    · obtain ⟨hok, hk⟩ := go_ok (hs.get hp') hq
      exact ⟨_, hs.set hp' hok hk, h.set _ (.inl rfl)⟩
    · -- a process that has failed can only finish its exit
      refine ⟨s', hs, h.set_left hp' (.inr ⟨hat, .inr ?_⟩)⟩
      obtain rfl | rfl := hout
      · exact (Option.some.inj hq).symm
      · cases hq
  · have hne : p.pc ≠ .exit ∧ p.pc ≠ .exited := by
      constructor <;> intro hout <;> rw [hout] at hpc <;> cases hpc
    obtain rfl := hlike.eq_of_pc hne.1 hne.2
    refine ⟨_, hs.fork hp' hpc, ?_⟩
    rw [← h.length]
    exact (h.set _ (.inl rfl)).append _
  · have hne : p.pc ≠ .exit ∧ p.pc ≠ .exited := by
      constructor <;> intro hout <;> rw [hout] at hpc <;> cases hpc
    obtain rfl := hlike.eq_of_pc hne.1 hne.2
    exact ⟨s', hs, h.set_left hp' (.inr ⟨⟨pc, hpc⟩, .inl rfl⟩)⟩
  · obtain rfl := hlike.eq_of_pc (by simp [hwait]) (by simp [hwait])
    obtain ⟨hok, hk⟩ := reaped_ok (hs.get hp') hwait c
    exact ⟨_, hs.set hp' hok hk, h.set _ (.inl rfl)⟩

theorem shadow_run (h1 : 1 ≤ generations) {l : List Event} (h : Run (Takes (step generations)) init l s) :
    ∃ s', TreeInv generations s' ∧ Shadow s s' := by
  refine Run.inv (I := fun s => ∃ s', TreeInv generations s' ∧ Shadow s s') ?_ h ⟨init, init_inv h1, shadow_init⟩
  rintro s e t ⟨s', hs, hsh⟩ hst
  exact shadow_step hs hsh hst

/-! ## No deadlock -/

/-- a state without a step is one in which all processes have exited -/
theorem finished_of_stuck (hs : TreeInv generations s') (h : Shadow s s') (hstuck : ∀ e, step generations s e = none) :
    Finished s := by
  by_contra hnot
  obtain ⟨i, p, hp, hpc, hlater⟩ := exists_last hnot
  obtain ⟨p', hp', hlike⟩ := h.get hp
  have hgo : p.go generations = none := by
    cases hq : p.go generations with
    | none => rfl
    | some q =>
      have hst := step_go hp hq
      rw [hstuck] at hst
      cases hst
  have hfork : p.pc.afterFork = none := by
    cases hq : p.pc.afterFork with
    | none => rfl
    | some pc =>
      have hst := step_fork generations hp hq
      rw [hstuck] at hst
      cases hst
  cases hplace : p.pc with
  | wait =>
    -- the process waits for a child, which comes later in the list and so has exited
    have hne : p.unreaped ≠ [] := fun hnil => by simp [Proc.go, hplace, hnil] at hgo
    obtain ⟨c, hc⟩ := List.exists_mem_of_ne_nil _ hne
    rw [hlike.unreaped] at hc
    obtain ⟨hic, hclt⟩ := hs.younger i p' hp' c (hs.unreaped p' (List.mem_of_getElem? hp') hc)
    have hst := step_reap generations hp hplace (hlike.unreaped ▸ hc) (hlater c hic (h.length ▸ hclt))
    rw [hstuck] at hst
    cases hst
  | forkLeft => rw [hplace] at hfork; cases hfork
  | forkRight => rw [hplace] at hfork; cases hfork
  | exited => exact hpc hplace
  | _ => simp [Proc.go, hplace] at hgo

/-! ## How many processes -/

theorem Proc.Ok.children_le (h : p.Ok generations) : p.children.length ≤ 2 := by
  obtain ⟨pc, gen, children, unreaped, printed⟩ := p
  cases pc with
  | test | print | incr | last | forkLeft =>
    obtain rfl : children = [] := by first | exact h.2.2 | exact h.2.2.2
    exact Nat.zero_le 2
  | forkRight =>
    have hlen : children.length = 1 := h.2.2.2
    rw [hlen]
    decide
  | wait | exit | exited =>
    have hlen : children.length = if gen < generations then 2 else 0 := h.2.2.2
    rw [hlen]
    split_ifs <;> decide

theorem Proc.Ok.generation_le (h : p.Ok generations) : p.generation ≤ generations := by
  obtain ⟨pc, gen, children, unreaped, printed⟩ := p
  cases pc with
  | test | print =>
    obtain ⟨hlt, hnil, -⟩ := h
    obtain rfl : printed = [] := hnil
    exact hlt
  | incr =>
    obtain ⟨hlt, hprinted, -⟩ := h
    obtain rfl : printed = [gen + 1] := hprinted
    exact hlt
  | forkLeft | forkRight =>
    obtain ⟨-, hlt, hprinted, -⟩ := h
    obtain rfl : printed = [gen] := hprinted
    exact hlt.le
  | last | wait | exit | exited =>
    obtain ⟨-, hle, hprinted, -⟩ := h
    obtain rfl : printed = [gen] := hprinted
    exact hle

/-- a process prints its generation and nothing else, once -/
theorem Proc.Ok.printed_sublist (h : p.Ok generations) : p.printed.Sublist [p.generation] := by
  obtain ⟨pc, gen, children, unreaped, printed⟩ := p
  cases pc with
  | test | print =>
    obtain ⟨-, hnil, -⟩ := h
    obtain rfl : printed = [] := hnil
    exact List.nil_sublist _
  | incr =>
    obtain ⟨-, hprinted, -⟩ := h
    obtain rfl : printed = [gen + 1] := hprinted
    exact List.Sublist.refl _
  | last | forkLeft | forkRight | wait | exit | exited =>
    obtain ⟨-, -, hprinted, -⟩ := h
    obtain rfl : printed = [gen] := hprinted
    exact List.Sublist.refl _

/-- the children of a generation, when each process has at most two -/
theorem sum_children_le (hs : TreeInv generations s) (d : ℕ) :
    (s.map fun p => if p.generation = d then p.children.length else 0).sum ≤
      2 * s.countP (fun p => p.generation = d) := by
  rw [← sum_map_ite]
  apply List.sum_le_sum
  intro p hp
  by_cases hgen : p.generation = d
  · simpa [hgen] using (hs.each p hp).children_le
  · simp [hgen]

/-- a generation has at most twice as many processes as the one before -/
theorem countP_generation_le (hs : TreeInv generations s) (d : ℕ) :
    s.countP (fun p => p.generation = d + 1) ≤ 2 ^ d := by
  induction d with
  | zero =>
    have hzero : s.countP (fun p => p.generation = 0) = 0 := by
      apply List.countP_eq_zero.2
      intro p hp
      have hpos := (hs.each p hp).generation_pos
      simp only [decide_eq_true_eq]
      omega
    have hroot := hs.counted 0
    have hle := sum_children_le hs 0
    unfold Counted at hroot
    rw [if_pos rfl] at hroot
    rw [pow_zero]
    omega
  | succ d ih =>
    have hnext := hs.counted (d + 1)
    have hle := sum_children_le hs (d + 1)
    unfold Counted at hnext
    rw [if_neg (Nat.succ_ne_zero d)] at hnext
    rw [pow_succ]
    omega

/-- there are never more processes than in the complete tree -/
theorem countP_generations_lt (hs : TreeInv generations s) (n : ℕ) :
    s.countP (fun p => p.generation ≤ n) < 2 ^ n := by
  induction n with
  | zero =>
    have hzero : s.countP (fun p => p.generation ≤ 0) = 0 := by
      apply List.countP_eq_zero.2
      intro p hp
      have hpos := (hs.each p hp).generation_pos
      simp only [decide_eq_true_eq]
      omega
    rw [hzero]
    exact Nat.one_pos
  | succ n ih =>
    have hsplit : ∀ l : List Proc, l.countP (fun p => p.generation ≤ n + 1) =
        l.countP (fun p => p.generation ≤ n) + l.countP (fun p => p.generation = n + 1) := by
      intro l
      induction l with
      | nil => rfl
      | cons p l ihl =>
        simp only [List.countP_cons, ihl, decide_eq_true_eq]
        split_ifs <;> omega
    have hlast := countP_generation_le hs n
    rw [hsplit, pow_succ]
    omega

theorem length_lt (hs : TreeInv generations s) : s.length < 2 ^ generations := by
  have hall : s.countP (fun p => p.generation ≤ generations) = s.length := by
    apply List.countP_eq_length.2
    intro p hp
    simpa using (hs.each p hp).generation_le
  rw [← hall]
  exact countP_generations_lt hs generations

/-! ## What a failure leaves -/

/-- a process below the last generation has left the loop with fewer than two children -/
def Short (generations : ℕ) (s : List Proc) : Prop :=
  ∃ p ∈ s, (p.pc = .exit ∨ p.pc = .exited) ∧ p.generation < generations ∧ p.children.length < 2

/-- a failing `fork` makes its process short of children -/
theorem failed_short (hok : p.Ok generations) {pc : Pc} (h : p.pc.afterFork = some pc) :
    p.generation < generations ∧ p.children.length < 2 := by
  obtain ⟨pc', gen, children, unreaped, printed⟩ := p
  cases pc' with
  | forkLeft =>
    obtain ⟨-, hlt, hprinted, hnil⟩ := hok
    obtain rfl : printed = [gen] := hprinted
    obtain rfl : children = [] := hnil
    exact ⟨hlt, Nat.two_pos⟩
  | forkRight =>
    obtain ⟨-, hlt, hprinted, hlen⟩ := hok
    obtain rfl : printed = [gen] := hprinted
    have hlen : children.length = 1 := hlen
    refine ⟨hlt, ?_⟩
    rw [hlen]
    decide
  | _ => cases h

/-- **Step.** Nothing makes up for a failure. -/
theorem short_step (hs : TreeInv generations s') (hsh : Shadow s s') (h : Short generations s ∨ ¬ e.Succeeds)
    (hst : step generations s e = some t) : Short generations t := by
  obtain ⟨p, hp, hcases⟩ := step_cases hst
  obtain h | hfail := h
  · obtain ⟨r, hr, hout, hgen, hlen⟩ := h
    by_cases hrp : r = p
    · subst hrp
      obtain ⟨q, hq, rfl⟩ | ⟨pc, hpc, -⟩ | ⟨pc, hpc, -⟩ | ⟨c, hwait, -⟩ := hcases
      · -- the process itself finishes its exit
        obtain ⟨pc, gen, children, unreaped, printed⟩ := r
        obtain rfl : pc = .exit := hout.resolve_right (go_not_exited hq)
        obtain rfl := Option.some.inj hq
        exact ⟨_, mem_set_self hp, .inr rfl, hgen, hlen⟩
      · obtain hout | hout := hout <;> rw [hout] at hpc <;> cases hpc
      · obtain hout | hout := hout <;> rw [hout] at hpc <;> cases hpc
      · obtain hout | hout := hout <;> rw [hout] at hwait <;> cases hwait
    · have hkeep : ∀ q, r ∈ s.set e.pid q := fun q => mem_set_of_ne hp hr hrp
      obtain ⟨q, -, rfl⟩ | ⟨pc, -, rfl⟩ | ⟨pc, -, -, rfl⟩ | ⟨c, -, -, -, rfl⟩ := hcases
      · exact ⟨r, hkeep q, hout, hgen, hlen⟩
      · exact ⟨r, List.mem_append_left _ (hkeep _), hout, hgen, hlen⟩
      · exact ⟨r, hkeep _, hout, hgen, hlen⟩
      · exact ⟨r, hkeep _, hout, hgen, hlen⟩
  · have hanswer : e.answer = .fork false := not_not.1 hfail
    obtain ⟨pc, hpc, rfl⟩ : ∃ pc, p.pc.afterFork = some pc ∧ t = s.set e.pid { p with pc := .exit } := by
      simp only [step, hp, hanswer] at hst
      obtain ⟨pc, hpc, rfl⟩ := Option.map_eq_some_iff.1 hst
      exact ⟨pc, hpc, rfl⟩
    have hne : p.pc ≠ .exit ∧ p.pc ≠ .exited := by
      constructor <;> intro hout <;> rw [hout] at hpc <;> cases hpc
    obtain ⟨p', hp', hlike⟩ := hsh.get hp
    obtain rfl := hlike.eq_of_pc hne.1 hne.2
    obtain ⟨hgen, hlen⟩ := failed_short (hs.get hp') hpc
    exact ⟨_, mem_set_self hp, .inl rfl, hgen, hlen⟩

theorem short_run {l : List Event} (h : Run (Takes (step generations)) s l t) (hs : TreeInv generations s')
    (hsh : Shadow s s') (hfail : Short generations s ∨ ∃ e ∈ l, ¬ e.Succeeds) : Short generations t := by
  induction h generalizing s' with
  | nil s =>
    obtain hshort | ⟨e, he, -⟩ := hfail
    · exact hshort
    · exact absurd he List.not_mem_nil
  | @cons s u t e l hst _ ih =>
    obtain ⟨u', hu', hshu⟩ := shadow_step hs hsh hst
    refine ih hu' hshu ?_
    obtain hshort | ⟨e', he', hnot⟩ := hfail
    · exact .inl (short_step hs hsh (.inl hshort) hst)
    · obtain rfl | he' := List.mem_cons.1 he'
      · exact .inl (short_step hs hsh (.inr hnot) hst)
      · exact .inr ⟨e', he', hnot⟩

/-- a generation after a process that is short of children is not complete -/
theorem countP_lt_of_short (hs : TreeInv generations s') (hsh : Shadow s s') (h : Short generations s) :
    ∃ d, 1 ≤ d ∧ d < generations ∧ s'.countP (fun p => p.generation = d + 1) < 2 ^ d := by
  obtain ⟨p, hp, -, hgen, hlen⟩ := h
  obtain ⟨p', hp', hlike⟩ := hsh.mem hp
  rw [hlike.generation] at hgen
  rw [hlike.children] at hlen
  have hpos := (hs.each p' hp').generation_pos
  obtain ⟨d, hd⟩ : ∃ d, p'.generation = d + 1 := ⟨p'.generation - 1, by omega⟩
  refine ⟨d + 1, Nat.succ_pos d, hd ▸ hgen, ?_⟩
  have hnext := hs.counted (d + 1)
  unfold Counted at hnext
  rw [if_neg (Nat.succ_ne_zero d), Nat.zero_add] at hnext
  have hprev := countP_generation_le hs d
  have hlt : (s'.map fun p => if p.generation = d + 1 then p.children.length else 0).sum <
      2 * s'.countP (fun p => p.generation = d + 1) := by
    rw [← sum_map_ite]
    apply List.sum_lt_sum
    · intro q hq
      by_cases hq1 : q.generation = d + 1
      · simpa [hq1] using (hs.each q hq).children_le
      · simp [hq1]
    · exact ⟨p', hp', by simpa [hd] using hlen⟩
  rw [hnext, pow_succ]
  omega

/-! ## Result -/

theorem Shadow.countP (h : Shadow s s') {f : Proc → Bool} (hf : ∀ p p', Like p p' → f p = f p') :
    s.countP f = s'.countP f := by
  have hmap : s.map f = s'.map f := by
    apply List.ext_getElem?
    intro i
    rw [List.getElem?_map, List.getElem?_map]
    obtain hlt | hge := lt_or_ge i s.length
    · have hp := List.getElem?_eq_getElem hlt
      have hp' := List.getElem?_eq_getElem (h.length ▸ hlt)
      rw [hp, hp', Option.map_some, Option.map_some, hf _ _ (h.like i _ _ hp hp')]
    · rw [List.getElem?_eq_none hge, List.getElem?_eq_none (h.length ▸ hge)]
  have hcount : ∀ u : List Proc, u.countP f = (u.map f).countP id := fun u => by rw [List.countP_map]; rfl
  rw [hcount s, hcount s', hmap]

/-- the processes that have printed a generation are of that generation -/
theorem countP_printed_le (hs : TreeInv generations s') (hsh : Shadow s s') (g : ℕ) :
    s.countP (fun p => g ∈ p.printed) ≤ s'.countP (fun p => p.generation = g) := by
  have hsame : s.countP (fun p => g ∈ p.printed) = s'.countP (fun p => g ∈ p.printed) :=
    hsh.countP fun p p' hlike => by simp only [hlike.printed]
  rw [hsame]
  apply List.countP_mono_left
  intro p hp hg
  have hmem := (hs.each p hp).printed_sublist.subset (of_decide_eq_true hg)
  exact decide_eq_true (List.mem_singleton.1 hmem).symm

/-- **Failing forks.** In every run, whatever calls of `fork` fail: there are at most as many steps as the complete tree
takes, fewer than `2 ^ generations` processes, and no more of a generation than the complete tree has. When nothing can go
on, all processes have exited, and the generations are complete exactly if no `fork` has failed. -/
theorem fork_failures (h1 : 1 ≤ generations) {l : List Event} (h : Run (Takes (step generations)) init l s) :
    l.length ≤ treeWork generations ∧ s.length < 2 ^ generations ∧
      (∀ g, 1 ≤ g → s.countP (fun p => g ∈ p.printed) ≤ 2 ^ (g - 1)) ∧
      ((∀ e, step generations s e = none) → Finished s ∧
        ((∀ g, 1 ≤ g → g ≤ generations → s.countP (fun p => g ∈ p.printed) = 2 ^ (g - 1)) ↔ ∀ e ∈ l, e.Succeeds)) := by
  obtain ⟨s', hs, hsh⟩ := shadow_run h1 h
  have hle : ∀ g, 1 ≤ g → s.countP (fun p => g ∈ p.printed) ≤ 2 ^ (g - 1) := by
    intro g hg
    obtain ⟨d, rfl⟩ : ∃ d, g = d + 1 := ⟨g - 1, by omega⟩
    exact (countP_printed_le hs hsh _).trans (countP_generation_le hs d)
  refine ⟨run_length_le h, hsh.length ▸ length_lt hs, hle, fun hstuck => ?_⟩
  have hfinished := finished_of_stuck hs hsh hstuck
  refine ⟨hfinished, ?_, fun hall => (complete_of_finished (run_inv h1 hall h) hfinished).printed⟩
  intro hcomplete
  by_contra hnot
  push Not at hnot
  have hshort := short_run h (init_inv h1) shadow_init (.inr hnot)
  obtain ⟨d, hd, hdlt, hlt⟩ := countP_lt_of_short hs hsh hshort
  have hprinted := countP_printed_le hs hsh (d + 1)
  rw [hcomplete (d + 1) (Nat.succ_pos d) hdlt, Nat.add_sub_cancel] at hprinted
  omega

/-- of three generations, the left child of the root fails in its second `fork` -/
def leftFails : List Event :=
  List.replicate 4 ⟨0, .go⟩ ++ [⟨0, .fork true⟩] ++ List.replicate 4 ⟨1, .go⟩ ++ [⟨1, .fork true⟩, ⟨1, .fork false⟩]

theorem fork_failures_left : ∃ s, Run (Takes (step 3)) init leftFails s ∧
    s.map Proc.pc = [.forkRight, .exit, .test] ∧ s.length < 2 ^ 3 := by
  let s : List Proc := [⟨.forkRight, 1, [1], [1], [1]⟩, ⟨.exit, 2, [2], [2], [2]⟩, fresh 2]
  have h : Run (Takes (step 3)) init leftFails s := run_takes_iff.2 (by decide +kernel)
  exact ⟨s, h, rfl, (fork_failures (by decide) h).2.1⟩

end Cse422.ForkTree
