/-
In which order the processes of `tree_fork.c` exit. A process with two children calls `wait(NULL)` once, so it waits for
the first of them to exit and not for the other.

- `bottomUp_of_waits`: when every `wait` returns only after all children of its caller have exited, no process exits
  before its children;
- `subtree_exits`: a process and its descendants can run to the exit of the process while the others wait;
- `fork_tree_iff`: every run ends with a complete tree, and the order of exits is right in every run exactly when there
  is one generation.
-/
import Cse422.ForkTree.Complete

namespace Cse422.ForkTree

open Lts

/-! ## Properties -/

/-- a process that has exited did so after its children -/
def BottomUp (s : List Proc) : Prop := ∀ p ∈ s, p.pc = .exited → ∀ c ∈ p.children, Exited s c

instance (s : List Proc) : Decidable (BottomUp s) := inferInstanceAs (Decidable (∀ p ∈ s, _ → _))

/-- a `wait` that returns only when all children of the caller have exited -/
def WaitsForAll (s : List Proc) (e : Event) (_ : List Proc) : Prop :=
  ∀ p ∈ s[e.pid]?, p.pc = .wait → ∀ c ∈ p.children, Exited s c

instance (s : List Proc) (e : Event) (t : List Proc) : Decidable (WaitsForAll s e t) :=
  inferInstanceAs (Decidable (∀ p ∈ s[e.pid]?, _ → _))

/-- the runs in which every `fork` succeeds -/
def Forks (generations : ℕ) (l : List Event) (s : List Proc) : Prop :=
  (∀ e ∈ l, e.Succeeds) ∧ Run (Takes (step generations)) init l s

/-- in every order of the steps, the processes all exit, the tree is then complete, and no process exits before its
children -/
def Correct (generations : ℕ) : Prop :=
  ∀ l s, Forks generations l s →
    ((∀ e, e.Succeeds → step generations s e = none) → Finished s ∧ Complete generations s) ∧ BottomUp s

/-! ## Waiting for all -/

variable {generations : ℕ} {s t : List Proc} {l : List Event} {e : Event} {p q : Proc} {i c : ℕ}

/-- on the way out, with all children gone before -/
def Waited (s : List Proc) (p : Proc) : Prop := p.pc = .exit ∨ p.pc = .exited → ∀ c ∈ p.children, Exited s c

theorem go_not_exited (h : p.go generations = some q) : p.pc ≠ .exited := by
  intro hpc
  simp [Proc.go, hpc] at h

theorem exited_set (hp : s[i]? = some p) (hpc : p.pc ≠ .exited) (hc : Exited s c) : Exited (s.set i q) c := by
  obtain ⟨r, hr, hex⟩ := exited_iff.1 hc
  have hne : i ≠ c := by
    rintro rfl
    rw [hp] at hr
    exact hpc (Option.some.inj hr ▸ hex)
  exact exited_iff.2 ⟨r, by rw [List.getElem?_set_ne hne, hr], hex⟩

theorem exited_append (u : List Proc) (hc : Exited s c) : Exited (s ++ u) c := by
  obtain ⟨r, hr, hex⟩ := exited_iff.1 hc
  have hlt : c < s.length := (List.getElem?_eq_some_iff.1 hr).1
  exact exited_iff.2 ⟨r, by rw [List.getElem?_append_left hlt, hr], hex⟩

theorem afterFork_ne {pc : Pc} (h : p.pc.afterFork = some pc) :
    p.pc ≠ .exited ∧ pc ≠ .exit ∧ pc ≠ .exited := by
  cases hpc : p.pc with
  | forkLeft => rw [hpc] at h; cases h; exact ⟨nofun, nofun, nofun⟩
  | forkRight => rw [hpc] at h; cases h; exact ⟨nofun, nofun, nofun⟩
  | _ => rw [hpc] at h; cases h

/-- a process that exits, or has left its `wait`, was there before -/
theorem go_waited (hk : Keeps p q) (h : p.go generations = some q) (hs : Waited s p)
    (hw : p.pc = .wait → ∀ c ∈ p.children, Exited s c) : Waited s q := by
  intro hq
  rw [hk.children]
  obtain ⟨pc, gen, children, unreaped, printed⟩ := p
  cases pc with
  | wait => exact hw rfl
  | exit => exact hs (.inl rfl)
  | test =>
    obtain rfl := Option.some.inj h
    dsimp only at hq
    split_ifs at hq <;> simp at hq
  | last =>
    obtain rfl := Option.some.inj h
    dsimp only at hq
    split_ifs at hq <;> simp at hq
  | print => obtain rfl := Option.some.inj h; simp at hq
  | incr => obtain rfl := Option.some.inj h; simp at hq
  | _ => cases h

theorem waited_set (hall : ∀ r ∈ s, Waited s r) (hp : s[i]? = some p) (hpc : p.pc ≠ .exited) (hq : Waited s q) :
    ∀ r ∈ s.set i q, Waited (s.set i q) r := by
  have hold : ∀ r ∈ s.set i q, Waited s r := forall_mem_set hall hq
  exact fun r hr hout c hc => exited_set hp hpc (hold r hr hout c hc)

theorem step_waited (hinv : TreeInv generations s) (hall : ∀ p ∈ s, Waited s p) (he : e.Succeeds)
    (hC : WaitsForAll s e t) (hst : step generations s e = some t) : ∀ p ∈ t, Waited t p := by
  obtain ⟨p, hp, hcases⟩ := step_cases hst
  have hwait := hC p hp
  have hmem := hall p (List.mem_of_getElem? hp)
  obtain ⟨q, hq, rfl⟩ | ⟨pc, hpc, rfl⟩ | ⟨pc, -, hfail, -⟩ | ⟨c, hpc, -, -, rfl⟩ := hcases
  · obtain ⟨-, hk⟩ := go_ok (hinv.get hp) hq
    exact waited_set hall hp (go_not_exited hq) (go_waited hk hq hmem hwait)
  · obtain ⟨hne, hexit, hexited⟩ := afterFork_ne hpc
    have hparent : Waited s (p.forked pc s.length) := fun hout => absurd hout (not_or.2 ⟨hexit, hexited⟩)
    have hset := waited_set hall hp hne hparent
    refine List.forall_mem_append.2 ⟨fun r hr hout c hc => exited_append _ (hset r hr hout c hc), ?_⟩
    exact List.forall_mem_singleton.2 fun _ c hc => absurd hc List.not_mem_nil
  · exact absurd hfail he
  · have hne : p.pc ≠ .exited := by
      rw [hpc]
      nofun
    exact waited_set hall hp hne fun _ => hwait hpc

theorem bottomUp_of_waits (h1 : 1 ≤ generations) (h : Forks generations l s)
    (hC : Along (Takes (step generations)) WaitsForAll init l) : BottomUp s := by
  obtain ⟨hl, hrun⟩ := h
  have hboth : Along (Takes (step generations)) (fun s e t => e.Succeeds ∧ WaitsForAll s e t) init l :=
    fun l₁ e l₂ u v hsplit hu hv => ⟨Along.of_forall hl init l₁ e l₂ u v hsplit hu hv, hC l₁ e l₂ u v hsplit hu hv⟩
  have hinit : ∀ p ∈ init, Waited init p := List.forall_mem_singleton.2 fun _ c hc => absurd hc List.not_mem_nil
  obtain ⟨-, hall⟩ := Along.inv (I := fun s => TreeInv generations s ∧ ∀ p ∈ s, Waited s p)
    (fun _ _ _ hs hc hst => ⟨step_inv hs.1 hc.1 hst, step_waited hs.1 hs.2 hc.1 hc.2 hst⟩) hboth hrun
    ⟨init_inv h1, hinit⟩
  exact fun p hp hpc => hall p hp (.inr hpc)

/-! ## Waiting for one -/

/-- some steps lead from `s` to `t`, and no `fork` fails on the way -/
def Walk (generations : ℕ) (s t : List Proc) : Prop :=
  ∃ l : List Event, (∀ e ∈ l, e.Succeeds) ∧ Run (Takes (step generations)) s l t

theorem Walk.step (hst : ForkTree.step generations s e = some t) (he : e.Succeeds) : Walk generations s t :=
  ⟨[e], List.forall_mem_singleton.2 he, .cons hst (.nil t)⟩

theorem Walk.go (hp : s[i]? = some p) (hq : p.go generations = some q) : Walk generations s (s.set i q) :=
  .step (step_go hp hq) (by simp [Event.Succeeds])

theorem Walk.fork (generations : ℕ) (hp : s[i]? = some p) {pc : Pc} (hpc : p.pc.afterFork = some pc) :
    Walk generations s (s.set i (p.forked pc s.length) ++ [fresh p.gen]) :=
  .step (step_fork generations hp hpc) (by simp [Event.Succeeds])

theorem Walk.reap (generations : ℕ) (hp : s[i]? = some p) (hpc : p.pc = .wait) (hc : c ∈ p.unreaped)
    (hex : Exited s c) : Walk generations s (s.set i (p.reaped c)) :=
  .step (step_reap generations hp hpc hc hex) (by simp [Event.Succeeds])

theorem Walk.trans {u : List Proc} (h₁ : Walk generations s t) (h₂ : Walk generations t u) : Walk generations s u := by
  obtain ⟨l₁, hl₁, hrun₁⟩ := h₁
  obtain ⟨l₂, hl₂, hrun₂⟩ := h₂
  exact ⟨l₁ ++ l₂, List.forall_mem_append.2 ⟨hl₁, hl₂⟩, run_append_iff.2 ⟨t, hrun₁, hrun₂⟩⟩

/-- steps of one process that touch no other -/
theorem walk_go {k : List Unit} (h : Run (Takes fun p (_ : Unit) => p.go generations) p k q) (hp : s[i]? = some p) :
    Walk generations s (s.set i q) := by
  induction h generalizing s with
  | nil p =>
    obtain ⟨hlt, rfl⟩ := List.getElem?_eq_some_iff.1 hp
    rw [List.set_getElem_self]
    exact ⟨[], nofun, .nil s⟩
  | @cons p u q _ k hgo _ ih =>
    obtain ⟨hlt, -⟩ := List.getElem?_eq_some_iff.1 hp
    have hrest := ih (s := s.set i u) (List.getElem?_set_self hlt)
    rw [List.set_set] at hrest
    exact (Walk.go hp hgo).trans hrest

/-- what a successful `fork` leaves -/
theorem fork_frame (hp : s[i]? = some p) (q r : Proc) :
    (s.set i q ++ [r]).length = s.length + 1 ∧ (s.set i q ++ [r])[i]? = some q ∧
      (s.set i q ++ [r])[s.length]? = some r ∧ ∀ j ≠ i, j < s.length → (s.set i q ++ [r])[j]? = s[j]? := by
  obtain ⟨hlt, -⟩ := List.getElem?_eq_some_iff.1 hp
  refine ⟨by simp, ?_, ?_, fun j hj hjlt => ?_⟩
  · rw [List.getElem?_append_left (by rwa [List.length_set]), List.getElem?_set_self hlt]
  · rw [← List.length_set (i := i) (a := q), List.getElem?_concat_length]
  · rw [List.getElem?_append_left (by rwa [List.length_set]), List.getElem?_set_ne hj.symm]

/-- a process below the last generation prints, forks twice, and comes to its `wait` -/
theorem walk_forks {gen : ℕ} (hp : s[i]? = some (fresh gen)) (hgen : gen + 1 < generations) :
    ∃ t, Walk generations s t ∧ t.length = s.length + 2 ∧
      t[i]? = some ⟨.wait, gen + 1, [s.length, s.length + 1], [s.length, s.length + 1], [gen + 1]⟩ ∧
      t[s.length + 1]? = some (fresh (gen + 1)) ∧ t[s.length]? = some (fresh (gen + 1)) ∧
      ∀ j ≠ i, j < s.length → t[j]? = s[j]? := by
  obtain ⟨hlt, -⟩ := List.getElem?_eq_some_iff.1 hp
  let p₁ : Proc := ⟨.forkLeft, gen + 1, [], [], [gen + 1]⟩
  have halone : Run (Takes fun p (_ : Unit) => p.go generations) (fresh gen) (List.replicate 4 ()) p₁ := by
    apply run_takes_iff.2
    simp [fresh, Proc.go, List.replicate, hgen, (Nat.lt_succ_self gen).trans hgen, p₁]
  have hgo := walk_go halone hp
  -- the first `fork`
  have h₁ : (s.set i p₁)[i]? = some p₁ := List.getElem?_set_self hlt
  have hleft := Walk.fork generations h₁ (show p₁.pc.afterFork = some .forkRight from rfl)
  obtain ⟨hlen₂, hself₂, hnew₂, hold₂⟩ := fork_frame h₁ (p₁.forked .forkRight (s.set i p₁).length) (fresh p₁.gen)
  set u := (s.set i p₁).set i (p₁.forked .forkRight (s.set i p₁).length) ++ [fresh p₁.gen]
  rw [List.length_set] at hlen₂ hself₂ hnew₂ hold₂
  -- the second
  have hright := Walk.fork generations hself₂ (show Pc.forkRight.afterFork = some .wait from rfl)
  rw [hlen₂] at hright
  obtain ⟨hlen₃, hself₃, hnew₃, hold₃⟩ := fork_frame hself₂ ((p₁.forked .forkRight s.length).forked .wait (s.length + 1))
    (fresh (p₁.forked .forkRight s.length).gen)
  rw [hlen₂] at hlen₃ hnew₃ hold₃
  refine ⟨_, (hgo.trans hleft).trans hright, hlen₃, hself₃, hnew₃, ?_, ?_⟩
  · rw [hold₃ s.length hlt.ne' (Nat.lt_succ_self _), hnew₂]
  · intro j hj hjlt
    rw [hold₃ j hj (hjlt.trans (Nat.lt_succ_self _)), hold₂ j hj hjlt, List.getElem?_set_ne hj.symm]

/-- a process whose child has exited leaves its `wait` and exits -/
theorem reap_and_exit (generations : ℕ) (hp : s[i]? = some p) (hpc : p.pc = .wait) (hc : c ∈ p.unreaped)
    (hex : Exited s c) :
    ∃ t, Walk generations s t ∧ t[i]? = some { p.reaped c with pc := .exited } ∧ ∀ j ≠ i, t[j]? = s[j]? := by
  obtain ⟨hlt, -⟩ := List.getElem?_eq_some_iff.1 hp
  have hreap := Walk.reap generations hp hpc hc hex
  have hself : (s.set i (p.reaped c))[i]? = some (p.reaped c) := List.getElem?_set_self hlt
  have hexit : Walk generations (s.set i (p.reaped c)) _ := .go hself rfl
  rw [List.set_set] at hexit
  refine ⟨_, hreap.trans hexit, List.getElem?_set_self hlt, ?_⟩
  exact fun j hj => List.getElem?_set_ne hj.symm

/-- a process and some of its descendants run until it has exited, while all others stand still -/
theorem subtree_exits {gen k : ℕ} (hk : gen + k + 1 = generations) (hp : s[i]? = some (fresh gen)) :
    ∃ t, Walk generations s t ∧ Exited t i ∧ ∀ j ≠ i, j < s.length → t[j]? = s[j]? := by
  induction k generalizing gen s i with
  | zero =>
    -- the last generation has no children
    obtain ⟨hlt, -⟩ := List.getElem?_eq_some_iff.1 hp
    have halone : Run (Takes fun p (_ : Unit) => p.go generations) (fresh gen) (List.replicate 6 ())
        ⟨.exited, gen + 1, [], [], [gen + 1]⟩ := by
      apply run_takes_iff.2
      simp [fresh, Proc.go, List.replicate, ← hk]
    refine ⟨_, walk_go halone hp, ?_, fun j hj _ => List.getElem?_set_ne hj.symm⟩
    exact exited_iff.2 ⟨_, List.getElem?_set_self hlt, rfl⟩
  | succ k ih =>
    obtain ⟨hlt, -⟩ := List.getElem?_eq_some_iff.1 hp
    obtain ⟨u, hsu, hlen, hself, hright, -, hold⟩ := walk_forks hp (show gen + 1 < generations by omega)
    -- its right child
    obtain ⟨v, huv, hex, hstill⟩ := ih (show gen + 1 + k + 1 = generations by omega) hright
    have hparent := (hstill i (by omega) (by omega)).trans hself
    obtain ⟨w, hvw, hw, hothers⟩ := reap_and_exit generations hparent rfl (by simp) hex
    refine ⟨w, (hsu.trans huv).trans hvw, exited_iff.2 ⟨_, hw, rfl⟩, ?_⟩
    intro j hj hjlt
    rw [hothers j hj, hstill j (by omega) (by omega), hold j hj hjlt]

/-- with two generations or more, the root can exit while its left child has not even printed -/
theorem not_bottomUp (h : 2 ≤ generations) : ∃ s, Walk generations init s ∧ ¬ BottomUp s := by
  obtain ⟨k, hk⟩ : ∃ k, 1 + k + 1 = generations := ⟨generations - 2, by omega⟩
  have hroot : init[0]? = some (fresh 0) := rfl
  obtain ⟨u, hu, -, hself, hright, hleft, -⟩ := walk_forks hroot (show 0 + 1 < generations by omega)
  have hlen : 2 < u.length := (List.getElem?_eq_some_iff.1 hright).1
  obtain ⟨v, huv, hex, hstill⟩ := subtree_exits hk hright
  have hparent := (hstill 0 (by decide) (by omega)).trans hself
  have hchild := (hstill 1 (by decide) (by omega)).trans hleft
  obtain ⟨w, hvw, hw, hothers⟩ := reap_and_exit generations hparent rfl (by simp) hex
  refine ⟨w, (hu.trans huv).trans hvw, ?_⟩
  intro hup
  obtain ⟨r, hr, hrex⟩ := exited_iff.1 (hup _ (List.mem_of_getElem? hw) rfl 1 (by simp [Proc.reaped, init]))
  rw [hothers 1 (by decide), hchild] at hr
  obtain rfl := Option.some.inj hr
  cases hrex

/-! ## Result -/

/-- when nothing can go on, all have exited and the tree is complete -/
theorem stuck_complete (h1 : 1 ≤ generations) (h : Forks generations l s)
    (hstuck : ∀ e, e.Succeeds → step generations s e = none) : Finished s ∧ Complete generations s := by
  have hinv := run_inv h1 h.1 h.2
  have hfinished : Finished s := by
    by_contra hnot
    obtain ⟨e, t, he, hst⟩ := exists_step hinv hnot
    rw [hstuck e he] at hst
    cases hst
  exact ⟨hfinished, complete_of_finished hinv hfinished⟩

/-- in the last generation there is nobody to wait for -/
theorem bottomUp_one (h : Forks 1 l s) : BottomUp s := by
  intro p hp hpc c hc
  obtain ⟨-, hlen⟩ := ((run_inv le_rfl h.1 h.2).each p hp).exited hpc
  have hpos := ((run_inv le_rfl h.1 h.2).each p hp).generation_pos
  rw [if_neg (by omega)] at hlen
  rw [List.eq_nil_of_length_eq_zero hlen] at hc
  exact absurd hc List.not_mem_nil

/-- **The tree of processes.** Every run ends, with all processes exited and the tree complete; a run in which each `wait`
waits for all children is torn down bottom-up; and all runs are exactly when there is one generation. -/
theorem fork_tree_iff (generations : ℕ) (h1 : 1 ≤ generations) :
    (∀ l s, Forks generations l s → l.length ≤ treeWork generations ∧
      ((∀ e, e.Succeeds → step generations s e = none) → Finished s ∧ Complete generations s) ∧
      (Along (Takes (step generations)) WaitsForAll init l → BottomUp s)) ∧
    (Correct generations ↔ generations = 1) := by
  refine ⟨fun l s h => ⟨run_length_le h.2, stuck_complete h1 h, bottomUp_of_waits h1 h⟩, ?_, ?_⟩
  · intro hcorrect
    by_contra hne
    obtain ⟨s, ⟨l, hl, hrun⟩, hnot⟩ := not_bottomUp (show 2 ≤ generations by omega)
    exact hnot (hcorrect l s ⟨hl, hrun⟩).2
  · rintro rfl l s h
    exact ⟨stuck_complete le_rfl h, bottomUp_one h⟩

theorem finished_stuck (h : Finished s) (e : Event) : step generations s e = none := by
  cases hp : s[e.pid]? with
  | none => simp [step, hp]
  | some p =>
    have hpc := h p (List.mem_of_getElem? hp)
    obtain ⟨pid, answer⟩ := e
    cases answer with
    | go => simp_all [step, Proc.go]
    | fork ok => cases ok <;> simp_all [step, Pc.afterFork]
    | reap c => simp_all [step]

/-- a process without children, from its first step to its exit -/
def leafRun (pid : ℕ) : List Event := List.replicate 6 ⟨pid, .go⟩

/-- two processes without children, step by step -/
def leavesRun (left right : ℕ) : List Event := (leafRun left).zipWith (fun a b => [a, b]) (leafRun right) |>.flatten

/-- a process that creates `left` and `right`, and waits when `between` has happened -/
def parentRun (pid left : ℕ) (between : List Event) : List Event :=
  List.replicate 4 ⟨pid, .go⟩ ++ List.replicate 2 ⟨pid, .fork true⟩ ++ between ++ [⟨pid, .reap left⟩, ⟨pid, .go⟩]

/-- three generations: the leaves of a parent take turns, and each parent waits when both children are gone -/
def threeGenerations : List Event :=
  parentRun 0 1 (parentRun 1 3 (leavesRun 3 4) ++ parentRun 2 6 (leavesRun 5 6))

/-- a complete tree of seven processes, torn down bottom-up; and one process alone, in every order -/
theorem fork_tree_three : (∃ s, Forks 3 threeGenerations s ∧ s.length = 7 ∧ Finished s ∧ Complete 3 s ∧ BottomUp s) ∧
    Correct 1 := by
  refine ⟨?_, (fork_tree_iff 1 le_rfl).2.2 rfl⟩
  have hobs : (threeGenerations.foldlM (step 3) init).map (fun s => s.map Proc.pc) =
      some (List.replicate 7 .exited) := by decide +kernel
  obtain ⟨s, hs, hpcs⟩ := Option.map_eq_some_iff.1 hobs
  have hlen : s.length = 7 := by simpa using congrArg List.length hpcs
  have hfinished : Finished s := by
    intro p hp
    have hmem : p.pc ∈ s.map Proc.pc := List.mem_map_of_mem hp
    rw [hpcs] at hmem
    exact List.eq_of_mem_replicate hmem
  have hforks : Forks 3 threeGenerations s := ⟨by decide, run_takes_iff.2 hs⟩
  obtain ⟨-, hcomplete, hbottom⟩ := (fork_tree_iff 3 (by decide)).1 _ s hforks
  exact ⟨s, hforks, hlen, hfinished, (hcomplete fun e _ => finished_stuck hfinished e).2, hbottom (by decide +kernel)⟩

/-- two generations: the root forks twice, its right child runs to the end, and the root exits before the left one -/
theorem root_exits_first : ∃ l s, Forks 2 l s ∧ s.map Proc.pc = [.exited, .test, .exited] ∧ ¬ BottomUp s := by
  let root (answer : Answer) : Event := ⟨0, answer⟩
  let l := List.replicate 4 (root .go) ++ [root (.fork true), root (.fork true)] ++ List.replicate 6 ⟨2, .go⟩ ++
    [root (.reap 2), root .go]
  let s : List Proc := [⟨.exited, 1, [1, 2], [1], [1]⟩, fresh 1, ⟨.exited, 2, [], [], [2]⟩]
  exact ⟨l, s, ⟨by decide, run_takes_iff.2 (by decide +kernel)⟩, rfl, by decide⟩

end Cse422.ForkTree
