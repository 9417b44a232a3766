/-
What `print500000.c` prints, for every size and wherever SIGINT comes.

- `report_complete`: a run that ends, and in which no handler came inside a `printf` of `main` (`Apart`), has printed
  every number of the first loop once and in order, and then reported exactly the indices whose entry was set when the
  second loop tested it (`Seen`), in ascending order. Every SIGINT that was delivered has stored once, none outside the
  array, and what was stored in the first loop is set when it is tested. However many come, `main` makes at most
  `12 * size + 6` steps, and it can make one as long as the stores are inside the array.

The state does not say what has been reported; `Shows` reads it off the run so far. `Main.numbers` and `Main.tested`
say how far the two loops are.
-/
import Cse422.Signals.Print500000

namespace Cse422.Print500000

open Lts Signals

variable {size : ℕ} {s t : State} {e : Event} {l : List Event}

/-! ## The report -/

/-- in the run `l`, `called[k]` is set as the second loop tests it -/
def Seen (size : ℕ) (l : List Event) (k : ℕ) : Prop :=
  ∃ l₁ u, l₁ <+: l ∧ Run (Takes (step size)) init l₁ u ∧ u.main = .called ∧ u.i = k ∧ k ∈ u.stored

/-- `main` has not come to the second loop -/
def Main.InFirst : Main → Prop
  | .install | .init _ | .test .first | .print .first | .printing .first _ | .check | .incRead .first
  | .incWrite .first _ => True
  | _ => False

/-- a SIGINT is not handled inside a `printf` of `main` -/
def Apart (s : State) (e : Event) (_ : State) : Prop := e = .sigint → s.main.inPrintf = false

instance (s : State) (e : Event) (t : State) : Decidable (Apart s e t) := inferInstanceAs (Decidable (_ → _))

open Classical in
/-- what is printed in the whole run `l` -/
structure Printed (size : ℕ) (l : List Event) (out : List Line) : Prop where
  lines : out.filter (· ≠ .caught) =
    (List.range size).map .number ++ ((List.range size).filter (Seen size l)).map .interrupted
  caught : out.count .caught = l.count .sigint

/-- what holds when the run `l` has led `main` to its return -/
structure Report (size : ℕ) (l : List Event) (s : State) : Prop where
  printed : Along (Takes (step size)) Apart init l → ∃ out, s.out = some out ∧ Printed size l out
  inBounds : s.InBounds size
  stored : s.stored.length = l.count .sigint
  /-- what is stored in the first loop is reported -/
  early : ∀ l₁ u, l₁ <+: l → Run (Takes (step size)) init l₁ u → u.main.InFirst → ∀ k ∈ u.stored, Seen size l k

/-! ## Where the loops are -/

/-- the numbers that have been printed -/
def Main.numbers (size i : ℕ) : Main → ℕ
  | .install | .init .first | .killed => 0
  | .test .first | .print .first | .printing .first _ => i
  | .check | .incRead .first | .incWrite .first _ => i + 1
  | _ => size

/-- the entries that have been tested, and reported if they were set -/
def Main.tested (size i : ℕ) : Main → ℕ
  | .test .second | .called | .print .second | .printing .second _ => i
  | .incRead .second | .incWrite .second _ => i + 1
  | .ret | .exited => size
  | _ => 0

open Classical in
/-- the lines of the two loops so far -/
noncomputable def linesAt (size n m : ℕ) (l : List Event) : List Line :=
  (List.range n).map .number ++ ((List.range m).filter (Seen size l)).map .interrupted

/-- the second loop has found its entry set and reports it -/
def Main.Reports : Main → Prop
  | .print .second | .printing .second _ => True
  | _ => False

structure Shows (size : ℕ) (l : List Event) (s : State) : Prop where
  lines : ∀ out ∈ s.out, out.filter (· ≠ .caught) = linesAt size (s.main.numbers size s.i) (s.main.tested size s.i) l
  next : s.main.Reports → Seen size l s.i

/-! ## What the run so far says -/

theorem Seen.mono {l' : List Event} {k : ℕ} (h : Seen size l k) (hl : l <+: l') : Seen size l' k := by
  obtain ⟨l₁, u, hp, hu⟩ := h
  exact ⟨l₁, u, hp.trans hl, hu⟩

/-- the run is determined by its events -/
theorem run_unique {s₀ u : State} (h : Run (Takes (step size)) s₀ l s) (h' : Run (Takes (step size)) s₀ l u) : s = u :=
  Option.some.inj ((run_takes_iff.1 h).symm.trans (run_takes_iff.1 h'))

theorem step_stored (hst : step size s e = some t) : s.stored <+: t.stored := by
  obtain ⟨-, hst⟩ | ⟨-, hst⟩ := step_cases hst
  · rw [mainStep_stored hst]
  · obtain ⟨-, rfl⟩ | ⟨-, -, -, rfl⟩ := sigint_cases hst
    · exact List.prefix_refl _
    · exact List.prefix_append _ _

theorem run_stored (h : Run (Takes (step size)) s l t) : s.stored <+: t.stored :=
  Run.inv (I := fun u => s.stored <+: u.stored) (fun _ _ _ hp hst => hp.trans (step_stored hst)) h (List.prefix_refl _)

/-- an entry is seen anew only where `main` comes to its test, or is there -/
theorem seen_snoc (h : Run (Takes (step size)) init l s) (hst : step size s e = some t) {k : ℕ}
    (hk : Seen size (l ++ [e]) k) : Seen size l k ∨ t.main = .called ∧ t.i = k := by
  obtain ⟨l₁, u, hp, hu, hmain, hi, hmem⟩ := hk
  obtain rfl | hp := List.prefix_concat_iff.1 hp
  · obtain rfl := run_unique hu (run_append_iff.2 ⟨s, h, run_cons_iff.2 ⟨t, hst, .nil t⟩⟩)
    exact Or.inr ⟨hmain, hi⟩
  · exact Or.inl ⟨l₁, u, hp, hu, hmain, hi, hmem⟩

/-- what is seen of `k` while it is tested has been stored -/
theorem Seen.mem_stored (h : Run (Takes (step size)) init l s) {k : ℕ} (hk : Seen size l k) : k ∈ s.stored := by
  obtain ⟨l₁, u, ⟨l₂, rfl⟩, hu, -, -, hmem⟩ := hk
  obtain ⟨v, hv, hs⟩ := run_append_iff.1 h
  obtain rfl := run_unique hv hu
  exact (run_stored hs).subset hmem

/-- a step does not change what has been seen of the entries tested before it -/
theorem linesAt_snoc (h : Run (Takes (step size)) init l s) (hst : step size s e = some t) (n : ℕ) {m : ℕ}
    (hm : t.main = .called → m ≤ t.i) : linesAt size n m (l ++ [e]) = linesAt size n m l := by
  unfold linesAt
  congr 2
  refine List.filter_congr fun k hk => ?_
  have hlt := List.mem_range.1 hk
  refine decide_eq_decide.2 ⟨fun hseen => ?_, fun hseen => hseen.mono (List.prefix_append _ _)⟩
  obtain hseen | ⟨hcalled, rfl⟩ := seen_snoc h hst hseen
  · exact hseen
  · exact absurd (hm hcalled) (Nat.not_le_of_lt hlt)

theorem linesAt_succ_number (size n : ℕ) (l : List Event) :
    linesAt size (n + 1) 0 l = linesAt size n 0 l ++ [.number n] := by
  simp [linesAt, List.range_succ]

theorem linesAt_seen (n : ℕ) {m : ℕ} (h : Seen size l m) :
    linesAt size n (m + 1) l = linesAt size n m l ++ [.interrupted m] := by
  simp [linesAt, List.range_succ, h]

theorem linesAt_not_seen (n : ℕ) {m : ℕ} (h : ¬ Seen size l m) : linesAt size n (m + 1) l = linesAt size n m l := by
  simp [linesAt, List.range_succ, h]

/-! ## The lines along a run -/

theorem init_shows (size : ℕ) : Shows size [] init := ⟨by rintro _ ⟨⟩; rfl, not_false.elim⟩

/-- a step that prints no line of the loops and tests nothing -/
theorem Shows.keep (h : Shows size l s) (hr : Run (Takes (step size)) init l s) (hst : step size s e = some t)
    (hout : ∀ out ∈ t.out, ∃ o ∈ s.out, out.filter (· ≠ .caught) = o.filter (· ≠ .caught))
    (hn : t.main.numbers size t.i = s.main.numbers size s.i) (hm : t.main.tested size t.i = s.main.tested size s.i)
    (hnext : t.main.Reports → Seen size l t.i) : Shows size (l ++ [e]) t where
  lines out ho := by
    obtain ⟨o, hmem, heq⟩ := hout out ho
    rw [linesAt_snoc hr hst _ (fun hc => by rw [hc]; exact le_rfl), heq, h.lines o hmem, hn, hm]
  next hp := (hnext hp).mono (List.prefix_append _ _)

/-- a `printf` of `main` that returns -/
theorem printing_shows {l : Loop} {x : ℕ} {stored : List ℕ} {out : Option (List Line)} {undef : Bool} {k : List Event}
    (h : Shows size k ⟨.printing l x, x, false, stored, out, undef⟩)
    (hr : Run (Takes (step size)) init k ⟨.printing l x, x, false, stored, out, undef⟩)
    (hst : step size ⟨.printing l x, x, false, stored, out, undef⟩ .main =
      some ⟨l.printed, x, false, stored, out.map fun o => o ++ [l.line x], undef⟩) :
    Shows size (k ++ [.main]) ⟨l.printed, x, false, stored, out.map fun o => o ++ [l.line x], undef⟩ := by
  cases l with
  | first =>
    refine ⟨fun out' hmem => ?_, not_false.elim⟩
    obtain ⟨o, ho, rfl⟩ := Option.mem_map.1 hmem
    have hlines : o.filter (· ≠ .caught) = linesAt size x 0 k := h.lines o ho
    rw [linesAt_snoc hr hst _ (by simp [Loop.printed])]
    refine Eq.trans ?_ (linesAt_succ_number size x k).symm
    rw [← hlines]
    exact List.filter_append _ _
  | second =>
    refine ⟨fun out' hmem => ?_, not_false.elim⟩
    obtain ⟨o, ho, rfl⟩ := Option.mem_map.1 hmem
    have hlines : o.filter (· ≠ .caught) = linesAt size size x k := h.lines o ho
    rw [linesAt_snoc hr hst _ (by simp [Loop.printed])]
    refine Eq.trans ?_ (linesAt_seen size (h.next trivial)).symm
    rw [← hlines]
    exact List.filter_append _ _

theorem mainStep_shows (hl : LoopInv size s) (h : Shows size l s) (hr : Run (Takes (step size)) init l s)
    (hst : step size s .main = some t) (hmain : s.mainStep size = some t) : Shows size (l ++ [.main]) t := by
  obtain ⟨hterm, hbound⟩ := hl
  obtain ⟨main, i, shouldterm, stored, out, undef⟩ := s
  obtain rfl : shouldterm = false := hterm
  have same : ∀ o ∈ out, ∃ o' ∈ out, o.filter (· ≠ .caught) = o'.filter (· ≠ .caught) := fun o ho => ⟨o, ho, rfl⟩
  cases main with
  | install => obtain rfl := Option.some.inj hmain; exact h.keep hr hst same rfl rfl not_false.elim
  | init l =>
    obtain rfl := Option.some.inj hmain
    cases l with
    | first => exact h.keep hr hst same rfl rfl not_false.elim
    | second => exact h.keep hr hst same rfl rfl not_false.elim
  | test l =>
    have hle : i ≤ size := hbound
    by_cases hlt : i < size
    · simp only [State.mainStep, if_pos hlt, Option.some.injEq] at hmain
      subst hmain
      cases l with
      | first => exact h.keep hr hst same rfl rfl not_false.elim
      | second => exact h.keep hr hst same rfl rfl not_false.elim
    · simp only [State.mainStep, if_neg hlt, Option.some.injEq] at hmain
      subst hmain
      obtain rfl : i = size := by omega
      cases l with
      | first => exact h.keep hr hst same rfl rfl not_false.elim
      | second => exact h.keep hr hst same rfl rfl not_false.elim
  | print l =>
    obtain rfl := Option.some.inj hmain
    cases l with
    | first => exact h.keep hr hst same rfl rfl not_false.elim
    | second => exact h.keep hr hst same rfl rfl h.next
  | printing l x =>
    obtain ⟨rfl, -⟩ := hbound
    obtain rfl := Option.some.inj hmain
    exact printing_shows h hr hst
  | check => obtain rfl := Option.some.inj hmain; exact h.keep hr hst same rfl rfl not_false.elim
  | called =>
    by_cases hmem : i ∈ stored
    · simp only [State.mainStep, if_pos hmem, Option.some.injEq] at hmain
      subst hmain
      exact h.keep hr hst same rfl rfl fun _ => ⟨_, _, List.prefix_refl _, hr, rfl, rfl, hmem⟩
    · simp only [State.mainStep, if_neg hmem, Option.some.injEq] at hmain
      subst hmain
      refine ⟨fun o ho => ?_, not_false.elim⟩
      have hlines : o.filter (· ≠ .caught) = linesAt size size i _ := h.lines o ho
      rw [linesAt_snoc hr hst _ (by simp)]
      exact hlines.trans (linesAt_not_seen size fun hseen => hmem (hseen.mem_stored hr)).symm
  | incRead l =>
    obtain rfl := Option.some.inj hmain
    cases l with
    | first => exact h.keep hr hst same rfl rfl not_false.elim
    | second => exact h.keep hr hst same rfl rfl not_false.elim
  | incWrite l x =>
    obtain ⟨rfl, -⟩ := hbound
    by_cases hmax : x = intMax
    · simp only [State.mainStep, if_pos hmax, Option.some.injEq] at hmain
      subst hmain
      exact h.keep hr hst same rfl rfl not_false.elim
    · simp only [State.mainStep, if_neg hmax, Option.some.injEq] at hmain
      subst hmain
      cases l with
      | first => exact h.keep hr hst same rfl rfl not_false.elim
      | second => exact h.keep hr hst same rfl rfl not_false.elim
  | ret => obtain rfl := Option.some.inj hmain; exact h.keep hr hst same rfl rfl not_false.elim
  | exited => cases hmain
  | killed => cases hmain

/-- what the handler adds is no line of the loops -/
theorem handler_out (size : ℕ) {s : State} {out : List Line} (h : out ∈ (s.handler size).out) :
    s.main.inPrintf = false ∧ ∃ o ∈ s.out, out = o ++ [.caught] := by
  unfold State.handler State.say at h
  dsimp only at h
  split_ifs at h with hin
  · cases h
  · obtain ⟨o, ho, rfl⟩ := Option.mem_map.1 h
    exact ⟨Bool.eq_false_of_not_eq_true hin, o, ho, rfl⟩

theorem step_shows (hl : LoopInv size s) (h : Shows size l s) (hr : Run (Takes (step size)) init l s)
    (hst : step size s e = some t) : Shows size (l ++ [e]) t := by
  obtain ⟨rfl, hmain⟩ | ⟨rfl, hsig⟩ := step_cases hst
  · exact mainStep_shows hl h hr hst hmain
  · obtain ⟨hinst, rfl⟩ | ⟨-, -, -, rfl⟩ := sigint_cases hsig
    · exact h.keep hr hst (fun o ho => ⟨o, ho, rfl⟩) (by rw [hinst]; rfl) (by rw [hinst]; rfl) not_false.elim
    · refine h.keep hr hst (fun o ho => ?_) rfl rfl h.next
      obtain ⟨-, o', ho', rfl⟩ := handler_out size ho
      exact ⟨o', ho', by simp⟩

theorem run_loopInv (h : Run (Takes (step size)) init l s) : LoopInv size s :=
  Run.inv (I := LoopInv size) (fun _ _ _ hs hst => step_loopInv hs hst) h (init_loopInv size)

theorem run_shows (h : Run (Takes (step size)) init l s) : Shows size l s :=
  Run.inv_history (I := Shows size) (fun _ _ _ _ hr hs hst => step_shows (run_loopInv hr) hs hr hst) h
    (init_shows size)

/-! ## What is caught is reported -/

/-- an entry is tested at `called`, and what is printed there follows -/
theorem step_tested (hl : LoopInv size s) (hst : step size s e = some t) :
    t.main.tested size t.i ≤ s.main.tested size s.i ∨
      (s.main = .called ∨ ∃ x, s.main = .printing .second x) ∧ t.main.tested size t.i = s.i + 1 := by
  obtain ⟨rfl, hmain⟩ | ⟨rfl, hsig⟩ := step_cases hst
  · obtain ⟨hterm, hbound⟩ := hl
    obtain ⟨main, i, shouldterm, stored, out, undef⟩ := s
    obtain rfl : shouldterm = false := hterm
    cases main with
    | test l =>
      obtain rfl := Option.some.inj hmain
      have hle : i ≤ size := hbound
      refine Or.inl ?_
      dsimp only
      split_ifs with hlt
      · cases l with
        | first => exact le_rfl
        | second => exact le_rfl
      · obtain rfl : i = size := by omega
        cases l with
        | first => exact le_rfl
        | second => exact le_rfl
    | called =>
      obtain rfl := Option.some.inj hmain
      dsimp only
      split_ifs
      · exact Or.inl le_rfl
      · exact Or.inr ⟨Or.inl rfl, rfl⟩
    | print l => obtain rfl := Option.some.inj hmain; cases l <;> exact Or.inl le_rfl
    | printing l x =>
      obtain rfl := Option.some.inj hmain
      cases l with
      | first => exact Or.inl le_rfl
      | second => exact Or.inr ⟨Or.inr ⟨x, rfl⟩, rfl⟩
    | init l => obtain rfl := Option.some.inj hmain; cases l <;> exact Or.inl le_rfl
    | incRead l => obtain rfl := Option.some.inj hmain; cases l <;> exact Or.inl le_rfl
    | incWrite l x =>
      obtain rfl := Option.some.inj hmain
      obtain ⟨rfl, -⟩ := hbound
      refine Or.inl ?_
      dsimp only
      split_ifs
      · exact le_rfl
      · cases l <;> exact le_rfl
    | exited => cases hmain
    | killed => cases hmain
    | _ => obtain rfl := Option.some.inj hmain; exact Or.inl le_rfl
  · obtain ⟨-, rfl⟩ | ⟨-, -, -, rfl⟩ := sigint_cases hsig
    · exact Or.inl (Nat.zero_le _)
    · exact Or.inl le_rfl

/-- an entry that is stored before its test is seen, once the second loop is past it -/
theorem seen_of_stored {l₁ l₂ : List Event} {u : State} (hu : Run (Takes (step size)) init l₁ u)
    (h : Run (Takes (step size)) u l₂ s) {k : ℕ} (hk : k ∈ u.stored) (htested : u.main.tested size u.i ≤ k) :
    s.main.tested size s.i ≤ k ∨ Seen size (l₁ ++ l₂) k := by
  refine Run.inv_history (I := fun l s => s.main.tested size s.i ≤ k ∨ Seen size (l₁ ++ l) k) ?_ h (Or.inl htested)
  intro l s e t hr hs hst
  have hreach : Run (Takes (step size)) init (l₁ ++ l) s := run_append_iff.2 ⟨u, hu, hr⟩
  have hlonger : l₁ ++ l <+: l₁ ++ (l ++ [e]) := (List.prefix_append_right_inj l₁).2 (List.prefix_append l [e])
  obtain hle | hseen := hs
  · obtain hle' | ⟨hplace, heq⟩ := step_tested (run_loopInv hreach) hst
    · exact Or.inl (hle'.trans hle)
    · by_cases hlt : s.i < k
      · exact Or.inl (heq.le.trans hlt)
      · -- the entry is the one that is tested here
        refine Or.inr (Seen.mono ?_ hlonger)
        obtain hcalled | ⟨x, hprint⟩ := hplace
        · rw [hcalled] at hle
          obtain rfl : s.i = k := le_antisymm hle (Nat.le_of_not_lt hlt)
          exact ⟨_, s, List.prefix_refl _, hreach, hcalled, rfl, (run_stored hr).subset hk⟩
        · rw [hprint] at hle
          obtain rfl : s.i = k := le_antisymm hle (Nat.le_of_not_lt hlt)
          exact (run_shows hreach).next (by rw [hprint]; trivial)
  · exact Or.inr (hseen.mono hlonger)

theorem tested_of_inFirst {m : Main} (h : m.InFirst) (i : ℕ) : m.tested size i = 0 := by
  cases m with
  | test l => cases l with
    | first => rfl
    | second => exact h.elim
  | print l => cases l with
    | first => rfl
    | second => exact h.elim
  | printing l x => cases l with
    | first => rfl
    | second => exact h.elim
  | incRead l => cases l with
    | first => rfl
    | second => exact h.elim
  | incWrite l x => cases l with
    | first => rfl
    | second => exact h.elim
  | called => exact h.elim
  | ret => exact h.elim
  | exited => exact h.elim
  | _ => rfl

/-! ## What the handler does -/

/-- the handler's share of the state -/
structure Caught (size : ℕ) (l : List Event) (s : State) : Prop where
  inBounds : s.undef = false → s.InBounds size
  exited : s.main = .exited → s.undef = false
  out : s.main = .killed ∨ ∀ out ∈ s.out, out.count .caught = l.count .sigint
  stored : s.main = .killed ∨ s.stored.length = l.count .sigint
  undef : size ≤ intMax → s.undef = true → ¬ s.InBounds size

theorem mainStep_caught (hst : s.mainStep size = some t) :
    (∀ out ∈ t.out, ∃ o ∈ s.out, out.count .caught = o.count .caught) ∧ (s.out.isSome → t.out.isSome) ∧
      s.main ≠ .killed ∧ (t.main = .exited → t.undef = s.undef) := by
  obtain ⟨main, i, shouldterm, stored, out, undef⟩ := s
  have same : ∀ o ∈ out, ∃ o' ∈ out, o.count .caught = o'.count .caught := fun o ho => ⟨o, ho, rfl⟩
  cases main with
  | printing l x =>
    obtain rfl := Option.some.inj hst
    refine ⟨fun out' hmem => ?_, by simp [State.say], by simp, by cases l <;> simp [Loop.printed]⟩
    obtain ⟨o, ho, rfl⟩ := Option.mem_map.1 hmem
    exact ⟨o, ho, by cases l <;> simp [Loop.line]⟩
  | incWrite l x =>
    obtain rfl := Option.some.inj hst
    dsimp only
    split_ifs
    · exact ⟨same, id, by simp, by simp⟩
    · exact ⟨same, id, by simp, by simp⟩
  | exited => cases hst
  | killed => cases hst
  | _ => obtain rfl := Option.some.inj hst; exact ⟨same, id, by simp, fun _ => rfl⟩

theorem step_undef (hst : step size s e = some t) : s.undef = false := by
  unfold step at hst
  split_ifs at hst with hu
  exact Bool.eq_false_of_not_eq_true hu

/-- the counter stays below the largest `int` -/
theorem mainStep_undef (hsize : size ≤ intMax) (hl : LoopInv size s) (hst : s.mainStep size = some t) :
    t.undef = s.undef := by
  obtain ⟨-, hbound⟩ := hl
  obtain ⟨main, i, shouldterm, stored, out, undef⟩ := s
  cases main with
  | incWrite l x =>
    obtain rfl := Option.some.inj hst
    obtain ⟨rfl, hlt⟩ := hbound
    rw [if_neg (hlt.trans_le hsize).ne]
  | exited => cases hst
  | killed => cases hst
  | _ => obtain rfl := Option.some.inj hst; rfl

theorem step_caught (hl : LoopInv size s) (h : Caught size l s) (hst : step size s e = some t) :
    Caught size (l ++ [e]) t := by
  have hundef := step_undef hst
  have hin := h.inBounds hundef
  obtain ⟨rfl, hmain⟩ | ⟨rfl, hsig⟩ := step_cases hst
  · obtain ⟨hout, -, hkill, hexit⟩ := mainStep_caught hmain
    have hstored := mainStep_stored hmain
    have hcount : (l ++ [Event.main]).count .sigint = l.count .sigint := by simp
    refine ⟨fun _ => by rw [State.InBounds, hstored]; exact hin, fun hex => (hexit hex).trans hundef, Or.inr ?_,
      Or.inr ?_, fun hsize hu => ?_⟩
    · intro out hmem
      obtain ⟨o, ho, heq⟩ := hout out hmem
      rw [heq, hcount, h.out.resolve_left hkill o ho]
    · rw [hstored, hcount]
      exact h.stored.resolve_left hkill
    · rw [mainStep_undef hsize hl hmain, hundef] at hu
      cases hu
  · obtain ⟨-, rfl⟩ | ⟨-, hex, hkill, rfl⟩ := sigint_cases hsig
    · refine ⟨fun _ => hin, by simp, Or.inl rfl, Or.inl rfl, fun _ hu => ?_⟩
      rw [hundef] at hu
      cases hu
    · have hcount : (l ++ [Event.sigint]).count .sigint = l.count .sigint + 1 := by simp
      refine ⟨fun hu => ?_, fun h => absurd h hex, Or.inr ?_, Or.inr ?_, fun _ hu hin => ?_⟩
      · have hlt : s.i < size := by
          by_contra hge
          simp [State.handler, Nat.le_of_not_lt hge] at hu
        simp only [State.InBounds, State.handler, List.forall_mem_append, List.forall_mem_singleton]
        exact ⟨hin, hlt⟩
      · intro out hmem
        obtain ⟨-, o, ho, rfl⟩ := handler_out size hmem
        rw [hcount, ← h.out.resolve_left hkill o ho]
        simp
      · rw [hcount, ← h.stored.resolve_left hkill]
        simp [State.handler]
      · have hge : size ≤ s.i := by simpa [State.handler, hundef] using hu
        exact Nat.not_lt_of_le hge (hin s.i (by simp [State.handler]))

theorem run_caught (h : Run (Takes (step size)) init l s) : Caught size l s :=
  Run.inv_history (I := Caught size) (fun _ _ _ _ hr hs hst => step_caught (run_loopInv hr) hs hst) h
    ⟨fun _ _ hk => absurd hk List.not_mem_nil, by simp [init], Or.inr (by rintro _ ⟨⟩; rfl), Or.inr rfl, by simp [init]⟩

/-- while no handler comes inside a `printf`, what is printed is known -/
theorem run_apart (h : Run (Takes (step size)) init l s) (ha : Along (Takes (step size)) Apart init l) :
    s.out.isSome := by
  refine Along.inv (I := fun s => s.out.isSome) (fun s e t hs ha hst => ?_) ha h rfl
  obtain ⟨-, hmain⟩ | ⟨rfl, hsig⟩ := step_cases hst
  · exact (mainStep_caught hmain).2.1 hs
  · obtain ⟨-, rfl⟩ | ⟨-, -, -, rfl⟩ := sigint_cases hsig
    · exact hs
    · simpa [State.handler, State.say, ha rfl] using hs

/-! ## The steps of main -/

/-- the steps that are left to `main`, at most -/
def Main.left (size i : ℕ) : Main → ℕ
  | .install => 12 * size + 6
  | .init .first => 12 * size + 5
  | .test .first => 6 * (size - i) + 6 * size + 4
  | .print .first => 6 * (size - i) + 6 * size + 3
  | .printing .first _ => 6 * (size - i) + 6 * size + 2
  | .check => 6 * (size - i) + 6 * size + 1
  | .incRead .first => 6 * (size - i) + 6 * size
  | .incWrite .first _ => 6 * (size - i) + 6 * size - 1
  | .init .second => 6 * size + 3
  | .test .second => 6 * (size - i) + 2
  | .called => 6 * (size - i) + 1
  | .print .second => 6 * (size - i)
  | .printing .second _ => 6 * (size - i) - 1
  | .incRead .second => 6 * (size - i) - 2
  | .incWrite .second _ => 6 * (size - i) - 3
  | .ret => 1
  | .exited | .killed => 0

theorem mainStep_left (hsize : size ≤ intMax) (hl : LoopInv size s) (hst : s.mainStep size = some t) :
    t.main.left size t.i < s.main.left size s.i := by
  obtain ⟨hterm, hbound⟩ := hl
  obtain ⟨main, i, shouldterm, stored, out, undef⟩ := s
  obtain rfl : shouldterm = false := hterm
  cases main with
  | install => obtain rfl := Option.some.inj hst; exact Nat.lt_succ_self _
  | init l =>
    obtain rfl := Option.some.inj hst
    cases l with
    | first =>
      simp only [Main.left]
      omega
    | second =>
      simp only [Main.left]
      omega
  | test l =>
    obtain rfl := Option.some.inj hst
    have hle : i ≤ size := hbound
    dsimp only
    split_ifs with hlt
    · cases l with
      | first => exact Nat.lt_succ_self _
      | second => exact Nat.lt_succ_self _
    · cases l with
      | first =>
        simp only [Loop.next, Main.left]
        omega
      | second =>
        simp only [Loop.next, Main.left]
        omega
  | print l =>
    obtain rfl := Option.some.inj hst
    have hlt : i < size := hbound
    cases l with
    | first => exact Nat.lt_succ_self _
    | second =>
      simp only [Main.left]
      omega
  | printing l x =>
    obtain rfl := Option.some.inj hst
    have hlt : i < size := hbound.2
    cases l with
    | first => exact Nat.lt_succ_self _
    | second =>
      simp only [Loop.printed, Main.left]
      omega
  | check => obtain rfl := Option.some.inj hst; exact Nat.lt_succ_self _
  | called =>
    obtain rfl := Option.some.inj hst
    dsimp only
    split_ifs
    · exact Nat.lt_succ_self _
    · simp only [Main.left]
      omega
  | incRead l =>
    obtain rfl := Option.some.inj hst
    have hlt : i < size := hbound
    cases l with
    | first =>
      simp only [Main.left]
      omega
    | second =>
      simp only [Main.left]
      omega
  | incWrite l x =>
    obtain ⟨rfl, hlt⟩ := hbound
    have hlt : x < size := hlt
    simp only [State.mainStep, if_neg (hlt.trans_le hsize).ne, Option.some.injEq] at hst
    subst hst
    cases l with
    | first =>
      simp only [Main.left]
      omega
    | second =>
      simp only [Main.left]
      omega
  | ret => obtain rfl := Option.some.inj hst; exact Nat.zero_lt_one
  | exited => cases hst
  | killed => cases hst

/-- SIGINT does not prolong `main` -/
theorem run_left (hsize : size ≤ intMax) (h : Run (Takes (step size)) init l s) :
    l.count .main + s.main.left size s.i ≤ 12 * size + 6 := by
  refine Run.inv_history (I := fun l s => l.count .main + s.main.left size s.i ≤ 12 * size + 6) ?_ h (Nat.zero_add _).le
  intro l s e t hr hle hst
  obtain ⟨rfl, hmain⟩ | ⟨rfl, hsig⟩ := step_cases hst
  · have hlt := mainStep_left hsize (run_loopInv hr) hmain
    rw [List.count_append, List.count_singleton_self]
    omega
  · rw [List.count_append, List.count_singleton, if_neg (by decide)]
    obtain ⟨-, rfl⟩ | ⟨-, -, -, rfl⟩ := sigint_cases hsig
    · exact (Nat.add_le_add_left (Nat.zero_le _) _).trans hle
    · exact hle

theorem exists_mainStep (hex : s.main ≠ .exited) (hkill : s.main ≠ .killed) : ∃ t, s.mainStep size = some t := by
  unfold State.mainStep
  cases hm : s.main with
  | exited => exact absurd hm hex
  | killed => exact absurd hm hkill
  | _ => exact ⟨_, rfl⟩

/-! ## Every run -/

theorem report_of_exited (h : Run (Takes (step size)) init l s) (hex : s.main = .exited) : Report size l s := by
  have hcaught := run_caught h
  have hkill : s.main ≠ .killed := by simp [hex]
  have hin := hcaught.inBounds (hcaught.exited hex)
  refine ⟨fun ha => ?_, hin, hcaught.stored.resolve_left hkill, ?_⟩
  · obtain ⟨out, hout⟩ := Option.isSome_iff_exists.1 (run_apart h ha)
    have hlines := (run_shows h).lines out hout
    rw [hex] at hlines
    exact ⟨out, hout, hlines, hcaught.out.resolve_left hkill out hout⟩
  · rintro l₁ u ⟨l₂, rfl⟩ hu hfirst k hk
    obtain ⟨v, hv, hs⟩ := run_append_iff.1 h
    obtain rfl := run_unique hv hu
    have htested : v.main.tested size v.i ≤ k := by
      rw [tested_of_inFirst hfirst]
      exact Nat.zero_le k
    refine (seen_of_stored hu hs hk htested).resolve_left ?_
    rw [hex]
    exact Nat.not_le_of_lt (hin k ((run_stored hs).subset hk))

/-- **Complete report.** Wherever SIGINT comes, `main` goes on as long as the stores are inside the array, and its steps
are bounded. When it returns, and no handler came inside a `printf`, it has printed all numbers and has reported the
indices that were set as they were tested. -/
theorem report_complete (hsize : size ≤ intMax) (h : Run (Takes (step size)) init l s) :
    (s.main = .exited → Report size l s) ∧ l.count .main ≤ 12 * size + 6 ∧
      (s.InBounds size → s.main ≠ .exited → s.main ≠ .killed → ∃ t, step size s .main = some t) := by
  refine ⟨report_of_exited h, ?_, fun hin hex hkill => ?_⟩
  · have hle := run_left hsize h
    omega
  · have hmain : ∃ t, s.mainStep size = some t := exists_mainStep hex hkill
    obtain ⟨t, ht⟩ := hmain
    have hundef : s.undef = false := by
      by_contra hu
      exact (run_caught h).undef hsize (Bool.eq_true_of_not_eq_false hu) hin
    refine ⟨t, ?_⟩
    unfold step
    rw [hundef, if_neg (by decide)]
    exact ht

/-- SIGINT before the first loop prints, in the second loop before the index is counted up, and before a test -/
theorem report_complete_three : ∃ l s out, Run (Takes (step 3)) init l s ∧ s.main = .exited ∧ s.stored = [0, 1, 2] ∧
    s.out = some out ∧
    out.filter (· ≠ .caught) = [.number 0, .number 1, .number 2, .interrupted 0, .interrupted 2] ∧
    Printed 3 l out ∧ l.count .main ≤ 12 * 3 + 6 := by
  let l : List Event := List.replicate 3 .main ++ [.sigint] ++ List.replicate 27 .main ++ [.sigint] ++
    List.replicate 2 .main ++ [.sigint] ++ List.replicate 8 .main
  let out : List Line := [.caught, .number 0, .number 1, .number 2, .interrupted 0, .caught, .caught, .interrupted 2]
  have h : Run (Takes (step 3)) init l ⟨.exited, 3, false, [0, 1, 2], some out, false⟩ := run_takes_iff.2 rfl
  have hapart : Along (Takes (step 3)) Apart init l := by decide +kernel
  obtain ⟨hreport, hsteps, -⟩ := report_complete (by decide) h
  obtain ⟨out', hout, hprinted⟩ := (hreport rfl).printed hapart
  obtain rfl := Option.some.inj hout
  exact ⟨l, _, out, h, rfl, rfl, rfl, rfl, hprinted, hsteps⟩

end Cse422.Print500000
