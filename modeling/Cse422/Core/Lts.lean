/-
Labelled transition systems and their finite runs. Library: nothing here is about one program.

A system is a relation `R s i t`: in state `s` the input `i` can take it to `t`. `Run R s l t` is a run over the
list of inputs `l`, and `Along R Q s l` says that every step taken on the way satisfies `Q`.

Rules:
- `Run.inv`: an invariant of every step holds at the end of every run;
- `Run.inv_history`: the same, with the inputs so far;
- `Run.sim`: when the steps of one system are steps of another, so are its runs;
- `Along.inv`: the same when only the steps that satisfy a side condition preserve it;
- `Along.mono`: under an invariant, a side condition of every step gives another one;
- `Along.exists_first`: a condition that is broken on the way is broken for a first time;
- `Run.length_le`: when every step lowers a measure, runs are not longer than the measure;
- `Along.of_not`: a run along which a condition is broken ends where breaking it leads;
- `run_foldlM_iff`, `run_takes_iff`: the runs of a step function in `Except` or `Option` are its monadic folds.
-/
import Mathlib.Tactic

namespace Lts

variable {σ ι ε : Type*} {R : σ → ι → σ → Prop}

/-- the inputs `l`, one step each, take `s` to `t` -/
inductive Run (R : σ → ι → σ → Prop) : σ → List ι → σ → Prop
  | nil (s : σ) : Run R s [] s
  | cons {s u t : σ} {i : ι} {l : List ι} : R s i u → Run R u l t → Run R s (i :: l) t

@[simp] theorem run_nil_iff {s t : σ} : Run R s [] t ↔ s = t := by
  constructor
  · intro h; cases h; rfl
  · rintro rfl; exact .nil s

@[simp] theorem run_cons_iff {s t : σ} {i : ι} {l : List ι} :
    Run R s (i :: l) t ↔ ∃ u, R s i u ∧ Run R u l t := by
  constructor
  · intro h; cases h with
    | cons h1 h2 => exact ⟨_, h1, h2⟩
  · intro ⟨u, h1, h2⟩; exact .cons h1 h2

theorem run_append_iff {s t : σ} {l₁ l₂ : List ι} :
    Run R s (l₁ ++ l₂) t ↔ ∃ u, Run R s l₁ u ∧ Run R u l₂ t := by
  induction l₁ generalizing s with
  | nil => simp
  | cons i l₁ ih =>
    simp only [List.cons_append, run_cons_iff, ih]
    constructor
    · intro ⟨u, h1, v, h2, h3⟩; exact ⟨v, ⟨u, h1, h2⟩, h3⟩
    · intro ⟨v, ⟨u, h1, h2⟩, h3⟩; exact ⟨u, h1, v, h2, h3⟩

/-- **Invariant rule.** What every step preserves holds at the end of every run. -/
theorem Run.inv {I : σ → Prop} (hstep : ∀ s i t, I s → R s i t → I t) {s t : σ} {l : List ι} (h : Run R s l t)
    (hs : I s) : I t := by
  induction h with
  | nil => exact hs
  | cons h1 _ ih => exact ih (hstep _ _ _ hs h1)

/-- **History rule.** The same for what is said of the state and of the inputs that have led to it. -/
theorem Run.inv_history {s₀ : σ} {I : List ι → σ → Prop}
    (hstep : ∀ l s i t, Run R s₀ l s → I l s → R s i t → I (l ++ [i]) t) {s : σ} {l : List ι} (h : Run R s₀ l s)
    (hs : I [] s₀) : I l s := by
  induction l using List.reverseRecOn generalizing s with
  | nil =>
    obtain rfl := run_nil_iff.1 h
    exact hs
  | append_singleton l i ih =>
    obtain ⟨u, hu, hi⟩ := run_append_iff.1 h
    obtain ⟨t, ht, hnil⟩ := run_cons_iff.1 hi
    obtain rfl := run_nil_iff.1 hnil
    exact hstep l u i t hu (ih hu) ht

/-- **Simulation rule.** When each step from related states is a step of another system to related states, so is each
run. -/
theorem Run.sim {τ : Type*} {R' : τ → ι → τ → Prop} {S : σ → τ → Prop}
    (hstep : ∀ s i t u, S s u → R s i t → ∃ v, R' u i v ∧ S t v) {s t : σ} {u : τ} {l : List ι} (h : Run R s l t)
    (hs : S s u) : ∃ v, Run R' u l v ∧ S t v := by
  induction h generalizing u with
  | nil => exact ⟨u, .nil u, hs⟩
  | cons h1 _ ih =>
    obtain ⟨v, hv, hsim⟩ := hstep _ _ _ u hs h1
    obtain ⟨w, hw, hend⟩ := ih hsim
    exact ⟨w, .cons hv hw, hend⟩

/-- **Measure rule.** When, under an invariant, every step lowers `μ`, a run takes at most `μ` steps. -/
theorem Run.length_le {I : σ → Prop} (μ : σ → ℕ) (hstep : ∀ s i t, I s → R s i t → I t)
    (hμ : ∀ s i t, I s → R s i t → μ t < μ s) {s t : σ} {l : List ι} (h : Run R s l t) (hs : I s) :
    l.length + μ t ≤ μ s := by
  induction h with
  | nil => simp
  | @cons s u t i l h1 _ ih =>
    have hlt := hμ s i u hs h1
    have hle := ih (hstep s i u hs h1)
    rw [List.length_cons]
    omega

/-- every step that a run over (a prefix of) `l` takes satisfies `Q` -/
def Along (R Q : σ → ι → σ → Prop) (s : σ) (l : List ι) : Prop :=
  ∀ l₁ i l₂ u v, l = l₁ ++ i :: l₂ → Run R s l₁ u → R u i v → Q u i v

theorem along_nil {Q : σ → ι → σ → Prop} (s : σ) : Along R Q s [] := by
  intro l₁ i l₂ u v h
  simp at h

theorem along_cons {Q : σ → ι → σ → Prop} {s : σ} {i : ι} {l : List ι} :
    Along R Q s (i :: l) ↔ ∀ t, R s i t → Q s i t ∧ Along R Q t l := by
  constructor
  · intro h t ht
    refine ⟨h [] i l s t rfl (.nil s) ht, fun l₁ j l₂ u v hl hr hj => ?_⟩
    exact h (i :: l₁) j l₂ u v (by rw [hl]; rfl) (.cons ht hr) hj
  · intro h l₁ j l₂ u v hl hr hj
    cases l₁ with
    | nil =>
      simp only [List.nil_append, List.cons.injEq] at hl
      obtain ⟨rfl, rfl⟩ := hl
      cases hr
      exact (h v hj).1
    | cons k l₁ =>
      simp only [List.cons_append, List.cons.injEq] at hl
      obtain ⟨rfl, rfl⟩ := hl
      obtain ⟨w, hw, hr⟩ := run_cons_iff.1 hr
      exact (h w hw).2 l₁ j l₂ u v rfl hr hj

theorem Along.append_left {Q : σ → ι → σ → Prop} {s : σ} {l₁ l₂ : List ι} (h : Along R Q s (l₁ ++ l₂)) :
    Along R Q s l₁ := fun k₁ i k₂ u v hl => h k₁ i (k₂ ++ l₂) u v (by rw [hl]; simp)

theorem Along.append_right {Q : σ → ι → σ → Prop} {s u : σ} {l₁ l₂ : List ι} (h : Along R Q s (l₁ ++ l₂))
    (hr : Run R s l₁ u) : Along R Q u l₂ :=
  fun k₁ i k₂ v w hl hv hi => h (l₁ ++ k₁) i k₂ v w (by rw [hl]; simp) (run_append_iff.2 ⟨u, hr, hv⟩) hi

/-- two runs, one after the other -/
theorem Along.append {Q : σ → ι → σ → Prop} {s : σ} {l₁ l₂ : List ι} (h₁ : Along R Q s l₁)
    (h₂ : ∀ u, Run R s l₁ u → Along R Q u l₂) : Along R Q s (l₁ ++ l₂) := by
  induction l₁ generalizing s with
  | nil => exact h₂ s (.nil s)
  | cons i l₁ ih =>
    refine along_cons.2 fun t ht => ⟨(along_cons.1 h₁ t ht).1, ?_⟩
    exact ih (along_cons.1 h₁ t ht).2 fun u hu => h₂ u (.cons ht hu)

/-- a condition that is broken is broken for a first time -/
theorem Along.exists_first {Q : σ → ι → σ → Prop} {s : σ} {l : List ι} (h : ¬ Along R Q s l) :
    ∃ l₁ i l₂ u v, l = l₁ ++ i :: l₂ ∧ Along R Q s l₁ ∧ Run R s l₁ u ∧ R u i v ∧ ¬ Q u i v := by
  induction l using List.reverseRecOn with
  | nil => exact absurd (along_nil s) h
  | append_singleton l i ih =>
    by_cases hl : Along R Q s l
    · -- the steps over `l` meet the condition, so it is the last one that does not
      by_contra hnone
      refine h (hl.append fun u hu => along_cons.2 fun v hv => ⟨?_, along_nil v⟩)
      by_contra hQ
      exact hnone ⟨l, i, [], u, v, rfl, hl, hu, hv, hQ⟩
    · obtain ⟨l₁, j, l₂, u, v, rfl, hfirst⟩ := ih hl
      exact ⟨l₁, j, l₂ ++ [i], u, v, by simp, hfirst⟩

/-- a condition on the inputs alone -/
theorem Along.of_forall {P : ι → Prop} {l : List ι} (h : ∀ i ∈ l, P i) (s : σ) : Along R (fun _ i _ => P i) s l := by
  intro l₁ i l₂ u v hl _ _
  exact h i (by simp [hl])

/-- **Conditional invariant rule.** What every step meeting `C` preserves holds at the end of every run whose steps
all meet `C`. -/
theorem Along.inv {I : σ → Prop} {C : σ → ι → σ → Prop} (hstep : ∀ s i t, I s → C s i t → R s i t → I t)
    {s t : σ} {l : List ι} (hC : Along R C s l) (h : Run R s l t) (hs : I s) : I t := by
  induction h with
  | nil => exact hs
  | cons h1 _ ih =>
    obtain ⟨hc, hC⟩ := along_cons.1 hC _ h1
    exact ih hC (hstep _ _ _ hs hc h1)

/-- **Step rule.** Under an invariant, a condition of every step of a run gives another. -/
theorem Along.mono {I : σ → Prop} {C Q : σ → ι → σ → Prop} (hinv : ∀ s i t, I s → C s i t → R s i t → I t)
    (hQ : ∀ s i t, I s → C s i t → R s i t → Q s i t) {s : σ} {l : List ι} (hC : Along R C s l) (hs : I s) :
    Along R Q s l := by
  intro l₁ i l₂ u v hl hr hi
  have hu : I u := Along.inv hinv (Along.append_left (hl ▸ hC)) hr hs
  exact hQ u i v hu (hC l₁ i l₂ u v hl hr hi) hi

/-- the steps a fallible step function completes -/
def Ok (f : σ → ι → Except ε σ) (s : σ) (i : ι) (t : σ) : Prop := f s i = .ok t

/-- the runs of a step function in `Except` are its monadic folds -/
theorem run_foldlM_iff {f : σ → ι → Except ε σ} {s t : σ} {l : List ι} :
    Run (Ok f) s l t ↔ l.foldlM f s = .ok t := by
  induction l generalizing s with
  | nil => simp [pure, Except.pure]
  | cons i l ih =>
    simp only [run_cons_iff, ih, Ok, List.foldlM_cons]
    cases f s i with
    | error e => simp [bind, Except.bind]
    | ok u => simp [bind, Except.bind]

/-- the steps a partial step function takes -/
def Takes (f : σ → ι → Option σ) (s : σ) (i : ι) (t : σ) : Prop := f s i = some t

theorem run_takes_iff {f : σ → ι → Option σ} {s t : σ} {l : List ι} : Run (Takes f) s l t ↔ l.foldlM f s = some t := by
  induction l generalizing s with
  | nil => simp
  | cons i l ih =>
    simp only [run_cons_iff, ih, Takes, List.foldlM_cons, Option.bind_eq_bind, Option.bind_eq_some_iff]

/-- **Break rule.** When every step that breaks `Q` leads to `L`, and no step leads out of `L`, a run that does not end in
`L` has not broken `Q`. -/
theorem Along.of_not {f : σ → ι → Option σ} {J L : σ → Prop} {Q : σ → ι → σ → Prop}
    (hJ : ∀ s i t, J s → Takes f s i t → J t) (hL : ∀ s i t, J s → L s → Takes f s i t → L t)
    (hQ : ∀ s i t, J s → Takes f s i t → ¬ Q s i t → L t) {s t : σ} {l : List ι} (h : Run (Takes f) s l t) (hs : J s)
    (ht : ¬ L t) : Along (Takes f) Q s l := by
  induction h with
  | nil s => exact along_nil s
  | @cons s u t i l h1 h ih =>
    have hu := hJ s i u hs h1
    refine along_cons.2 fun v hv => ?_
    obtain rfl : u = v := Option.some.inj (h1.symm.trans hv)
    refine ⟨?_, ih hu ht⟩
    by_contra hbroken
    have hlost := Run.inv (I := fun x => J x ∧ L x) (fun _ _ _ hx hst => ⟨hJ _ _ _ hx.1 hst, hL _ _ _ hx.1 hx.2 hst⟩) h
      ⟨hu, hQ s i u hs h1 hbroken⟩
    exact ht hlost.2

/-- a condition that can be checked on a step can be checked along the one run over `l` -/
def decidableAlong (f : σ → ι → Option σ) (Q : σ → ι → σ → Prop) [∀ s i t, Decidable (Q s i t)] :
    ∀ (s : σ) (l : List ι), Decidable (Along (Takes f) Q s l)
  | s, [] => isTrue (along_nil s)
  | s, i :: l =>
    have : DecidablePred fun t => Q s i t ∧ Along (Takes f) Q t l := fun t =>
      have := decidableAlong f Q t l
      inferInstance
    decidable_of_iff (∀ t ∈ f s i, Q s i t ∧ Along (Takes f) Q t l) (along_cons (R := Takes f) (Q := Q)).symm

instance {f : σ → ι → Option σ} {Q : σ → ι → σ → Prop} [∀ s i t, Decidable (Q s i t)] {s : σ} {l : List ι} :
    Decidable (Along (Takes f) Q s l) := decidableAlong f Q s l

end Lts
