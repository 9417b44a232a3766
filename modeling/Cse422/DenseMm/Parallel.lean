/-
The parallel loop of `parallel_dense_mm.c`. The columns are iterations of an OpenMP loop, each processed in order by one
thread, and the steps of different columns come in any order. A column has its own elements of `C`, so no schedule can
change the order in which the products are added onto one element.

Premises about OpenMP: each column is given to one thread, `row` and `index` are private to it, and the loop is left when
all columns are done. A step reads and writes one element.

- `step_inv`: what each thread has added so far, whatever the others do;
- `parallel_agrees`: every schedule ends, with the `C` of the serial loops of `dense_mm.c`, and what that is.
-/
import Cse422.Core.Interleave
import Cse422.Core.Nest
import Cse422.DenseMm.Programs

namespace Cse422.DenseMm

open Lts Loops Nest

variable {α : Type*}

/-! ## The threads -/

/-- before the parallel loop -/
def parallel (matrixSize : ℕ) (C : ℕ → α) : Pool (ℕ → α) Place := ⟨C, (List.range matrixSize).map fun col => .middle col 0⟩

theorem parallel_place {n : ℕ} {C : ℕ → α} {col : ℕ} {r : Place} (h : (parallel n C).locals[col]? = some r) :
    col < n ∧ r = .middle col 0 := by
  rw [parallel, List.getElem?_map] at h
  obtain ⟨c, hc, rfl⟩ := Option.map_eq_some_iff.1 h
  obtain ⟨hlt, rfl⟩ := List.getElem?_eq_some_iff.1 hc
  rw [List.length_range] at hlt
  rw [List.getElem_range]
  exact ⟨hlt, rfl⟩

variable [Add α] [Mul α]

/-- one step of the iteration of a column: a test of the loop over the rows, or a turn of the innermost loop -/
def columnStep (matrixSize : ℕ) (A B C : ℕ → α) (p : Place) (_ : Unit) : Option ((ℕ → α) × Place) :=
  match p with
  -- the next column belongs to another iteration
  | .outer _ => none
  | p =>
    match p.step matrixSize matrixSize matrixSize with
    | .over => none
    | .move q => some (C, q)
    | .visit col row index q => some (accumulate matrixSize A B C row col index, q)

/-! ## What has been added -/

/-- how many products have been added onto the element in this row -/
def added (n : ℕ) : Place → ℕ → ℕ
  | .outer _, _ => n
  | .middle _ r, row => if row < r then n else 0
  | .inner _ r k, row => if row < r then n else if row = r then k else 0

/-- a place in the iteration of a column -/
def InColumn (n col : ℕ) : Place → Prop
  | .outer c => c = col + 1
  | .middle c _ => c = col
  | .inner c r k => c = col ∧ r < n ∧ k ≤ n

/-- one more product in the row of the innermost loop -/
theorem added_turn (n c r k row : ℕ) :
    added n (.inner c r (k + 1)) row = if row = r then k + 1 else added n (.inner c r k) row := by
  rcases lt_trichotomy row r with hlt | rfl | hgt
  · simp only [added, if_pos hlt, if_neg hlt.ne]
  · simp only [added, lt_irrefl, if_false, if_true]
  · simp only [added, if_neg hgt.not_gt, if_neg hgt.ne']

/-- the end of the innermost loop -/
theorem added_row_end (n c r row : ℕ) : added n (.middle c (r + 1)) row = added n (.inner c r n) row := by
  rcases lt_trichotomy row r with hlt | rfl | hgt
  · simp only [added, if_pos hlt, if_pos (hlt.trans (Nat.lt_succ_self r))]
  · simp only [added, if_pos (Nat.lt_succ_self row), lt_irrefl, if_false, if_true]
  · simp only [added, if_neg hgt.not_gt, if_neg hgt.ne', if_neg (Nat.succ_le_of_lt hgt).not_gt]

/-- a step of the iteration of a column, if there is one -/
theorem columnStep_cases {n col : ℕ} {A B C C' : ℕ → α} {p q : Place} (hp : InColumn n col p)
    (h : columnStep n A B C p () = some (C', q)) : InColumn n col q ∧ q.rest n n n < p.rest n n n ∧
      ((C' = C ∧ ∀ row < n, added n q row = added n p row) ∨
        ∃ row index, row < n ∧ index < n ∧ added n p row = index ∧ C' = accumulate n A B C row col index ∧
          ∀ r, added n q r = if r = row then index + 1 else added n p r) := by
  cases p with
  | outer c => cases h
  | middle c r =>
    by_cases hr : r < n
    · have hstep : (Place.middle c r).step n n n = .move (.inner c r 0) := if_pos hr
      simp only [columnStep, hstep, Option.some.injEq, Prod.mk.injEq] at h
      obtain ⟨rfl, rfl⟩ := h
      refine ⟨⟨hp, hr, Nat.zero_le n⟩, rest_move hstep, Or.inl ⟨rfl, ?_⟩⟩
      intro row _
      simp only [added, ite_self]
    · have hstep : (Place.middle c r).step n n n = .move (.outer (c + 1)) := if_neg hr
      simp only [columnStep, hstep, Option.some.injEq, Prod.mk.injEq] at h
      obtain ⟨rfl, rfl⟩ := h
      refine ⟨congrArg (· + 1) hp, rest_move hstep, Or.inl ⟨rfl, ?_⟩⟩
      intro row hrow
      rw [added, added, if_pos (hrow.trans_le (not_lt.1 hr))]
  | inner c r k =>
    obtain ⟨rfl, hr, hk⟩ := hp
    by_cases hkn : k < n
    · have hstep : (Place.inner c r k).step n n n = .visit c r k (.inner c r (k + 1)) := if_pos hkn
      simp only [columnStep, hstep, Option.some.injEq, Prod.mk.injEq] at h
      obtain ⟨rfl, rfl⟩ := h
      refine ⟨⟨rfl, hr, hkn⟩, rest_visit hstep, Or.inr ⟨r, k, hr, hkn, ?_, rfl, added_turn n c r k⟩⟩
      simp only [added, lt_irrefl, if_false, if_true]
    · have hstep : (Place.inner c r k).step n n n = .move (.middle c (r + 1)) := if_neg hkn
      simp only [columnStep, hstep, Option.some.injEq, Prod.mk.injEq] at h
      obtain ⟨rfl, rfl⟩ := h
      obtain rfl : k = n := le_antisymm hk (not_lt.1 hkn)
      exact ⟨rfl, rest_move hstep, Or.inl ⟨rfl, fun row _ => added_row_end k c r row⟩⟩

/-- a thread that has no step is at the end of its column -/
theorem exists_columnStep {n : ℕ} (A B C : ℕ → α) {p : Place} (hp : ∀ c, p ≠ .outer c) :
    ∃ C' q, columnStep n A B C p () = some (C', q) := by
  cases p with
  | outer c => exact absurd rfl (hp c)
  | middle c r =>
    simp only [columnStep, Place.step]
    split_ifs
    · exact ⟨C, _, rfl⟩
    · exact ⟨C, _, rfl⟩
  | inner c r k =>
    simp only [columnStep, Place.step]
    split_ifs
    · exact ⟨_, _, rfl⟩
    · exact ⟨C, _, rfl⟩

/-! ## Schedules -/

/-- each thread has added its products in order, onto what was in `C₀`, and nothing else has changed -/
structure Inv (n : ℕ) (A B C₀ : ℕ → α) (p : Pool (ℕ → α) Place) : Prop where
  length : p.locals.length = n
  place : ∀ col q, p.locals[col]? = some q → InColumn n col q
  cells : ∀ col q, p.locals[col]? = some q → ∀ row < n, p.shared (row * n + col) =
    dotFrom n A B row col (C₀ (row * n + col)) (added n q row)
  rest : ∀ i, n * n ≤ i → p.shared i = C₀ i

section Inv

variable {n : ℕ} {A B C₀ : ℕ → α} {p q : Pool (ℕ → α) Place} {i : ℕ × Unit}

theorem parallel_inv (n : ℕ) (A B C : ℕ → α) : Inv n A B C (parallel n C) where
  length := by rw [parallel, List.length_map, List.length_range]
  place col r h := (parallel_place h).2 ▸ rfl
  cells col r h row hrow := by
    rw [(parallel_place h).2, added, if_neg (Nat.not_lt_zero row), dotFrom_zero]
    rfl
  rest _ _ := rfl

theorem step_inv (hn : n * n < 2 ^ 32) (h : Inv n A B C₀ p) (hst : Steps (columnStep n A B) p i q) :
    Inv n A B C₀ q := by
  obtain ⟨r, C, r', hr, hstep, rfl⟩ := steps_iff.1 hst
  have hcol : i.1 < n := h.length ▸ (List.getElem?_eq_some_iff.1 hr).1
  obtain ⟨hin, -, hmove⟩ := columnStep_cases (h.place i.1 r hr) hstep
  refine ⟨List.length_set.trans h.length, ?_, ?_, ?_⟩
  · intro col q hq
    rcases getElem?_set_cases hq with ⟨rfl, rfl⟩ | ⟨-, hq⟩
    · exact hin
    · exact h.place col q hq
  · intro col q hq row hrow
    rcases getElem?_set_cases hq with ⟨rfl, rfl⟩ | ⟨hne, hother⟩
    · rcases hmove with ⟨rfl, hsame⟩ | ⟨row', index, hrow', hindex, hadded, rfl, hturn⟩
      · rw [hsame row hrow]
        exact h.cells _ r hr row hrow
      · change accumulate n A B p.shared row' i.1 index (row * n + i.1) = _
        rw [accumulate_apply hn hrow' hcol hindex, row_cell row hcol, col_cell row hcol, hturn row, h.cells _ r hr row hrow]
        by_cases hrr : row = row'
        · subst hrr
          rw [if_pos ⟨rfl, rfl⟩, if_pos rfl, hadded, dotFrom_succ]
        · rw [if_neg fun hc => hrr hc.1, if_neg hrr]
    · have hcol' : col < n := h.length ▸ (List.getElem?_eq_some_iff.1 hother).1
      have hcells := h.cells col q hother row hrow
      rcases hmove with ⟨rfl, -⟩ | ⟨row', index, hrow', hindex, -, rfl, -⟩
      · exact hcells
      · change accumulate n A B p.shared row' i.1 index (row * n + col) = _
        rw [accumulate_apply hn hrow' hcol hindex, row_cell row hcol', col_cell row hcol', if_neg fun hc => hne hc.2]
        exact hcells
  · intro j hj
    rcases hmove with ⟨rfl, -⟩ | ⟨row', index, hrow', hindex, -, rfl, -⟩
    · exact h.rest j hj
    · have hcell : ¬ (j / n = row' ∧ j % n = i.1) := by
        intro hc
        have hlt := cell_lt hrow' hcol
        rw [← (eq_cell_iff hcol).2 hc] at hlt
        omega
      change accumulate n A B p.shared row' i.1 index j = _
      rw [accumulate_apply hn hrow' hcol hindex, if_neg hcell]
      exact h.rest j hj

/-- the steps that are left to all threads -/
def left (n : ℕ) (p : Pool (ℕ → α) Place) : ℕ := (p.locals.map fun q => q.rest n n n).sum

theorem step_left (h : Inv n A B C₀ p) (hst : Steps (columnStep n A B) p i q) : left n q < left n p := by
  obtain ⟨r, C, r', hr, hstep, rfl⟩ := steps_iff.1 hst
  obtain ⟨-, hlt, -⟩ := columnStep_cases (h.place i.1 r hr) hstep
  have hsum := sum_map_set (b := r') (fun q : Place => q.rest n n n) hr
  change ((p.locals.set i.1 r').map fun q => q.rest n n n).sum < (p.locals.map fun q => q.rest n n n).sum
  omega

/-- when no thread has a step, all products have been added -/
theorem Inv.over (hn : n * n < 2 ^ 32) (h : Inv n A B C₀ p) (hover : ∀ i q, ¬ Steps (columnStep n A B) p i q) :
    p.shared = timesOnto n A B C₀ := by
  have hdone : ∀ (col : ℕ) (r : Place), p.locals[col]? = some r → ∃ c, r = Place.outer c := by
    intro col r hr
    by_contra hnot
    obtain ⟨C, r', hstep⟩ := exists_columnStep A B p.shared fun c hc => hnot ⟨c, hc⟩
    exact hover (col, ()) _ (steps_iff.2 ⟨r, C, r', hr, hstep, rfl⟩)
  funext i
  unfold timesOnto
  split_ifs with hi
  · have hpos : 0 < n := by
      rcases Nat.eq_zero_or_pos n with rfl | hpos
      · omega
      · exact hpos
    have hcol : i % n < p.locals.length := h.length.symm ▸ Nat.mod_lt i hpos
    have hr := List.getElem?_eq_getElem hcol
    obtain ⟨c, hc⟩ := hdone _ _ hr
    have hcell := h.cells _ _ hr (i / n) ((Nat.div_lt_iff_lt_mul hpos).2 hi)
    rw [hc, added, Nat.div_add_mod'] at hcell
    exact hcell
  · exact h.rest i (not_lt.1 hi)

end Inv

/-! ## Result -/

/-- **Parallel and serial agree.** Every schedule of the columns ends, and then `C` is what the serial loops leave: each
element is the sum of the products in the order of the index, onto zero. -/
theorem parallel_agrees [Zero α] (n : ℕ) (A B C : ℕ → α) (hn : n * n < 2 ^ 32) :
    (∃ bound, ∀ l p, Run (Steps (columnStep n A B)) (parallel n (cleared n C)) l p → l.length ≤ bound ∧
      ((∀ i q, ¬ Steps (columnStep n A B) p i q) → p.shared = rowFirst n A B (cleared n C))) ∧
    ∀ row < n, ∀ col < n, rowFirst n A B (cleared n C) (row * n + col) =
      (List.range n).foldl (fun c index => c + A (row * n + index) * B (index * n + col)) 0 := by
  have hserial := timesOnto_rowFirst hn A B (cleared n C)
  refine ⟨⟨left n (parallel n (cleared n C)), fun l p hr => ⟨?_, ?_⟩⟩, ?_⟩
  · have hlen := Run.length_le (I := Inv n A B (cleared n C)) (left n) (fun _ _ _ h hst => step_inv hn h hst)
      (fun _ _ _ h hst => step_left h hst) hr (parallel_inv n A B _)
    omega
  · intro hover
    have hinv := Run.inv (I := Inv n A B (cleared n C)) (fun _ _ _ h hst => step_inv hn h hst) hr (parallel_inv n A B _)
    rw [hserial]
    exact hinv.over hn hover
  · intro row hrow col hcol
    have hlt := cell_lt hrow hcol
    rw [hserial, timesOnto, if_pos hlt, row_cell row hcol, col_cell row hcol, cleared_apply hn, if_pos hlt]
    rfl

/-- two columns, whose steps alternate -/
theorem parallel_agrees_two : ∃ p : Pool (ℕ → ℕ) Place,
    Run (Steps (columnStep 2 (fun i => i + 1) fun i => 2 * i)) (parallel 2 (cleared 2 fun _ => 7))
      (List.replicate 9 [(1, ()), (0, ())]).flatten p ∧
    p.shared = rowFirst 2 (fun i => i + 1) (fun i => 2 * i) (cleared 2 fun _ => 7) ∧ p.shared 3 = 30 := by
  have hobs : ((List.replicate 9 [(1, ()), (0, ())]).flatten.foldlM
      (poolStep (columnStep 2 (fun i => i + 1) fun i => 2 * i)) (parallel 2 (cleared 2 fun _ => 7))).map
      (fun p => (p.locals, p.shared 3)) = some ([.outer 1, .outer 2], 30) := by decide +kernel
  obtain ⟨p, hp, heq⟩ := Option.map_eq_some_iff.1 hobs
  obtain ⟨hlocals, hvalue⟩ := Prod.mk.inj heq
  have hr := run_pool_iff.2 hp
  obtain ⟨bound, hall⟩ := (parallel_agrees 2 (fun i => i + 1) (fun i => 2 * i) (fun _ => 7) (by norm_num)).1
  refine ⟨p, hr, (hall _ p hr).2 ?_, hvalue⟩
  intro i q hst
  obtain ⟨a, C, b, ha, hstep, -⟩ := steps_iff.1 hst
  have hmem := List.mem_of_getElem? ha
  simp only [hlocals, List.mem_cons, List.not_mem_nil, or_false] at hmem
  rcases hmem with rfl | rfl
  · cases hstep
  · cases hstep

end Cse422.DenseMm
