/-
`labs/lab2/user/dense_mm.c` on the module of `labs/lab2/mod/paging.c`: the program and the module together, and between any
two events of the program whatever other processes do.

The program maps its three matrices and runs its loops over them. An access to a page that is not mapped faults, and the
module maps a page that holds whatever was in it. `main` is here from its first `mmap` on, for a size that it does not
refuse; what it prints is left out. The operands of the statement in the innermost loop are read in the order A, B, C.

- `Shows.extends`, `Shows.store`: the mapped part of the matrices is that of a computation in ordinary memory, on what the
  pages held when they were mapped;
- `accumulate_shows`: one turn of the innermost loop;
- `denseMmRun_product`: the program ends, and C is what the pages of C held with the product of A and B added to it.
-/
import Cse422.DenseMm.Allocation
import Cse422.Paging.Program

namespace Cse422.DenseMm

open Loops Paging Paging.Program

/-! ## The program -/

/-- one of three, by the matrix -/
def Name.pick {β : Type*} (a b c : β) (x : Name) : β := if x = .A then a else if x = .B then b else c

section Program

variable {α : Type} [Add α] [Mul α]

/-- `C[row*matrix_size + col] += A[row*matrix_size + index] *B[index*matrix_size + col];` -/
def accumulateAt (E : Env Name α) (matrixSize : ℕ) (A B C : Option VmArea) (row col index : ℕ) (s : Process α) :
    Except Stopped (Process α) :=
  (load E A (cell matrixSize row index) s).bind fun a => (load E B (cell matrixSize index col) a.2).bind fun b =>
    (load E C (cell matrixSize row col) b.2).bind fun c => store E C (cell matrixSize row col) (c.1 + a.1 * b.1) c.2

def multiply (E : Env Name α) (matrixSize : ℕ) (A B C : Option VmArea) (s : Process α) : Except Stopped (Process α) :=
  forLoopM matrixSize (fun s row => forLoopM matrixSize (fun s col => forLoopM matrixSize (fun s index =>
    accumulateAt E matrixSize A B C row col index s) s) s) s

/-- `main` from the first `mmap` on -/
def denseMmRun (E : Env Name α) (matrixSize : ℕ) (s : Process α) : Except Stopped (Process α) :=
  (mmapMalloc E .A (bytes matrixSize) s).bind fun A => (mmapMalloc E .B (bytes matrixSize) A.2).bind fun B =>
    (mmapMalloc E .C (bytes matrixSize) B.2).bind fun C => multiply E matrixSize A.1 B.1 C.1 C.2

end Program

/-! ## The matrices in memory -/

section Spec

variable {α : Type} {E : Env Name α} {n : ℕ} {V : Name → VmArea} {s t : Process α} {m₀ : Memory α}

/-- the ranges are large enough -/
def Sized (E : Env Name α) (n : ℕ) : Prop := ∀ x, bytes n ≤ (E.range x).stop - (E.range x).start

theorem within_of_lt (hsize : Sized E n) (hn : 8 * (n * n) < 2 ^ 32) (x : Name) {i : ℕ} (hi : i < n * n) : Within E x i := by
  have hx := hsize x
  have hlt := (E.range x).start_lt_stop
  rw [(bytes_eq hn).2] at hx
  unfold Within
  omega

/-- `F` is what the pages of a matrix held when they were mapped, as far as they are -/
def FoundIn (E : Env Name α) (n : ℕ) (m : Memory α) (x : Name) (F : ℕ → α) : Prop :=
  ∀ i < n * n, m.value E.mm (element (E.range x) i) ≠ none → F i = m.found E.mm (element (E.range x) i)

/-- the matrices in memory are those of a computation `g` in ordinary memory: A and B are as they were found, and C is what
`g` makes of them and of C as it was found; it has not changed where C is not mapped -/
structure Shows (E : Env Name α) (n : ℕ) (g : (ℕ → α) → (ℕ → α) → (ℕ → α) → ℕ → α) (m : Memory α) : Prop where
  operand : ∀ x, x ≠ .C → ∀ i < n * n, ∀ d, m.value E.mm (element (E.range x) i) = some d →
    d = m.found E.mm (element (E.range x) i)
  mapped : ∀ A B C, FoundIn E n m .A A → FoundIn E n m .B B → FoundIn E n m .C C → ∀ i < n * n, ∀ d,
    m.value E.mm (element (E.range .C) i) = some d → d = g A B C i
  unmapped : ∀ A B C, FoundIn E n m .A A → FoundIn E n m .B B → FoundIn E n m .C C → ∀ i < n * n,
    m.value E.mm (element (E.range .C) i) = none → g A B C i = C i

variable {m m' : Memory α} {g : (ℕ → α) → (ℕ → α) → (ℕ → α) → ℕ → α}

theorem FoundIn.of_extends {x : Name} {F : ℕ → α} (he : Extends E.mm m m') (h : FoundIn E n m' x F) : FoundIn E n m x F := by
  intro i hi hmapped
  obtain ⟨d, hd⟩ := Option.ne_none_iff_exists'.1 hmapped
  obtain ⟨-, hfound⟩ := he.kept _ d hd
  exact (h i hi (he.mapped hmapped)).trans hfound

/-- a page that is mapped later holds what the computation has found there -/
theorem Shows.extends (h : Shows E n g m) (he : Extends E.mm m m') : Shows E n g m' where
  operand x hx i hi d hd := by
    cases hold : m.value E.mm (element (E.range x) i) with
    | none => exact he.added _ d hold hd
    | some d' =>
      obtain ⟨hkept, hfound⟩ := he.kept _ d' hold
      obtain rfl : d = d' := Option.some.inj (hd.symm.trans hkept)
      exact (h.operand x hx i hi d hold).trans hfound.symm
  mapped A B C hA hB hC i hi d hd := by
    cases hold : m.value E.mm (element (E.range .C) i) with
    | none =>
      calc d = m'.found E.mm (element (E.range .C) i) := he.added _ d hold hd
        _ = C i := (hC i hi (by rw [hd]; exact Option.some_ne_none d)).symm
        _ = g A B C i := (h.unmapped A B C (hA.of_extends he) (hB.of_extends he) (hC.of_extends he) i hi hold).symm
    | some d' =>
      obtain rfl : d = d' := Option.some.inj (hd.symm.trans (he.kept _ d' hold).1)
      exact h.mapped A B C (hA.of_extends he) (hB.of_extends he) (hC.of_extends he) i hi d hold
  unmapped A B C hA hB hC i hi hnone := by
    refine h.unmapped A B C (hA.of_extends he) (hB.of_extends he) (hC.of_extends he) i hi ?_
    by_contra hmapped
    exact he.mapped hmapped hnone

/-- a store to C -/
theorem Shows.store {k : ℕ} {d : α} (h : Shows E n g m)
    (hmapped : m.value E.mm (element (E.range .C) k) ≠ none) (hfound : m'.found = m.found)
    (hvalue : ∀ y j, j < n * n → m'.value E.mm (element (E.range y) j) =
      if y = .C ∧ j = k then some d else m.value E.mm (element (E.range y) j))
    {f : (ℕ → α) → (ℕ → α) → (ℕ → α) → α}
    (hd : ∀ A B C, FoundIn E n m .A A → FoundIn E n m .B B → FoundIn E n m .C C → d = f A B C) :
    Shows E n (fun A B C => Function.update (g A B C) k (f A B C)) m' := by
  have hback : ∀ x F, FoundIn E n m' x F → FoundIn E n m x F := by
    intro x F hF i hi hm
    rw [hF i hi, hfound]
    rw [hvalue x i hi]
    split_ifs
    · exact Option.some_ne_none d
    · exact hm
  constructor
  · intro x hx i hi d' hd'
    rw [hvalue x i hi, if_neg fun hc => hx hc.1] at hd'
    rw [hfound]
    exact h.operand x hx i hi d' hd'
  · intro A B C hA hB hC i hi d' hd'
    rw [hvalue .C i hi] at hd'
    rcases eq_or_ne i k with rfl | hne
    · rw [if_pos ⟨rfl, rfl⟩] at hd'
      rw [Function.update_self, ← Option.some.inj hd']
      exact hd A B C (hback _ _ hA) (hback _ _ hB) (hback _ _ hC)
    · rw [if_neg fun hc => hne hc.2] at hd'
      rw [Function.update_of_ne hne]
      exact h.mapped A B C (hback _ _ hA) (hback _ _ hB) (hback _ _ hC) i hi d' hd'
  · intro A B C hA hB hC i hi hnone
    have hne : i ≠ k := by
      rintro rfl
      rw [hvalue .C i hi, if_pos ⟨rfl, rfl⟩] at hnone
      cases hnone
    rw [hvalue .C i hi, if_neg fun hc => hne hc.2] at hnone
    rw [Function.update_of_ne hne]
    exact h.unmapped A B C (hback _ _ hA) (hback _ _ hB) (hback _ _ hC) i hi hnone

/-- before the loops -/
theorem shows_found (hfound : ∀ x, ∀ i < n * n, ∀ d, m.value E.mm (element (E.range x) i) = some d →
    d = m.found E.mm (element (E.range x) i)) : Shows E n (fun _ _ C => C) m where
  operand x _ i hi d hd := hfound x i hi d hd
  mapped A B C _ _ hC i hi d hd := by
    rw [hC i hi (by rw [hd]; exact Option.some_ne_none d)]
    exact hfound .C i hi d hd
  unmapped _ _ _ _ _ _ _ _ _ := rfl

/-! ## The loops -/

/-- the three elements that a turn accesses are mapped -/
def Reached (E : Env Name α) (n : ℕ) (m : Memory α) (row col index : ℕ) : Prop :=
  m.value E.mm (element (E.range .A) (cell n row index)) ≠ none ∧
    m.value E.mm (element (E.range .B) (cell n index col)) ≠ none ∧
    m.value E.mm (element (E.range .C) (cell n row col)) ≠ none

/-- `s` after the turns `D`, which compute `g` -/
structure AfterTurns (E : Env Name α) (n : ℕ) (V : Name → VmArea) (D : ℕ → ℕ → ℕ → Prop)
    (g : (ℕ → α) → (ℕ → α) → (ℕ → α) → ℕ → α) (s : Process α) : Prop where
  ready : Ready E V s
  shows : Shows E n g s.memory
  reached : ∀ row < n, ∀ col < n, ∀ index < n, D row col index → Reached E n s.memory row col index

theorem AfterTurns.congr {D D' : ℕ → ℕ → ℕ → Prop} (h : AfterTurns E n V D g s)
    (hD : ∀ row < n, ∀ col < n, ∀ index < n, D' row col index → D row col index) : AfterTurns E n V D' g s where
  ready := h.ready
  shows := h.shows
  reached row hrow col hcol index hindex hi :=
    h.reached row hrow col hcol index hindex (hD row hrow col hcol index hindex hi)

variable [Add α] [Mul α]

section Loops

variable (hG : Granted E m₀) (hC : Considerate E) (hsize : Sized E n) (hn : 8 * (n * n) < 2 ^ 32)

include hG hC hsize hn

/-- **One turn.** -/
theorem accumulate_shows {D D' : ℕ → ℕ → ℕ → Prop} (h : AfterTurns E n V D g s) {row col index : ℕ} (hrow : row < n)
    (hcol : col < n) (hindex : index < n)
    (hD : ∀ r c k, D' r c k → D r c k ∨ (r = row ∧ c = col ∧ k = index)) :
    ∃ t, accumulateAt E n (some (V .A)) (some (V .B)) (some (V .C)) row col index s = .ok t ∧
      AfterTurns E n V D' (fun A B C => accumulate n A B (g A B C) row col index) t := by
  have hcell : ∀ {r c}, r < n → c < n → cell n r c < n * n := by
    intro r c hr hc
    rw [cell_eq (by omega) hr hc]
    exact cell_lt hr hc
  have hwithin : ∀ x {i}, i < n * n → Within E x i := fun x _ hi => within_of_lt hsize hn x hi
  obtain ⟨a, s₁, hs₁, h₁, he₁, ha⟩ := load_spec hG hC h.ready (hwithin .A (hcell hrow hindex))
  obtain ⟨b, s₂, hs₂, h₂, he₂, hb⟩ := load_spec hG hC h₁ (hwithin .B (hcell hindex hcol))
  obtain ⟨c, s₃, hs₃, h₃, he₃, hc⟩ := load_spec hG hC h₂ (hwithin .C (hcell hrow hcol))
  obtain ⟨s₄, t, ht, h₄, hready, he₄, hmapped, hfound, hvalue⟩ :=
    store_spec hG hC h₃ (hwithin .C (hcell hrow hcol)) (c + a * b)
  have ha₄ := (he₄.kept _ a (he₃.kept _ a (he₂.kept _ a ha).1).1).1
  have hb₄ := (he₄.kept _ b (he₃.kept _ b hb).1).1
  have hc₄ := (he₄.kept _ c hc).1
  have hshows : Shows E n g s₄.memory :=
    (((h.shows.extends he₁).extends he₂).extends he₃).extends he₄
  -- what is mapped stays mapped
  have hstays : ∀ y j, j < n * n → s₄.memory.value E.mm (element (E.range y) j) ≠ none →
      t.memory.value E.mm (element (E.range y) j) ≠ none := by
    intro y j hj hm
    rw [hvalue y j (hwithin y hj)]
    split_ifs
    · exact Option.some_ne_none _
    · exact hm
  have hmono : ∀ y j, j < n * n → s.memory.value E.mm (element (E.range y) j) ≠ none →
      t.memory.value E.mm (element (E.range y) j) ≠ none :=
    fun y j hj hm => hstays y j hj (he₄.mapped (he₃.mapped (he₂.mapped (he₁.mapped hm))))
  refine ⟨t, ?_, hready, ?_, ?_⟩
  · simp only [accumulateAt, hs₁, hs₂, hs₃, Except.bind]
    exact ht
  · refine hshows.store hmapped hfound (fun y j hj => hvalue y j (hwithin y hj)) ?_
    intro A B C hA hB hC
    have hA' : a = A (cell n row index) := by
      rw [hA _ (hcell hrow hindex) (by rw [ha₄]; exact Option.some_ne_none a)]
      exact hshows.operand .A (by decide) _ (hcell hrow hindex) a ha₄
    have hB' : b = B (cell n index col) := by
      rw [hB _ (hcell hindex hcol) (by rw [hb₄]; exact Option.some_ne_none b)]
      exact hshows.operand .B (by decide) _ (hcell hindex hcol) b hb₄
    rw [hshows.mapped A B C hA hB hC _ (hcell hrow hcol) c hc₄, hA', hB']
  · intro r hr k hk i hi hD'
    rcases hD r k i hD' with hold | ⟨rfl, rfl, rfl⟩
    · obtain ⟨hA, hB, hC⟩ := h.reached r hr k hk i hi hold
      exact ⟨hmono _ _ (hcell hr hi) hA, hmono _ _ (hcell hi hk) hB, hmono _ _ (hcell hr hk) hC⟩
    · refine ⟨?_, ?_, ?_⟩
      · exact hstays _ _ (hcell hrow hindex) (by rw [ha₄]; exact Option.some_ne_none a)
      · exact hstays _ _ (hcell hindex hcol) (by rw [hb₄]; exact Option.some_ne_none b)
      · exact hstays _ _ (hcell hrow hcol) hmapped

/-- the innermost loop in ordinary memory, up to `index` -/
def onCell (n row col index : ℕ) (A B C : ℕ → α) : ℕ → α :=
  forLoop index (fun C index => accumulate n A B C row col index) C

/-- the loop over the columns in ordinary memory, up to `col` -/
def onRow (n row col : ℕ) (A B C : ℕ → α) : ℕ → α := forLoop col (fun C col => onCell n row col n A B C) C

theorem onCell_shows {D D' : ℕ → ℕ → ℕ → Prop} (h : AfterTurns E n V D g s) {row col : ℕ} (hrow : row < n) (hcol : col < n)
    (hD : ∀ r < n, ∀ c < n, ∀ k < n, D' r c k → D r c k ∨ (r = row ∧ c = col)) :
    ∃ t, forLoopM n (fun s index => accumulateAt E n (some (V .A)) (some (V .B)) (some (V .C)) row col index s) s = .ok t ∧
      AfterTurns E n V D' (fun A B C => onCell n row col n A B (g A B C)) t := by
  have hloop : ∃ t, forLoopM n (fun s index =>
      accumulateAt E n (some (V .A)) (some (V .B)) (some (V .C)) row col index s) s = .ok t ∧
      AfterTurns E n V (fun r c k => D r c k ∨ (r = row ∧ c = col ∧ k < n))
        (fun A B C => onCell n row col n A B (g A B C)) t := by
    refine forLoopM_rule (I := fun index s => AfterTurns E n V (fun r c k => D r c k ∨ (r = row ∧ c = col ∧ k < index))
      (fun A B C => onCell n row col index A B (g A B C)) s) (h.congr ?_) ?_
    · intro r _ c _ k _ hD'
      exact hD'.resolve_right fun hk => absurd hk.2.2 (Nat.not_lt_zero k)
    · intro index s hindex hI
      simp only [onCell, forLoop_succ]
      refine accumulate_shows hG hC hsize hn hI hrow hcol hindex ?_
      intro r c k hD'
      rcases hD' with hD' | ⟨hr, hc, hk⟩
      · exact Or.inl (Or.inl hD')
      · rcases Nat.lt_succ_iff_lt_or_eq.1 hk with hk | hk
        · exact Or.inl (Or.inr ⟨hr, hc, hk⟩)
        · exact Or.inr ⟨hr, hc, hk⟩
  obtain ⟨t, ht, hafter⟩ := hloop
  refine ⟨t, ht, hafter.congr ?_⟩
  intro r hr c hc k hk hD'
  exact (hD r hr c hc k hk hD').imp_right fun hrc => ⟨hrc.1, hrc.2, hk⟩

theorem onRow_shows {row : ℕ} (hrow : row < n) (h : AfterTurns E n V (fun r _ _ => r < row) g s) :
    ∃ t, forLoopM n (fun s col => forLoopM n (fun s index =>
        accumulateAt E n (some (V .A)) (some (V .B)) (some (V .C)) row col index s) s) s = .ok t ∧
      AfterTurns E n V (fun r _ _ => r < row + 1) (fun A B C => onRow n row n A B (g A B C)) t := by
  have hloop : ∃ t, forLoopM n (fun s col => forLoopM n (fun s index =>
      accumulateAt E n (some (V .A)) (some (V .B)) (some (V .C)) row col index s) s) s = .ok t ∧
      AfterTurns E n V (fun r c _ => r < row ∨ (r = row ∧ c < n)) (fun A B C => onRow n row n A B (g A B C)) t := by
    refine forLoopM_rule (I := fun col s => AfterTurns E n V (fun r c _ => r < row ∨ (r = row ∧ c < col))
      (fun A B C => onRow n row col A B (g A B C)) s) (h.congr ?_) ?_
    · intro r _ c _ k _ hD
      omega
    · intro col s hcol hI
      simp only [onRow, forLoop_succ]
      refine onCell_shows hG hC hsize hn hI hrow hcol ?_
      intro r _ c _ k _ hD
      omega
  obtain ⟨t, ht, hafter⟩ := hloop
  refine ⟨t, ht, hafter.congr ?_⟩
  intro r _ c hc k _ hD
  omega

/-- **The loops.** -/
theorem multiply_shows (h : AfterTurns E n V (fun _ _ _ => False) (fun _ _ C => C) s) :
    ∃ t, multiply E n (some (V .A)) (some (V .B)) (some (V .C)) s = .ok t ∧
      AfterTurns E n V (fun r _ _ => r < n) (rowFirst n) t := by
  refine forLoopM_rule (I := fun row s => AfterTurns E n V (fun r _ _ => r < row)
    (fun A B C => forLoop row (fun C row => onRow n row n A B C) C) s) (h.congr ?_) ?_
  · intro r _ c _ k _ hr
    exact Nat.not_lt_zero r hr
  · intro row s hrow hI
    simp only [forLoop_succ]
    exact onRow_shows hG hC hsize hn hrow hI

end Loops

/-! ## Result -/

/-- **The product.** Whatever other processes do with the module meanwhile, in either mode and with any answers that
succeed, the program ends; A and B are then as their pages were found, and C is as its pages were found with the product of
A and B added to it. -/
theorem denseMmRun_product (E : Env Name α) (n : ℕ) (m : Memory α) (hpos : 0 < n) (hn : 8 * (n * n) < 2 ^ 32) (hs : Sound m)
    (hG : Granted E m) (hsize : Sized E n) (hC : Considerate E) :
    ∃ t, denseMmRun E n ⟨m, 0⟩ = .ok t ∧ ∀ i < n * n,
      t.memory.value E.mm (element (E.range .A) i) = some (t.memory.found E.mm (element (E.range .A) i)) ∧
      t.memory.value E.mm (element (E.range .B) i) = some (t.memory.found E.mm (element (E.range .B) i)) ∧
      t.memory.value E.mm (element (E.range .C) i) =
        some (timesOnto n (fun j => t.memory.found E.mm (element (E.range .A) j))
          (fun j => t.memory.found E.mm (element (E.range .B) j))
          (fun j => t.memory.found E.mm (element (E.range .C) j)) i) := by
  have hbytes : bytes n ≠ 0 := by
    rw [(bytes_eq hn).2]
    have hsq := Nat.mul_pos hpos hpos
    omega
  obtain ⟨a, s₁, hs₁, hsound₁, he₁, ha, hma, hra, hfree₁⟩ := mmapMalloc_spec (s := ⟨m, 0⟩) hG hC hs (hG.unused .A) hbytes
  obtain ⟨b, s₂, hs₂, hsound₂, he₂, hb, hmb, hrb, hfree₂⟩ :=
    mmapMalloc_spec hG hC hsound₁ (hfree₁ .B (by decide) (hG.unused .B)) hbytes
  obtain ⟨c, s₃, hs₃, hsound₃, he₃, hc, hmc, hrc, -⟩ :=
    mmapMalloc_spec hG hC hsound₂ (hfree₂ .C (by decide) (hfree₁ .C (by decide) (hG.unused .C))) hbytes
  have hext : Extends E.mm m s₃.memory := (he₁.trans he₂).trans he₃
  let V : Name → VmArea := Name.pick a b c
  have hready : Ready E V s₃ := by
    refine ⟨hsound₃, ?_, ?_, ?_⟩
    · rintro (_ | _ | _)
      · exact he₃.vmas a (he₂.vmas a ha hma) hma
      · exact he₃.vmas b hb hmb
      · exact hc
    · rintro (_ | _ | _)
      · exact hma
      · exact hmb
      · exact hmc
    · rintro (_ | _ | _)
      · exact hra
      · exact hrb
      · exact hrc
  have hfound : ∀ x, ∀ i < n * n, ∀ d, s₃.memory.value E.mm (element (E.range x) i) = some d →
      d = s₃.memory.found E.mm (element (E.range x) i) :=
    fun x i hi d hd => hext.added _ d (unmapped_element hG hs (within_of_lt hsize hn x hi)) hd
  obtain ⟨t, ht, hafter⟩ := multiply_shows hG hC hsize hn ⟨hready, shows_found hfound, fun _ _ _ _ _ _ hD => hD.elim⟩
  refine ⟨t, ?_, ?_⟩
  · simp only [denseMmRun, hs₁, hs₂, hs₃, Except.bind]
    exact ht
  · intro i hi
    have hcol : i % n < n := Nat.mod_lt i hpos
    have hrow : i / n < n := (Nat.div_lt_iff_lt_mul hpos).2 hi
    have hcell : cell n (i / n) (i % n) = i := by rw [cell_eq (by omega) hrow hcol, Nat.div_add_mod']
    obtain ⟨hA, -, hC'⟩ := hafter.reached _ hrow (i % n) hcol (i % n) hcol hrow
    obtain ⟨-, hB, -⟩ := hafter.reached (i / n) hrow (i % n) hcol (i / n) hrow hrow
    rw [hcell] at hA hB hC'
    obtain ⟨d, hd⟩ := Option.ne_none_iff_exists'.1 hA
    obtain ⟨d', hd'⟩ := Option.ne_none_iff_exists'.1 hB
    obtain ⟨d'', hd''⟩ := Option.ne_none_iff_exists'.1 hC'
    refine ⟨?_, ?_, ?_⟩
    · rw [hd, hafter.shows.operand .A (by decide) i hi d hd]
    · rw [hd', hafter.shows.operand .B (by decide) i hi d' hd']
    · rw [hd'', hafter.shows.mapped _ _ _ (fun _ _ _ => rfl) (fun _ _ _ => rfl) (fun _ _ _ => rfl) i hi d'' hd'',
        timesOnto_rowFirst (by omega)]

end Spec

/-! ## A run -/

/-- a page for each matrix -/
def pages : Name → VmRange := Name.pick firstPage secondPage thirdPage

theorem pages_disjoint (x y : Name) (hxy : x ≠ y) :
    (pages x).stop ≤ (pages y).start ∨ (pages y).stop ≤ (pages x).start := by
  cases x <;> cases y <;> first | exact absurd rfl hxy | decide

/-- the doubles in the pages that are handed out -/
def leftThere (clock page place : ℕ) : ℕ := clock + page + place

theorem sized_pages : Sized (sharing pages leftThere) 2 := by
  intro x
  cases x <;> decide

/-- matrices of two rows: the second element of the first row of C, and A as it was -/
theorem denseMmRun_product_two :
    ∃ t, denseMmRun (sharing pages leftThere) 2 ⟨⟨init 1, fun _ _ => 0, fun _ _ => 0⟩, 0⟩ = .ok t ∧
    t.memory.value 0 4104 = some (t.memory.found 0 4104) ∧
    t.memory.value 0 12296 = some (t.memory.found 0 12296 + t.memory.found 0 4096 * t.memory.found 0 8200 +
      t.memory.found 0 4104 * t.memory.found 0 8216) := by
  obtain ⟨t, ht, hvalue⟩ := denseMmRun_product (sharing pages leftThere) 2 ⟨init 1, fun _ _ => 0, fun _ _ => 0⟩ (by decide)
    (by decide) ⟨inv_init 1, coherent_init 1⟩ (granted_sharing leftThere 1 _ _ pages_disjoint) sized_pages
    (considerate_sharing pages leftThere)
  obtain ⟨hA, -, hC⟩ := hvalue 1 (by decide)
  exact ⟨t, ht, hA, hC⟩

end Cse422.DenseMm
