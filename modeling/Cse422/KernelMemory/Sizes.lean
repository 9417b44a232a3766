/-
How much `thread_fn` asks for: the three values it computes from the module's parameter, on a page of any size.

- `pages_cover`: in every run in which nobody writes the parameter, no statement of the computation overflows or divides
  by zero, and from the call of `alloc_pages` on the pages are as many as the structs need, the order is the smallest
  that has room for them, and the structs that the loops go through lie side by side in the block.

`Sizing` says at each place of the thread what has been computed, and that nothing has been asked for before.
-/
import Cse422.KernelMemory.Ownership

namespace Cse422.KernelMemory

open Lts Kthread Words

variable {B : Board}

/-! ## The property -/

/-- the block has room for the structs, is not larger than it must be, and a struct in a page does not touch another -/
structure Covers (B : Board) (nrStructs nrPages perPage order : ℕ) : Prop where
  enough : nrStructs ≤ nrPages * perPage
  tight : nrPages * perPage < nrStructs + perPage
  room : nrPages ≤ 2 ^ order
  smallest : ∀ k, nrPages ≤ 2 ^ k → order ≤ k
  below : ∀ i < nrPages, ∀ j < perPage, i * B.pageSize + (j + 1) * structSize ≤ 2 ^ order * B.pageSize
  disjoint : ∀ i < nrPages, ∀ j < perPage, ∀ i' < nrPages, ∀ j' < perPage, i ≠ i' ∨ j ≠ j' →
    i * B.pageSize + (j + 1) * structSize ≤ i' * B.pageSize + j' * structSize ∨
      i' * B.pageSize + (j' + 1) * structSize ≤ i * B.pageSize + j * structSize

/-- the next statement of `thread_fn` computes in its types what it would compute in the integers; the conversions of an
`unsigned int` to `int` and back do nothing -/
def Exact (s : St B) : ThreadPc → Prop
  | .perPage => structSize ≠ 0 ∧ B.pageSize / structSize < 2 ^ 31
  | .divide => s.nrStructsPerPage ≠ 0
  | .remainder => s.nrStructsPerPage ≠ 0 ∧ (s.nrStructs % s.nrStructsPerPage ≠ 0 → s.nrPages.toNat + 1 < 2 ^ 32)
  | .order => shiftLoop 32 s.nrPages 0 ≠ none ∧ myGetOrder s.nrPages ≤ 32
  | .alloc | .phys | .loops _ _ | .test | .sched => True

/-- a call of `alloc_pages` is due or has been made -/
def Asks (s : St B) : Prop := place? s = some (.fn .alloc) ∨ ∃ b, .alloc b ∈ s.log

/-! ## Arithmetic -/

section Slots

variable {perPage i j i' j' : ℕ}

/-- structs in different slots do not overlap -/
theorem slots_apart (hper : perPage * structSize ≤ B.pageSize) (hj : j < perPage)
    (h : i < i' ∨ (i = i' ∧ j < j')) :
    i * B.pageSize + (j + 1) * structSize ≤ i' * B.pageSize + j' * structSize := by
  rcases h with h | ⟨rfl, h⟩
  · calc i * B.pageSize + (j + 1) * structSize
        ≤ i * B.pageSize + B.pageSize := Nat.add_le_add_left ((Nat.mul_le_mul_right _ hj).trans hper) _
      _ = (i + 1) * B.pageSize := by rw [Nat.add_mul, Nat.one_mul]
      _ ≤ i' * B.pageSize := Nat.mul_le_mul_right _ h
      _ ≤ i' * B.pageSize + j' * structSize := Nat.le_add_right _ _
  · exact Nat.add_le_add_left (Nat.mul_le_mul_right _ h) _

theorem slots_disjoint (hper : perPage * structSize ≤ B.pageSize) (hj : j < perPage) (hj' : j' < perPage)
    (h : i ≠ i' ∨ j ≠ j') :
    i * B.pageSize + (j + 1) * structSize ≤ i' * B.pageSize + j' * structSize ∨
      i' * B.pageSize + (j' + 1) * structSize ≤ i * B.pageSize + j * structSize := by
  have hlex : (i < i' ∨ (i = i' ∧ j < j')) ∨ (i' < i ∨ (i' = i ∧ j' < j)) := by omega
  rcases hlex with hlex | hlex
  · exact Or.inl (slots_apart hper hj hlex)
  · exact Or.inr (slots_apart hper hj' hlex)

end Slots

/-- `PAGE_SIZE/STRUCT_SIZE` -/
def perPageWord (B : Board) : Word := BitVec.ofNat 32 (B.pageSize / structSize)

theorem perPageWord_toNat (B : Board) : (perPageWord B).toNat = B.pageSize / structSize := by
  have hsize := B.holdsStruct.2
  rw [perPageWord, BitVec.toNat_ofNat]
  apply Nat.mod_eq_of_lt
  exact lt_of_le_of_lt (Nat.div_le_self _ _) hsize

theorem perPage_pos (B : Board) : 0 < B.pageSize / structSize := Nat.div_pos B.holdsStruct.1 (by decide)

theorem perPageWord_ne_zero (B : Board) : perPageWord B ≠ 0 := by
  intro h
  have hpos := perPage_pos B
  rw [← perPageWord_toNat, h] at hpos
  exact absurd hpos (lt_irrefl 0)

/-- a remainder leaves room for one more page in an `unsigned int` -/
theorem div_succ_lt {n per : Word} (hper : per ≠ 0) (h : n % per ≠ 0) : (n / per).toNat + 1 < 2 ^ 32 := by
  have hlt := n.isLt
  have hzero : per.toNat ≠ 0 := fun hz => hper (BitVec.eq_of_toNat_eq hz)
  have hone : per.toNat ≠ 1 := by
    intro h1
    apply h
    apply BitVec.eq_of_toNat_eq
    rw [BitVec.toNat_umod, h1, Nat.mod_one]
    rfl
  have hdiv : n.toNat / per.toNat ≤ n.toNat / 2 := Nat.div_le_div_left (by omega) (by omega)
  rw [BitVec.toNat_udiv]
  omega

/-- `nr_pages` as the two statements of `thread_fn` leave it -/
def pagesWord (n per : Word) : Word := if n % per ≠ 0 then n / per + 1 else n / per

/-- the number of pages is the quotient rounded up -/
theorem pagesWord_bounds {n per : Word} (hper : per ≠ 0) :
    n.toNat ≤ (pagesWord n per).toNat * per.toNat ∧
      (pagesWord n per).toNat * per.toNat < n.toNat + per.toNat := by
  have hpos : 0 < per.toNat := Nat.pos_of_ne_zero fun hz => hper (BitVec.eq_of_toNat_eq hz)
  have hdiv := Nat.div_add_mod' n.toNat per.toNat
  have hmod := Nat.mod_lt n.toNat hpos
  unfold pagesWord
  split_ifs with h
  · have hsucc : (n / per + 1).toNat = n.toNat / per.toNat + 1 := by
      have hlt := div_succ_lt hper h
      rw [BitVec.toNat_udiv] at hlt
      rw [BitVec.toNat_add, BitVec.toNat_udiv]
      exact Nat.mod_eq_of_lt hlt
    have hne : n.toNat % per.toNat ≠ 0 := fun hz => h (BitVec.eq_of_toNat_eq (by rw [BitVec.toNat_umod, hz]; rfl))
    rw [hsucc, Nat.add_mul, Nat.one_mul]
    omega
  · have hzero : n.toNat % per.toNat = 0 := by
      have h0 := congrArg BitVec.toNat (not_not.1 h)
      rwa [BitVec.toNat_umod] at h0
    rw [BitVec.toNat_udiv]
    omega

theorem covers_pagesWord (B : Board) (n : Word) :
    Covers B n.toNat (pagesWord n (perPageWord B)).toNat (perPageWord B).toNat
      (myGetOrder (pagesWord n (perPageWord B))) := by
  have hper : (perPageWord B).toNat * structSize ≤ B.pageSize := by
    rw [perPageWord_toNat]
    exact Nat.div_mul_le_self _ _
  obtain ⟨henough, htight⟩ := pagesWord_bounds (n := n) (perPageWord_ne_zero B)
  have hroom := le_two_pow_myGetOrder (pagesWord n (perPageWord B))
  refine ⟨henough, htight, hroom, fun k hk => myGetOrder_le hk, ?_, ?_⟩
  · intro i hi j hj
    calc i * B.pageSize + (j + 1) * structSize
        ≤ (pagesWord n (perPageWord B)).toNat * B.pageSize + 0 * structSize := slots_apart hper hj (Or.inl hi)
      _ = (pagesWord n (perPageWord B)).toNat * B.pageSize := by rw [Nat.zero_mul, Nat.add_zero]
      _ ≤ 2 ^ myGetOrder (pagesWord n (perPageWord B)) * B.pageSize := Nat.mul_le_mul_right _ hroom
  · intro i _ j hj i' _ j' hj' hne
    exact slots_disjoint hper hj hj' hne

/-! ## The computation in a run -/

/-- nothing has been asked for -/
def Unasked (s : St B) : Prop := ∀ b, .alloc b ∉ s.log

/-- what has been computed from `n` before a statement of `thread_fn` -/
def SizedAt (n : Word) (s : St B) : ThreadPc → Prop
  | .perPage => Unasked s
  | .divide => Unasked s ∧ s.nrStructsPerPage = perPageWord B
  | .remainder => Unasked s ∧ s.nrStructsPerPage = perPageWord B ∧ s.nrPages = n / perPageWord B
  | .order => Unasked s ∧ s.nrStructsPerPage = perPageWord B ∧ s.nrPages = pagesWord n (perPageWord B)
  | .alloc | .phys | .loops _ _ | .test | .sched =>
    Covers B n.toNat s.nrPages.toNat s.nrStructsPerPage.toNat s.order

/-- the statement of `thread_fn` that the thread is at or will return to -/
def pc? (s : St B) : Option ThreadPc := (place? s).bind Place.pc?

/-- the values, the block, the memory and the calls of `alloc_pages` are left alone -/
structure Apart (s t : St B) : Prop where
  mem : t.mem = s.mem
  nrPages : t.nrPages = s.nrPages
  perPage : t.nrStructsPerPage = s.nrStructsPerPage
  order : t.order = s.order
  pages : t.pages = s.pages
  asked : ∀ b, .alloc b ∈ t.log → .alloc b ∈ s.log

section Apart

variable {s t : St B}

theorem initStep_apart {ok : Bool} (hst : initStep s ok = some t) : Apart s t ∧ t.nrStructs = s.nrStructs ∧
    (place? t = place? s ∨ (s.init = .create ∧ place? t = some .entry)) := by
  cases hi : s.init with
  | create =>
    simp only [initStep, hi] at hst
    split_ifs at hst
    · obtain rfl := Option.some.inj hst
      exact ⟨⟨rfl, rfl, rfl, rfl, rfl, fun _ => id⟩, rfl, Or.inr ⟨rfl, rfl⟩⟩
    · obtain rfl := Option.some.inj hst
      exact ⟨⟨rfl, rfl, rfl, rfl, rfl, fun _ => id⟩, rfl, Or.inl rfl⟩
  | wake =>
    simp only [initStep, hi, Option.some.injEq] at hst
    subst hst
    exact ⟨⟨rfl, rfl, rfl, rfl, rfl, fun _ => id⟩, rfl, Or.inl (place?_map fun _ => rfl)⟩
  | loaded => simp [initStep, hi] at hst
  | failed => simp [initStep, hi] at hst

theorem checkLoops_apart (s : St B) (phys : ℕ) (p : Nest.Place) (clean : Bool) :
    Apart s (checkLoops s phys p clean) ∧ place? (checkLoops s phys p clean) = place? s ∧
      (checkLoops s phys p clean).nrStructs = s.nrStructs := by
  unfold checkLoops
  split
  · exact ⟨⟨rfl, rfl, rfl, rfl, rfl, fun _ => id⟩, rfl, rfl⟩
  · exact ⟨⟨rfl, rfl, rfl, rfl, rfl, fun _ => id⟩, rfl, rfl⟩
  · split_ifs
    · exact ⟨⟨rfl, rfl, rfl, rfl, rfl, fun b hb => by simpa using hb⟩, rfl, rfl⟩
    · exact ⟨⟨rfl, rfl, rfl, rfl, rfl, fun b hb => by simpa using hb⟩, rfl, rfl⟩

theorem exitStep_apart (hst : exitStep s = some t) :
    Apart s t ∧ place? t = place? s ∧ t.nrStructs = s.nrStructs := by
  cases hx : s.exit with
  | live =>
    simp only [exitStep, hx] at hst
    split_ifs at hst
    obtain rfl := Option.some.inj hst
    exact ⟨⟨rfl, rfl, rfl, rfl, rfl, fun _ => id⟩, place?_map fun _ => rfl, rfl⟩
  | wake =>
    simp only [exitStep, hx, Option.some.injEq] at hst
    subst hst
    exact ⟨⟨rfl, rfl, rfl, rfl, rfl, fun _ => id⟩, place?_map fun _ => rfl, rfl⟩
  | wait =>
    simp only [exitStep, hx] at hst
    split_ifs at hst
    obtain rfl := Option.some.inj hst
    exact ⟨⟨rfl, rfl, rfl, rfl, rfl, fun _ => id⟩, rfl, rfl⟩
  | phys =>
    simp only [exitStep, hx, Option.some.injEq] at hst
    subst hst
    exact ⟨⟨rfl, rfl, rfl, rfl, rfl, fun _ => id⟩, rfl, rfl⟩
  | loops phys p clean =>
    simp only [exitStep, hx, Option.some.injEq] at hst
    exact hst ▸ checkLoops_apart s phys p clean
  | free clean =>
    simp only [exitStep, hx, Option.some.injEq] at hst
    subst hst
    exact ⟨⟨rfl, rfl, rfl, rfl, rfl, fun b hb => by simpa using hb⟩, rfl, rfl⟩
  | done clean => simp [exitStep, hx] at hst
  | oops => simp [exitStep, hx] at hst

end Apart

structure Sizing (n : Word) (s : St B) : Prop where
  param : s.nrStructs = n
  before : place? s = none ∨ place? s = some .entry → Unasked s
  inFn : ∀ pc, pc? s = some pc → SizedAt n s pc
  asked : ∀ b, .alloc b ∈ s.log → Covers B n.toNat s.nrPages.toNat s.nrStructsPerPage.toNat s.order

section Sizing

variable {n : Word} {s t : St B}

theorem start_sizing (n : Word) (mem : Mem) : Sizing n (start n mem : St B) where
  param := rfl
  before _ b hb := by cases hb
  inFn pc h := by cases h
  asked b hb := by cases hb

/-- a step that leaves the values alone and brings the thread to no other statement -/
theorem Sizing.frame (h : Sizing n s) (ha : Apart s t) (hparam : t.nrStructs = s.nrStructs)
    (hbefore : place? t = none ∨ place? t = some .entry → place? s = none ∨ place? s = some .entry)
    (hpc : ∀ pc, pc? t = some pc → pc? s = some pc) : Sizing n t := by
  have unasked : Unasked s → Unasked t := fun hu b hb => hu b (ha.asked b hb)
  refine ⟨hparam.trans h.param, ?_, ?_, ?_⟩
  · intro hp
    exact unasked (h.before (hbefore hp))
  · intro pc hp
    have hat := h.inFn pc (hpc pc hp)
    cases pc with
    | perPage => exact unasked hat
    | divide => exact ⟨unasked hat.1, ha.perPage.trans hat.2⟩
    | remainder => exact ⟨unasked hat.1, ha.perPage.trans hat.2.1, ha.nrPages.trans hat.2.2⟩
    | order => exact ⟨unasked hat.1, ha.perPage.trans hat.2.1, ha.nrPages.trans hat.2.2⟩
    | alloc | phys | loops | test | sched => simpa only [SizedAt, ha.perPage, ha.nrPages, ha.order] using hat
  · intro b hb
    rw [ha.perPage, ha.nrPages, ha.order]
    exact h.asked b (ha.asked b hb)

/-- a step of the thread that computes one of the values, up to the call of `alloc_pages` -/
theorem Sizing.compute (h : Sizing n s) {c : TaskStruct ThreadPc} {pc : ThreadPc} (hk : t.kthread = some c)
    (hc : c.place = .fn pc) (hparam : t.nrStructs = s.nrStructs) (hu : Unasked t) (hat : SizedAt n t pc) : Sizing n t := by
  have hplace : place? t = some (.fn pc) := by rw [place?, hk, Option.map_some, hc]
  refine ⟨hparam.trans h.param, fun _ => hu, ?_, fun b hb => absurd hb (hu b)⟩
  intro pc' hpc
  rw [pc?, hplace] at hpc
  obtain rfl := Option.some.inj hpc
  exact hat

/-- a step of the thread from the call on -/
theorem Sizing.late (h : Sizing n s) {c : TaskStruct ThreadPc} (hk : t.kthread = some c) (hne : c.place ≠ .entry)
    (hlate : ∀ pc, c.place.pc? = some pc → ¬ pc.Early) (hparam : t.nrStructs = s.nrStructs)
    (hcov : Covers B n.toNat t.nrPages.toNat t.nrStructsPerPage.toNat t.order) : Sizing n t := by
  have hplace : place? t = some c.place := by rw [place?, hk, Option.map_some]
  refine ⟨hparam.trans h.param, ?_, ?_, fun _ _ => hcov⟩
  · intro hp
    rw [hplace] at hp
    rcases hp with hp | hp
    · cases hp
    · exact absurd (Option.some.inj hp) hne
  · intro pc hpc
    rw [pc?, hplace] at hpc
    have hnot := hlate pc hpc
    cases pc with
    | perPage | divide | remainder | order | alloc => exact absurd trivial hnot
    | phys | loops | test | sched => exact hcov

/-- a statement of the loops of `thread_fn` -/
theorem writeLoops_sizing {a : TaskStruct ThreadPc} {phys : ℕ} {p : Nest.Place} (h : Sizing n s)
    (hcov : Covers B n.toNat s.nrPages.toNat s.nrStructsPerPage.toNat s.order) : Sizing n (writeLoops s a phys p) := by
  have late : ∀ (mem : Mem) (log : List (Op B)) (q : Place ThreadPc), q ≠ .entry → (∀ pc ∈ q.pc?, ¬ pc.Early) →
      Sizing n { s with mem := mem, log := log, kthread := some { a with place := q } } :=
    fun mem log q hne hq => h.late rfl hne hq rfl hcov
  have lateFn : ∀ (mem : Mem) (log : List (Op B)) (pc : ThreadPc), ¬ pc.Early →
      Sizing n { s with mem := mem, log := log, kthread := some { a with place := .fn pc } } := by
    intro mem log pc hpc
    refine late mem log (.fn pc) (by simp) ?_
    intro pc' hpc'
    obtain rfl := Option.some.inj hpc'
    exact hpc
  unfold writeLoops
  split
  · exact lateFn s.mem s.log .test not_false
  · exact lateFn s.mem s.log (.loops phys _) not_false
  · split_ifs
    · exact lateFn s.mem s.log (.loops phys _) not_false
    · exact lateFn _ _ (.loops phys _) not_false
    · exact late s.mem _ .exited (by simp) (by simp [Place.pc?])

/-- a statement of `thread_fn` -/
theorem threadFn_sizing {a : TaskStruct ThreadPc} {b : Option (Block B)} {pc : ThreadPc} (h : Sizing n s)
    (hat : SizedAt n s pc) (hst : threadFn s a b pc = some t) : Sizing n t := by
  cases pc with
  | perPage =>
    obtain rfl := Option.some.inj hst
    exact h.compute rfl rfl rfl hat ⟨hat, rfl⟩
  | divide =>
    obtain rfl := Option.some.inj hst
    obtain ⟨hu, hper⟩ := hat
    refine h.compute rfl rfl rfl hu ⟨hu, hper, ?_⟩
    show s.nrStructs / s.nrStructsPerPage = _
    rw [h.param, hper]
  | remainder =>
    obtain rfl := Option.some.inj hst
    obtain ⟨hu, hper, hpages⟩ := hat
    refine h.compute rfl rfl rfl hu ⟨hu, hper, ?_⟩
    simp only [h.param, hper, hpages]
    rfl
  | order =>
    obtain rfl := Option.some.inj hst
    obtain ⟨hu, hper, hpages⟩ := hat
    refine h.compute rfl rfl rfl hu ?_
    simp only [SizedAt, hper, hpages]
    exact covers_pagesWord B n
  | alloc =>
    simp only [threadFn] at hst
    split_ifs at hst
    obtain rfl := Option.some.inj hst
    exact h.late rfl (by simp) (fun pc hpc => by cases hpc; exact not_false) rfl hat
  | phys =>
    obtain rfl := Option.some.inj hst
    exact h.late rfl (by simp) (fun pc hpc => by cases hpc; exact not_false) rfl hat
  | loops phys p =>
    obtain rfl := Option.some.inj hst
    exact writeLoops_sizing h hat
  | test =>
    obtain rfl := Option.some.inj hst
    refine h.late rfl ?_ ?_ rfl hat
    · simp only
      split_ifs <;> simp
    · intro pc hpc
      simp only at hpc
      split_ifs at hpc <;> cases hpc
      exact not_false
  | sched =>
    obtain rfl := Option.some.inj hst
    refine h.late rfl ?_ ?_ rfl hat
    · unfold TaskStruct.schedule
      split_ifs <;> simp
    · intro pc hpc
      unfold TaskStruct.schedule at hpc
      split_ifs at hpc <;> cases hpc <;> exact not_false

theorem threadStep_sizing {a : TaskStruct ThreadPc} {b : Option (Block B)} (h : Sizing n s) (ha : s.kthread = some a)
    (hst : threadStep s a b = some t) : Sizing n t := by
  have hplace : place? s = some a.place := by rw [place?, ha, Option.map_some]
  cases hp : a.place with
  | entry =>
    simp only [threadStep, hp] at hst
    obtain ⟨c, hc, rfl⟩ := Option.map_eq_some_iff.1 hst
    obtain ⟨-, rfl⟩ := enter_eq_some hc
    have hu := h.before (Or.inr (hp ▸ hplace))
    by_cases hstop : a.shouldStop = true
    · refine h.frame ⟨rfl, rfl, rfl, rfl, rfl, fun _ => id⟩ rfl ?_ ?_ <;> simp [pc?, place?, hstop, Place.pc?]
    · exact h.compute rfl (if_neg hstop) rfl hu hu
  | fn pc =>
    simp only [threadStep, hp] at hst
    exact threadFn_sizing h (h.inFn pc (by rw [pc?, hplace, hp]; rfl)) hst
  | inSchedule pc =>
    simp only [threadStep, hp] at hst
    obtain ⟨c, hc, rfl⟩ := Option.map_eq_some_iff.1 hst
    obtain ⟨-, rfl⟩ := resume_eq_some hc
    refine h.frame ⟨rfl, rfl, rfl, rfl, rfl, fun _ => id⟩ rfl ?_ ?_
    · simp [place?]
    · intro pc' hpc'
      rw [pc?, hplace, hp]
      exact hpc'
  | exited => simp [threadStep, hp] at hst

/-- the thread stays where it is -/
theorem Sizing.stay (h : Sizing n s) (ha : Apart s t) (hparam : t.nrStructs = s.nrStructs) (hplace : place? t = place? s) :
    Sizing n t := by
  refine h.frame ha hparam ?_ ?_
  · intro hp
    rwa [hplace] at hp
  · intro pc hpc
    rwa [pc?, hplace] at hpc

theorem initStep_sizing {ok : Bool} (hs : Basic s) (h : Sizing n s) (hst : initStep s ok = some t) : Sizing n t := by
  obtain ⟨ha, hparam, hplace | ⟨hi, hentry⟩⟩ := initStep_apart hst
  · exact h.stay ha hparam hplace
  · have hnone : place? s = none := by rw [place?, hs.unborn (Or.inl hi), Option.map_none]
    refine h.frame ha hparam (fun _ => Or.inl hnone) ?_
    intro pc hpc
    rw [pc?, hentry] at hpc
    cases hpc

theorem exitStep_sizing (h : Sizing n s) (hst : exitStep s = some t) : Sizing n t := by
  obtain ⟨ha, hplace, hparam⟩ := exitStep_apart hst
  exact h.stay ha hparam hplace

theorem step_sizing {ev : Ev B} (hs : Basic s) (h : Sizing n s) (hev : ∀ k, ev ≠ .param k) (hst : step s ev = some t) :
    Sizing n t := by
  cases ev with
  | init ok => exact initStep_sizing hs h hst
  | thread b =>
    cases ha : s.kthread with
    | none => simp [step, ha] at hst
    | some a =>
      simp only [step, ha] at hst
      exact threadStep_sizing h ha hst
  | exit => exact exitStep_sizing h hst
  | param k => exact absurd rfl (hev k)

theorem reaches_sizing {mem : Mem} {l : List (Ev B)} (hr : Reaches n mem l s) (hl : ∀ k, .param k ∉ l) : Sizing n s := by
  have hC : Along (Takes step) (fun _ ev _ => ∀ k, ev ≠ Ev.param k) (start n mem : St B) l := by
    intro l₁ ev l₂ u v hsplit _ _ k hk
    apply hl k
    rw [hsplit, ← hk]
    simp
  have hI := Along.inv (I := fun s : St B => Basic s ∧ Sizing n s)
    (fun _ _ _ h hev hst => ⟨step_basic h.1 hst, step_sizing h.1 h.2 hev hst⟩) hC hr ⟨start_basic n mem, start_sizing n mem⟩
  exact hI.2

/-- the next statement does not overflow -/
theorem Sizing.exact (h : Sizing n s) {pc : ThreadPc} (hpc : pc? s = some pc) : Exact s pc := by
  have hat := h.inFn pc hpc
  cases pc with
  | perPage =>
    have hsize := B.holdsStruct.2
    refine ⟨by decide, ?_⟩
    simp only [structSize]
    omega
  | divide =>
    show s.nrStructsPerPage ≠ 0
    rw [hat.2]
    exact perPageWord_ne_zero B
  | remainder =>
    obtain ⟨-, hper, hpages⟩ := hat
    simp only [Exact, hper, hpages, h.param]
    exact ⟨perPageWord_ne_zero B, fun hne => div_succ_lt (perPageWord_ne_zero B) hne⟩
  | order =>
    refine ⟨by simp [shiftLoop_width], myGetOrder_le ?_⟩
    exact s.nrPages.isLt.le
  | alloc | phys | loops | test | sched => trivial

end Sizing

/-! ## Result -/

/-- **The allocation covers the structs.** -/
theorem pages_cover {n : Word} {mem : Mem} {l : List (Ev B)} {s : St B} (hr : Reaches n mem l s)
    (hl : ∀ k, .param k ∉ l) :
    (∀ pc, pc? s = some pc → Exact s pc) ∧
      (Asks s → Covers B n.toNat s.nrPages.toNat s.nrStructsPerPage.toNat s.order) := by
  have h := reaches_sizing hr hl
  refine ⟨fun pc hpc => h.exact hpc, ?_⟩
  intro hasks
  rcases hasks with hp | ⟨b, hb⟩
  · exact h.inFn .alloc (by rw [pc?, hp]; rfl)
  · exact h.asked b hb

/-- the thread up to the call of `alloc_pages` -/
def untilAlloc : List (Ev armBoard) := [.init true, .init true] ++ List.replicate 5 (.thread none)

/-- the default of 2000 structs, in pages of 4096 bytes: sixteen pages -/
theorem pages_cover_default : ∃ s : St armBoard, Reaches 2000 (fun _ => 0) untilAlloc s ∧ s.nrPages = 16 ∧
    s.order = 4 ∧ Covers armBoard 2000 s.nrPages.toNat s.nrStructsPerPage.toNat s.order := by
  have hobs : (untilAlloc.foldlM step (start 2000 fun _ => 0)).map
      (fun s : St armBoard => (s.nrPages, s.order, place? s)) = some (16#32, 4, some (.fn .alloc)) := by decide +kernel
  obtain ⟨s, hs, ho⟩ := Option.map_eq_some_iff.1 hobs
  simp only [Prod.mk.injEq] at ho
  obtain ⟨hpages, horder, hplace⟩ := ho
  have hr : Reaches 2000 (fun _ => 0) untilAlloc s := run_takes_iff.2 hs
  exact ⟨s, hr, hpages, horder, (pages_cover hr (by simp [untilAlloc])).2 (Or.inl hplace)⟩

end Cse422.KernelMemory
