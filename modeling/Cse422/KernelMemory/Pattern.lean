/-
The pattern in the pages. The loops of `thread_fn` and those of `kernel_memory_exit` go over the same words, no two of
which overlap, and agree on the number for each.

- `pattern_verified`: when the thread is through with its loops, every word of the pattern holds its number; whatever
  others then write to memory before the check begins, the check ends and finds the pages clean if and only if no word
  of the pattern has changed;
- `pattern_changed`: a run in which a word is changed.

`PaintedAt` says at each place of the thread which words have been written, and `CheckedAt` at each place of
`kernel_memory_exit` what `cleanData` means there.
-/
import Cse422.KernelMemory.Sizes

namespace Cse422.KernelMemory

open Lts Kthread Words

variable {B : Board}

/-! ## The property -/

/-- the loops go over `array[k]` of struct `j` in page `i` -/
def Covered (s : St B) (i j k : ℕ) : Prop := i < s.nrPages.toNat ∧ j < s.nrStructsPerPage.toNat ∧ k < arrSize

/-- the address of that word in a block -/
def Block.addr (b : Block B) (i j k : ℕ) : ℕ := KernelMemory.addr B (B.pfnPhys b.pfn) i j k

/-- the thread is past its loops -/
def Waits : Place ThreadPc → Prop
  | .fn .test | .fn .sched | .inSchedule .test | .exited => True
  | _ => False

/-- the write loops are over, in this block -/
structure Written (s : St B) (b : Block B) : Prop where
  pages : s.pages = some b
  waits : ∃ p, place? s = some p ∧ Waits p

/-- steps of the module and, between them, what others do to memory -/
inductive MemEv (B : Board) where
  | module (ev : Ev B)
  | others (mem : Mem)

def memStep (s : St B) : MemEv B → Option (St B)
  | .module ev => step s ev
  | .others mem => some { s with mem := mem }

/-- no word of the pattern has changed -/
def Unchanged (s t : St B) (b : Block B) : Prop :=
  ∀ i j k, Covered s i j k → load t.mem (b.addr i j k) = load s.mem (b.addr i j k)

/-! ## Addresses -/

/-- the block has room for the words that the loops go over -/
structure Fits (s : St B) (b : Block B) : Prop where
  perPage : PerPage s
  room : s.nrPages.toNat ≤ 2 ^ b.order

section Addresses

variable {s : St B} {b : Block B} {i j k i' j' k' : ℕ}

theorem Fits.offset_lt (h : Fits s b) (hc : Covered s i j k) :
    i * B.pageSize + j * structSize < 2 ^ b.order * B.pageSize := by
  obtain ⟨hi, hj, -⟩ := hc
  have hpos : 0 < structSize := by decide
  calc i * B.pageSize + j * structSize
      < i * B.pageSize + (j + 1) * structSize := Nat.add_lt_add_left (Nat.mul_lt_mul_of_pos_right (Nat.lt_succ_self j) hpos) _
    _ ≤ s.nrPages.toNat * B.pageSize + 0 * structSize := slots_apart h.perPage hj (Or.inl hi)
    _ = s.nrPages.toNat * B.pageSize := by rw [Nat.zero_mul, Nat.add_zero]
    _ ≤ 2 ^ b.order * B.pageSize := Nat.mul_le_mul_right _ h.room

theorem Fits.addr_eq (h : Fits s b) (hc : Covered s i j k) :
    b.addr i j k = b.base + (i * B.pageSize + j * structSize) + 4 * k :=
  KernelMemory.addr_eq b (h.offset_lt hc)

theorem Fits.present (h : Fits s b) (hc : Covered s i j k) : B.present (b.addr i j k) = true := by
  obtain ⟨hi, hj, hk⟩ := hc
  obtain ⟨hlo, hhi⟩ := addr_owned b h.room h.perPage hi hj hk
  exact b.present _ hlo hhi

/-- words for different indices do not overlap -/
theorem Fits.apart (h : Fits s b) (hc : Covered s i j k) (hc' : Covered s i' j' k')
    (hne : i ≠ i' ∨ j ≠ j' ∨ k ≠ k') : b.addr i j k + 4 ≤ b.addr i' j' k' ∨ b.addr i' j' k' + 4 ≤ b.addr i j k := by
  rw [h.addr_eq hc, h.addr_eq hc']
  obtain ⟨-, hj, hk⟩ := hc
  obtain ⟨-, hj', hk'⟩ := hc'
  by_cases hsame : i = i' ∧ j = j'
  · obtain ⟨rfl, rfl⟩ := hsame
    omega
  · have hslots := slots_disjoint h.perPage hj hj' (not_and_or.1 hsame)
    simp only [Nat.add_mul, Nat.one_mul] at hslots
    simp only [structSize, arrSize] at hslots hk hk' ⊢
    omega

/-- the block is not at NULL -/
theorem Fits.thisStruct_ne_zero (h : Fits s b) (hc : Covered s i j k) : thisStruct B (B.pfnPhys b.pfn) i j ≠ 0 := by
  have hbase : 0 < b.base := b.mapped.1
  have haddr := h.addr_eq hc
  simp only [Block.addr, KernelMemory.addr] at haddr
  omega

end Addresses

/-! ## The write loops -/

/-- the words for the indices in `D` hold their numbers -/
def Painted (s : St B) (b : Block B) (D : ℕ → ℕ → ℕ → Prop) : Prop :=
  ∀ i j k, Covered s i j k → D i j k → load s.mem (b.addr i j k) = number s.nrStructsPerPage i j k

/-- what has been written at a place of the thread -/
def PaintedAt (s : St B) (b : Block B) : Place ThreadPc → Prop
  | .fn (.loops _ p) => Painted s b p.Done
  | .fn .test | .fn .sched | .inSchedule _ | .exited => Painted s b fun _ _ _ => True
  | .entry | .fn _ => True

structure Pattern (s : St B) : Prop extends Inv s where
  painted : ∀ a b, s.kthread = some a → s.pages = some b → PaintedAt s b a.place

section Write

variable {s t : St B} {b : Block B}

theorem Painted.congr {D : ℕ → ℕ → ℕ → Prop} (h : Painted s b D) (hmem : t.mem = s.mem) (hpages : t.nrPages = s.nrPages)
    (hper : t.nrStructsPerPage = s.nrStructsPerPage) : Painted t b D := by
  unfold Painted Covered at *
  rw [hmem, hpages, hper]
  exact h

theorem PaintedAt.congr {p : Place ThreadPc} (h : PaintedAt s b p) (hmem : t.mem = s.mem)
    (hpages : t.nrPages = s.nrPages) (hper : t.nrStructsPerPage = s.nrStructsPerPage) : PaintedAt t b p := by
  match p, h with
  | .fn (.loops _ _), h => exact Painted.congr h hmem hpages hper
  | .fn .test, h | .fn .sched, h | .inSchedule _, h | .exited, h => exact Painted.congr h hmem hpages hper
  | .entry, _ | .fn .perPage, _ | .fn .divide, _ | .fn .remainder, _ | .fn .order, _ | .fn .alloc, _ | .fn .phys, _ =>
    trivial

theorem Holds.fits {ops : List (Op B)} (h : Holds s b ops) : Fits s b := ⟨h.perPage, h.order ▸ h.room⟩

/-- a store of the pattern changes no other word of it -/
theorem Painted.store {p q : Nest.Place} {i j k : ℕ} (h : Painted s b p.Done) (hf : Fits s b) (hc : Covered s i j k)
    (hst : p.step s.nrPages.toNat s.nrStructsPerPage.toNat arrSize = .visit i j k q) :
    Painted { s with mem := store s.mem (b.addr i j k) (number s.nrStructsPerPage i j k) } b q.Done := by
  intro i' j' k' hc' hdone
  have hc' : Covered s i' j' k' := hc'
  by_cases hsame : i' = i ∧ j' = j ∧ k' = k
  · obtain ⟨rfl, rfl, rfl⟩ := hsame
    exact load_store _ _ _
  · have hdone' : p.Done i' j' k' := ((Nest.done_visit hst).1 hdone).resolve_right hsame
    have hne : i' ≠ i ∨ j' ≠ j ∨ k' ≠ k := by omega
    calc load (Words.store s.mem (b.addr i j k) (number s.nrStructsPerPage i j k)) (b.addr i' j' k')
        = load s.mem (b.addr i' j' k') := by
          apply load_congr
          intro x hx
          apply store_frame
          have hapart := hf.apart hc' hc hne
          omega
      _ = number s.nrStructsPerPage i' j' k' := h i' j' k' hc' hdone'

/-- a statement of the loops of `thread_fn` -/
theorem writeLoops_painted {a : TaskStruct ThreadPc} {phys : ℕ} {p : Nest.Place} (hpages : s.pages = some b)
    (hf : Fits s b) (hl : LoopOk s phys p) (h : Painted s b p.Done) :
    ∀ c, (writeLoops s a phys p).kthread = some c → PaintedAt (writeLoops s a phys p) b c.place := by
  have hphys : phys = B.pfnPhys b.pfn := by rw [hl.phys, hpages]; rfl
  intro c hc
  unfold writeLoops at hc ⊢
  match hst : p.step s.nrPages.toNat s.nrStructsPerPage.toNat arrSize with
  | .over =>
    simp only [hst] at hc ⊢
    obtain rfl := Option.some.inj hc
    intro i j k hcov _
    exact h i j k hcov (Nest.done_over hst hcov.1)
  | .move q =>
    simp only [hst] at hc ⊢
    obtain rfl := Option.some.inj hc
    intro i j k hcov hdone
    have hcov : Covered s i j k := hcov
    exact h i j k hcov ((Nest.done_move hst hcov.2.1 hcov.2.2).1 hdone)
  | .visit i j k q =>
    have hcov : Covered s i j k := (Nest.InRange.visit hl.range hst).1
    have hne : thisStruct B phys i j ≠ 0 := hphys ▸ hf.thisStruct_ne_zero hcov
    have hpresent : B.present (KernelMemory.addr B phys i j k) = true := hphys ▸ hf.present hcov
    simp only [hst, if_neg hne, if_pos hpresent] at hc ⊢
    obtain rfl := Option.some.inj hc
    have hpaint := h.store hf hcov hst
    subst hphys
    exact Painted.congr hpaint rfl rfl rfl

/-- a statement of `thread_fn` -/
theorem threadFn_painted {a : TaskStruct ThreadPc} {x : Option (Block B)} {pc : ThreadPc}
    (hok : ThreadOk s a.shouldStop (.fn pc)) (h : ∀ b, s.pages = some b → PaintedAt s b (.fn pc))
    (hst : threadFn s a x pc = some t) : ∀ c b, t.kthread = some c → t.pages = some b → PaintedAt t b c.place := by
  have fresh : Fresh s → ∀ b, s.pages ≠ some b := by
    intro hf b hb
    rw [hf.1] at hb
    cases hb
  cases pc with
  | perPage =>
    obtain rfl := Option.some.inj hst
    exact fun c b _ hb => absurd hb (fresh hok b)
  | divide =>
    obtain rfl := Option.some.inj hst
    exact fun c b _ hb => absurd hb (fresh hok.1 b)
  | remainder =>
    obtain rfl := Option.some.inj hst
    exact fun c b _ hb => absurd hb (fresh hok.1 b)
  | order =>
    obtain rfl := Option.some.inj hst
    exact fun c b _ hb => absurd hb (fresh hok.1 b)
  | alloc =>
    simp only [threadFn] at hst
    split_ifs at hst
    obtain rfl := Option.some.inj hst
    intro c b hc _
    obtain rfl := Option.some.inj hc
    trivial
  | phys =>
    obtain rfl := Option.some.inj hst
    intro c b hc _
    obtain rfl := Option.some.inj hc
    intro i j k _ hdone
    exact absurd hdone Nest.done_outer_zero
  | loops phys p =>
    obtain rfl := Option.some.inj hst
    obtain ⟨⟨b', ops, hh⟩, hl⟩ := hok
    intro c b hc hb
    have hpages : (writeLoops s a phys p).pages = s.pages := by
      unfold writeLoops
      split
      · rfl
      · rfl
      · split_ifs <;> rfl
    rw [hpages] at hb
    obtain rfl : b' = b := Option.some.inj (hh.pages.symm.trans hb)
    exact writeLoops_painted hb hh.fits hl (h b' hb) c hc
  | test =>
    obtain rfl := Option.some.inj hst
    intro c b hc hb
    obtain rfl := Option.some.inj hc
    have hpaint : Painted s b fun _ _ _ => True := h b hb
    simp only
    split_ifs
    · exact Painted.congr hpaint rfl rfl rfl
    · exact Painted.congr hpaint rfl rfl rfl
  | sched =>
    obtain rfl := Option.some.inj hst
    intro c b hc hb
    obtain rfl := Option.some.inj hc
    have hpaint : Painted s b fun _ _ _ => True := h b hb
    unfold TaskStruct.schedule
    split_ifs
    · exact Painted.congr hpaint rfl rfl rfl
    · exact Painted.congr hpaint rfl rfl rfl

theorem Pattern.apart (h : Pattern s) (hI : Inv t) (ha : Apart s t) (hplace : place? t = place? s) : Pattern t where
  toInv := hI
  painted c b hc hb := by
    have hpt : place? t = some c.place := by rw [place?, hc, Option.map_some]
    obtain ⟨a, hk, hpa⟩ := Option.map_eq_some_iff.1 (hplace.symm.trans hpt)
    rw [← hpa]
    exact (h.painted a b hk (ha.pages ▸ hb)).congr ha.mem ha.nrPages ha.perPage

theorem step_pattern {ev : Ev B} (h : Pattern s) (ho : Orderly s ev t) (hst : step s ev = some t) : Pattern t := by
  have hI := step_inv h.toInv ho hst
  cases ev with
  | init ok =>
    obtain ⟨ha, -, hplace | ⟨hi, -⟩⟩ := initStep_apart hst
    · exact h.apart hI ha hplace
    · -- there is no thread yet, so there are no pages
      refine ⟨hI, ?_⟩
      intro c b _ hb
      rw [ha.pages, (h.fresh (h.unborn (Or.inl hi))).1] at hb
      cases hb
  | thread x =>
    refine ⟨hI, ?_⟩
    cases ha : s.kthread with
    | none => simp [step, ha] at hst
    | some a =>
      simp only [step, ha] at hst
      have hok := h.thread a ha
      have hpaint := fun b => h.painted a b ha
      cases hp : a.place with
      | entry =>
        simp only [threadStep, hp] at hst
        rw [hp] at hok
        obtain ⟨c, hc, rfl⟩ := Option.map_eq_some_iff.1 hst
        intro c' b _ hb
        rw [hok.2.1] at hb
        cases hb
      | fn pc =>
        simp only [threadStep, hp] at hst
        rw [hp] at hok hpaint
        exact threadFn_painted hok hpaint hst
      | inSchedule pc =>
        simp only [threadStep, hp] at hst
        rw [hp] at hok hpaint
        obtain ⟨c, hc, rfl⟩ := Option.map_eq_some_iff.1 hst
        obtain ⟨-, rfl⟩ := resume_eq_some hc
        obtain ⟨rfl, -⟩ := hok
        intro c' b hc' hb
        obtain rfl := Option.some.inj hc'
        exact Painted.congr (hpaint b hb) rfl rfl rfl
      | exited => simp [threadStep, hp] at hst
  | exit =>
    obtain ⟨ha, hplace, -⟩ := exitStep_apart hst
    exact h.apart hI ha hplace
  | param k =>
    obtain rfl := Option.some.inj hst
    exact h.apart hI ⟨rfl, rfl, rfl, rfl, rfl, fun _ => id⟩ rfl

theorem start_pattern (n : Word) (mem : Mem) : Pattern (start n mem : St B) where
  toInv := start_inv n mem
  painted _ _ h := by cases h

/-- a run that has a block has been orderly -/
theorem reaches_pattern {n : Word} {mem : Mem} {l : List (Ev B)} (hr : Reaches n mem l s) (hb : s.pages = some b) :
    Pattern s := by
  have hC : Along (Takes step) Orderly (start n mem) l := by
    apply Along.of_not (fun _ _ _ hs hst => step_basic hs hst) (fun _ _ _ hs hl hst => step_lost hs hl hst)
      (fun _ _ _ hs hst hbroken => lost_of_not_orderly hs hst hbroken) hr (start_basic n mem)
    intro hlost
    rw [hlost.pages] at hb
    cases hb
  exact Along.inv (I := Pattern) (fun _ _ _ hs ho hst => step_pattern hs ho hst) hC hr (start_pattern n mem)

theorem Pattern.written (h : Pattern s) (hw : Written s b) :
    Fits s b ∧ ∀ i j k, Covered s i j k → load s.mem (b.addr i j k) = number s.nrStructsPerPage i j k := by
  obtain ⟨p, hp, hwaits⟩ := hw.waits
  obtain ⟨a, ha, rfl⟩ := Option.map_eq_some_iff.1 hp
  have hok := h.thread a ha
  have hpaint := h.painted a b ha hw.pages
  have both : (∃ b ops, Holds s b ops) → Painted s b (fun _ _ _ => True) → Fits s b ∧
      ∀ i j k, Covered s i j k → load s.mem (b.addr i j k) = number s.nrStructsPerPage i j k := by
    intro hholds hall
    obtain ⟨b', ops, hh⟩ := hholds
    obtain rfl : b' = b := Option.some.inj (hh.pages.symm.trans hw.pages)
    exact ⟨hh.fits, fun i j k hc => hall i j k hc trivial⟩
  match hplace : a.place with
  | .fn .test | .fn .sched | .exited =>
    rw [hplace] at hok hpaint
    exact both hok hpaint
  | .inSchedule pc =>
    rw [hplace] at hok hpaint
    exact both hok.2 hpaint
  | .entry | .fn .perPage | .fn .divide | .fn .remainder | .fn .order | .fn .alloc | .fn .phys | .fn (.loops _ _) =>
    rw [hplace] at hwaits
    exact hwaits.elim

end Write

/-! ## Until the check -/

/-- `u` is later than `s`, where the write loops were over -/
structure After (s : St B) (b : Block B) (u : St B) : Prop extends Basic u, Written u b where
  nrPages : u.nrPages = s.nrPages
  perPage : u.nrStructsPerPage = s.nrStructsPerPage

section Wait

variable {s u v : St B} {b : Block B}

theorem threadStep_waits {a : TaskStruct ThreadPc} {x : Option (Block B)} (hw : Waits a.place)
    (hst : threadStep u a x = some v) : Apart u v ∧ ∃ p, place? v = some p ∧ Waits p := by
  match hp : a.place with
  | .fn .test =>
    simp only [threadStep, hp, threadFn, Option.some.injEq] at hst
    subst hst
    refine ⟨⟨rfl, rfl, rfl, rfl, rfl, fun _ => id⟩, _, rfl, ?_⟩
    simp only
    split_ifs <;> trivial
  | .fn .sched =>
    simp only [threadStep, hp, threadFn, Option.some.injEq] at hst
    subst hst
    refine ⟨⟨rfl, rfl, rfl, rfl, rfl, fun _ => id⟩, _, rfl, ?_⟩
    unfold TaskStruct.schedule
    split_ifs <;> trivial
  | .inSchedule .test =>
    simp only [threadStep, hp] at hst
    obtain ⟨c, hc, rfl⟩ := Option.map_eq_some_iff.1 hst
    obtain ⟨-, rfl⟩ := resume_eq_some hc
    exact ⟨⟨rfl, rfl, rfl, rfl, rfl, fun _ => id⟩, _, rfl, trivial⟩
  | .exited => simp [threadStep, hp] at hst
  | .entry | .fn .perPage | .fn .divide | .fn .remainder | .fn .order | .fn .alloc | .fn .phys | .fn (.loops _ _) =>
    rw [hp] at hw
    exact hw.elim
  | .inSchedule .perPage | .inSchedule .divide | .inSchedule .remainder | .inSchedule .order | .inSchedule .alloc |
    .inSchedule .phys | .inSchedule (.loops _ _) | .inSchedule .sched =>
    rw [hp] at hw
    exact hw.elim

/-- no step of the module touches memory once the write loops are over -/
theorem step_waits {ev : Ev B} (h : After s b u) (hst : step u ev = some v) : After s b v ∧ v.mem = u.mem := by
  have hbasic := step_basic h.toBasic hst
  obtain ⟨p, hp, hw⟩ := h.waits
  have after : Apart u v → (∃ p, place? v = some p ∧ Waits p) → After s b v ∧ v.mem = u.mem := by
    intro ha hwaits
    exact ⟨⟨hbasic, ⟨ha.pages.trans h.pages, hwaits⟩, ha.nrPages.trans h.nrPages, ha.perPage.trans h.perPage⟩, ha.mem⟩
  cases ev with
  | init ok =>
    obtain ⟨ha, -, hplace | ⟨hi, -⟩⟩ := initStep_apart hst
    · exact after ha ⟨p, hplace.trans hp, hw⟩
    · rw [place?, h.unborn (Or.inl hi)] at hp
      cases hp
  | thread x =>
    obtain ⟨a, ha, rfl⟩ := Option.map_eq_some_iff.1 hp
    simp only [step, ha] at hst
    obtain ⟨hapart, hwaits⟩ := threadStep_waits hw hst
    exact after hapart hwaits
  | exit =>
    obtain ⟨ha, hplace, -⟩ := exitStep_apart hst
    exact after ha ⟨p, hplace.trans hp, hw⟩
  | param k =>
    obtain rfl := Option.some.inj hst
    exact after ⟨rfl, rfl, rfl, rfl, rfl, fun _ => id⟩ ⟨p, hp, hw⟩

theorem memStep_waits {ev : MemEv B} (h : After s b u) (hst : memStep u ev = some v) : After s b v := by
  cases ev with
  | module ev => exact (step_waits h hst).1
  | others mem =>
    obtain rfl := Option.some.inj hst
    exact ⟨⟨h.unborn, h.early, h.past, h.logged, h.done, h.oops⟩, ⟨h.pages, h.waits⟩, h.nrPages, h.perPage⟩

end Wait

/-! ## The check loops -/

/-- the words for the indices in `D` hold their numbers in `mem` -/
def Clean (s : St B) (b : Block B) (mem : Mem) (D : ℕ → ℕ → ℕ → Prop) : Prop :=
  ∀ i j k, Covered s i j k → D i j k → load mem (b.addr i j k) = number s.nrStructsPerPage i j k

/-- what `cleanData` means at a place of `kernel_memory_exit` -/
def CheckedAt (s : St B) (b : Block B) (mem : Mem) : ExitPc → Prop
  | .phys => True
  | .loops phys p clean => phys = B.pfnPhys b.pfn ∧ p.InRange s.nrPages.toNat s.nrStructsPerPage.toNat ∧
      (clean = true ↔ Clean s b mem p.Done)
  | .free clean | .done clean => clean = true ↔ Clean s b mem fun _ _ _ => True
  | .live | .wake | .wait | .oops => False

structure Checking (s : St B) (b : Block B) (m : Mem) (u : St B) : Prop extends After s b u where
  fits : Fits s b
  same : u.mem = m
  checked : CheckedAt s b m u.exit

section Check

variable {s u v : St B} {b : Block B} {m : Mem}

theorem initStep_exit {ok : Bool} (hst : initStep u ok = some v) : v.exit = u.exit := by
  unfold initStep at hst
  split at hst
  · split_ifs at hst <;> obtain rfl := Option.some.inj hst <;> rfl
  · obtain rfl := Option.some.inj hst
    rfl
  · cases hst
  · cases hst

/-- what a word adds to what is clean -/
theorem clean_visit {p q : Nest.Place} {i j k : ℕ} (hc : Covered s i j k)
    (hst : p.step s.nrPages.toNat s.nrStructsPerPage.toNat arrSize = .visit i j k q) :
    Clean s b m q.Done ↔ Clean s b m p.Done ∧ load m (b.addr i j k) = number s.nrStructsPerPage i j k := by
  constructor
  · intro h
    refine ⟨?_, ?_⟩
    · intro i' j' k' hc' hdone
      exact h i' j' k' hc' ((Nest.done_visit hst).2 (Or.inl hdone))
    · exact h i j k hc ((Nest.done_visit hst).2 (Or.inr ⟨rfl, rfl, rfl⟩))
  · intro h i' j' k' hc' hdone
    rcases (Nest.done_visit hst).1 hdone with hbefore | ⟨rfl, rfl, rfl⟩
    · exact h.1 i' j' k' hc' hbefore
    · exact h.2

/-- a statement of the check loops -/
theorem checkLoops_checked {phys : ℕ} {p : Nest.Place} {clean : Bool} (h : Checking s b m u)
    (hx : u.exit = .loops phys p clean) : CheckedAt s b m (checkLoops u phys p clean).exit := by
  have hat := h.checked
  rw [hx] at hat
  obtain ⟨hphys, hrange, hclean⟩ := hat
  unfold checkLoops
  rw [h.nrPages, h.perPage]
  match hst : p.step s.nrPages.toNat s.nrStructsPerPage.toNat arrSize with
  | .over =>
    refine hclean.trans ⟨?_, ?_⟩
    · intro hall i j k hc _
      exact hall i j k hc (Nest.done_over hst hc.1)
    · intro hall i j k hc _
      exact hall i j k hc trivial
  | .move q =>
    refine ⟨hphys, Nest.InRange.move hrange hst, hclean.trans ⟨?_, ?_⟩⟩
    · intro hall i j k hc hdone
      exact hall i j k hc ((Nest.done_move hst hc.2.1 hc.2.2).1 hdone)
    · intro hall i j k hc hdone
      exact hall i j k hc ((Nest.done_move hst hc.2.1 hc.2.2).2 hdone)
  | .visit i j k q =>
    obtain ⟨hc, hrange'⟩ := Nest.InRange.visit hrange hst
    have hpresent : B.present (KernelMemory.addr B phys i j k) = true := hphys ▸ h.fits.present hc
    simp only [if_pos hpresent]
    refine ⟨hphys, hrange', ?_⟩
    rw [clean_visit hc hst, ← hclean, h.same, hphys]
    simp only [Block.addr, Bool.and_eq_true, decide_eq_true_eq]

/-- a step of the check -/
theorem exitStep_checked (h : Checking s b m u) (hst : exitStep u = some v) : CheckedAt s b m v.exit := by
  have hat := h.checked
  match hx : u.exit with
  | .live | .wake | .wait | .oops =>
    rw [hx] at hat
    exact hat.elim
  | .phys =>
    simp only [exitStep, hx, Option.some.injEq] at hst
    subst hst
    refine ⟨by rw [h.pages]; rfl, trivial, fun _ => ?_, fun _ => rfl⟩
    intro i j k _ hdone
    exact absurd hdone Nest.done_outer_zero
  | .loops phys p clean =>
    simp only [exitStep, hx, Option.some.injEq] at hst
    exact hst ▸ checkLoops_checked h hx
  | .free clean =>
    simp only [exitStep, hx, Option.some.injEq] at hst
    subst hst
    rw [hx] at hat
    simp only [h.pages, Option.isSome_some, if_true]
    exact hat
  | .done clean => simp [exitStep, hx] at hst

theorem step_checking {ev : Ev B} (h : Checking s b m u) (hst : step u ev = some v) : Checking s b m v := by
  obtain ⟨hafter, hmem⟩ := step_waits h.toAfter hst
  have hsame := hmem.trans h.same
  cases ev with
  | init ok => exact ⟨hafter, h.fits, hsame, (initStep_exit hst).symm ▸ h.checked⟩
  | thread x =>
    cases ha : u.kthread with
    | none => simp [step, ha] at hst
    | some a =>
      simp only [step, ha] at hst
      obtain ⟨c, hmoves⟩ := threadStep_moves hst
      exact ⟨hafter, h.fits, hsame, hmoves.exit.symm ▸ h.checked⟩
  | exit => exact ⟨hafter, h.fits, hsame, exitStep_checked h hst⟩
  | param k =>
    obtain rfl := Option.some.inj hst
    exact ⟨hafter, h.fits, hsame, h.checked⟩

/-- the check goes on until it is over: the number of statements left -/
theorem loops_end (n : ℕ) : ∀ (u : St B) (phys : ℕ) (p : Nest.Place) (clean : Bool), Checking s b m u →
    u.exit = .loops phys p clean → p.rest u.nrPages.toNat u.nrStructsPerPage.toNat arrSize = n →
    ∃ k v c, Run (Takes step) u (List.replicate k .exit) v ∧ v.exit = .done c := by
  induction n using Nat.strong_induction_on with
  | _ n ih =>
    intro u phys p clean h hx hn
    have hfirst : step u .exit = some (checkLoops u phys p clean) := by simp only [step, exitStep, hx]
    obtain ⟨happ, -⟩ := checkLoops_apart u phys p clean
    have more : ∀ q c, (checkLoops u phys p clean).exit = .loops phys q c →
        q.rest u.nrPages.toNat u.nrStructsPerPage.toNat arrSize < n →
        ∃ k v c, Run (Takes step) u (List.replicate k .exit) v ∧ v.exit = .done c := by
      intro q c hexit hlt
      obtain ⟨k, v, c', hrun, hdone⟩ := ih _ hlt (checkLoops u phys p clean) phys q c (step_checking h hfirst) hexit
        (by rw [happ.nrPages, happ.perPage])
      refine ⟨k + 1, v, c', ?_, hdone⟩
      rw [List.replicate_succ]
      exact .cons hfirst hrun
    rcases hst : p.step u.nrPages.toNat u.nrStructsPerPage.toNat arrSize with _ | q | ⟨i, j, k, q⟩
    · -- the loops are over
      have hover : checkLoops u phys p clean = { u with exit := .free clean } := by simp only [checkLoops, hst]
      have hlast : step { u with exit := .free clean } .exit =
          some { u with log := u.log ++ [.free u.pages u.order], exit := .done clean } := by
        simp only [step, exitStep, h.pages, Option.isSome_some, if_true]
      rw [hover] at hfirst
      exact ⟨2, _, clean, .cons hfirst (.cons hlast (.nil _)), rfl⟩
    · exact more q clean (by simp only [checkLoops, hst]) (hn ▸ Nest.rest_move hst)
    · have hat := h.checked
      rw [hx] at hat
      rw [h.nrPages, h.perPage] at hst
      have hpresent : B.present (KernelMemory.addr B phys i j k) = true :=
        hat.1 ▸ h.fits.present (Nest.InRange.visit hat.2.1 hst).1
      rw [← h.nrPages, ← h.perPage] at hst
      refine more q (clean && load u.mem (addr B phys i j k) = number u.nrStructsPerPage i j k) ?_ (hn ▸ Nest.rest_visit hst)
      simp only [checkLoops, hst, if_pos hpresent]

theorem check_ends (h : Checking s b m u) (hx : u.exit = .phys) :
    ∃ k v c, Run (Takes step) u (List.replicate k .exit) v ∧ v.exit = .done c := by
  have hfirst : step u .exit = some { u with exit := .loops (B.pfnPhys (pageToPfn u.pages)) (.outer 0) true } := by
    simp only [step, exitStep, hx]
  obtain ⟨k, v, c, hrun, hdone⟩ := loops_end _ _ _ _ _ (step_checking h hfirst) rfl rfl
  refine ⟨k + 1, v, c, ?_, hdone⟩
  rw [List.replicate_succ]
  exact .cons hfirst hrun

end Check

/-! ## Result -/

section Result

variable {n : Word} {mem : Mem} {l : List (Ev B)} {s t : St B} {b : Block B} {l' : List (MemEv B)}

/-- **The written pattern is verified exactly.** -/
theorem pattern_verified (hr : Reaches n mem l s) (hw : Written s b) (hrun : Run (Takes memStep) s l' t)
    (hexit : t.exit = .phys) :
    (∀ i j k i' j' k', Covered s i j k → Covered s i' j' k' → i ≠ i' ∨ j ≠ j' ∨ k ≠ k' →
      b.addr i j k + 4 ≤ b.addr i' j' k' ∨ b.addr i' j' k' + 4 ≤ b.addr i j k) ∧
    (∀ i j k, Covered s i j k → load s.mem (b.addr i j k) = number s.nrStructsPerPage i j k) ∧
    ∃ c : Bool, (c = true ↔ Unchanged s t b) ∧
      (∃ k u, Run (Takes step) t (List.replicate k .exit) u ∧ u.exit = .done c) ∧
      ∀ l'' u c', Run (Takes step) t l'' u → u.exit = .free c' ∨ u.exit = .done c' → c' = c := by
  obtain ⟨hfits, hwritten⟩ := (reaches_pattern hr hw.pages).written hw
  have hafter : After s b t := Run.inv (I := After s b) (fun _ _ _ h hst => memStep_waits h hst) hrun
    ⟨reaches_basic hr, hw, rfl, rfl⟩
  have hstart : Checking s b t.mem t := ⟨hafter, hfits, rfl, by rw [hexit]; trivial⟩
  have checked : ∀ l'' u, Run (Takes step) t l'' u → CheckedAt s b t.mem u.exit := fun l'' u hu =>
    (Run.inv (I := Checking s b t.mem) (fun _ _ _ h hst => step_checking h hst) hu hstart).checked
  have hclean : Clean s b t.mem (fun _ _ _ => True) ↔ Unchanged s t b := by
    constructor
    · intro h i j k hc
      rw [h i j k hc trivial, hwritten i j k hc]
    · intro h i j k hc _
      rw [h i j k hc, hwritten i j k hc]
  refine ⟨fun i j k i' j' k' hc hc' hne => hfits.apart hc hc' hne, hwritten, ?_⟩
  obtain ⟨k, u, c, hu, hdone⟩ := check_ends hstart hexit
  have hc : c = true ↔ Clean s b t.mem fun _ _ _ => True := by
    have hat := checked _ u hu
    rwa [hdone] at hat
  refine ⟨c, hc.trans hclean, ⟨k, u, hu, hdone⟩, ?_⟩
  intro l'' w c' hw' hend
  have hat := checked _ w hw'
  have hc' : c' = true ↔ Clean s b t.mem fun _ _ _ => True := by
    rcases hend with he | he <;> rwa [he] at hat
  exact Bool.eq_iff_iff.2 (hc'.trans hc.symm)

end Result

/-- pages with room for a struct and eight bytes more -/
def gapBoard : Board := ⟨40, by decide, 2 ^ 31, 0, above (2 ^ 31)⟩

def twoPages : Block gapBoard := ⟨5, 1, by decide, fun _ ha _ => decide_eq_true ((by decide : 2 ^ 31 ≤ 2147483848).trans ha)⟩

/-- two structs: the thread is through with its loops -/
def writtenRun : List (Ev gapBoard) :=
  [.init true, .init true] ++ List.replicate 5 (.thread none) ++ [.thread (some twoPages)] ++
    List.replicate 27 (.thread none)

/-- the thread is stopped, and memory is written from elsewhere -/
def stoppedAnd (mem : Mem) : List (MemEv gapBoard) :=
  [.module .exit, .module .exit, .module (.thread none), .module (.thread none), .module .exit] ++ [.others mem]

/-- the eight bytes between the structs are written -/
def gapFilled (mem : Mem) : Mem := fun a => if 2147483880 ≤ a ∧ a < 2147483888 then 1 else mem a

/-- the first byte of the second page is written -/
def wordChanged (mem : Mem) : Mem := fun a => if a = 2147483888 then 9 else mem a

/-- of two writes to the pages, the one to a word of the pattern is found -/
theorem pattern_changed : ∃ s t u : St gapBoard, Reaches 2 (fun _ => 0) writtenRun s ∧ s.nrPages = 2 ∧
    Run (Takes memStep) s (stoppedAnd (gapFilled s.mem)) t ∧ Run (Takes memStep) s (stoppedAnd (wordChanged s.mem)) u ∧
    (∃ k v, Run (Takes step) t (List.replicate k .exit) v ∧ v.exit = .done true) ∧
    ∃ k v, Run (Takes step) u (List.replicate k .exit) v ∧ v.exit = .done false := by
  have hobs : (writtenRun.foldlM step (start 2 fun _ => 0)).map (fun s : St gapBoard =>
      (s.pages, place? s, s.nrPages, s.nrStructsPerPage, load s.mem (twoPages.addr 1 0 0),
        load (wordChanged s.mem) (twoPages.addr 1 0 0))) =
      some (some twoPages, some (.fn .sched), 2#32, 1#32, 8#32, 9#32) := by decide +kernel
  have hobs' : ((writtenRun.foldlM step (start 2 fun _ => 0)).bind fun s : St gapBoard =>
      (stoppedAnd s.mem).foldlM memStep s).map St.exit = some .phys := by decide +kernel
  obtain ⟨s, hs, ho⟩ := Option.map_eq_some_iff.1 hobs
  simp only [Prod.mk.injEq] at ho
  obtain ⟨hpages, hplace, hnr, hper, hword, hchanged⟩ := ho
  rw [hs, Option.bind_some] at hobs'
  have hr : Reaches 2 (fun _ => 0) writtenRun s := run_takes_iff.2 hs
  have hw : Written s twoPages := ⟨hpages, _, hplace, trivial⟩
  -- what others write does not matter until the check
  have stops : ∀ mem, ∃ t, Run (Takes memStep) s (stoppedAnd mem) t ∧ t.exit = .phys ∧ t.mem = mem := by
    intro mem
    obtain ⟨t, ht, hexit⟩ := Option.map_eq_some_iff.1 hobs'
    obtain ⟨v, hv, hlast⟩ := run_append_iff.1 (run_takes_iff.2 ht)
    obtain ⟨w, hw, hnil⟩ := run_cons_iff.1 hlast
    obtain rfl := run_nil_iff.1 hnil
    obtain rfl := Option.some.inj hw
    exact ⟨{ v with mem := mem }, run_append_iff.2 ⟨v, hv, .cons rfl (.nil _)⟩, hexit, rfl⟩
  obtain ⟨t, ht, hexit, hmem⟩ := stops (gapFilled s.mem)
  obtain ⟨u, hu, hexit', hmem'⟩ := stops (wordChanged s.mem)
  obtain ⟨-, -, c, hc, ⟨k, v, hv, hdone⟩, -⟩ := pattern_verified hr hw ht hexit
  obtain ⟨-, -, c', hc', ⟨k', v', hv', hdone'⟩, -⟩ := pattern_verified hr hw hu hexit'
  refine ⟨s, t, u, hr, hnr, ht, hu, ⟨k, v, hv, ?_⟩, k', v', hv', ?_⟩
  · have hsame : Unchanged s t twoPages := by
      intro i j k hcov
      have haddr := ((reaches_pattern hr hpages).written hw).1.addr_eq hcov
      obtain ⟨hi, hj, hk⟩ := hcov
      rw [hnr] at hi
      rw [hper] at hj
      have hi : i < 2 := hi
      have hj : j < 1 := hj
      have hbase : twoPages.base = 2147483848 := rfl
      have hsize : gapBoard.pageSize = 40 := rfl
      rw [hbase, hsize] at haddr
      simp only [structSize, arrSize] at haddr hk
      rw [hmem]
      refine load_congr fun x hx => if_neg ?_
      omega
    rw [hdone, hc.2 hsame]
  · have hdiffers : ¬ Unchanged s u twoPages := by
      intro h
      have hsame := h 1 0 0 ⟨by rw [hnr]; decide, by rw [hper]; decide, by decide⟩
      rw [hmem', hword, hchanged] at hsame
      exact absurd hsame (by decide)
    rw [hdone', Bool.eq_false_iff.2 fun h => hdiffers (hc'.1 h)]

end Cse422.KernelMemory
