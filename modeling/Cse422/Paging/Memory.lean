/-
What the mapped memory is to the programs that use it: each process has a memory of its own.

The private machine (`privateStep`) has no physical pages. It keeps one value for each address of each address space,
and an access reaches that value if the address is mapped. The machine of page contents (`cellStep`) keeps one value
for each byte of each physical page, and an access goes through the page tables.

Results:
- `coherent_step`, `agrees_step`: as long as no close of the last VMA of a mapping leaves a page mapped elsewhere, the
  page tables lead from different addresses to different allocated pages, and the two machines stay in agreement;
- `private_iff`: the values read are those of the private machine, at every moment of a run and after any more events
  without a close, if and only if every close that drops a reference count to zero is one of a VMA that has all mapped
  pages. The other direction is an attack: from the first close that breaks the condition, a process that maps memory
  next is given the page of another process, which then reads what the new owner writes.
-/
import Cse422.Paging.Demand
import Cse422.Paging.FaultOutcome
import Cse422.Paging.Isolation
import Cse422.Paging.Residue

namespace Cse422.Paging

/-! ## The private machine -/

structure PrivateSt (α : Type) where
  st : St
  /-- the value at each address of each address space -/
  mem : ℕ → ℕ → α
  clock : ℕ
  /-- the values read so far, latest first -/
  reads : List α

/-- the address space of a VMA, if the address belongs to a mapped page of it -/
def reachable (s : St) (id va : ℕ) : Option ℕ :=
  match vmaOf s id with
  | none => none
  | some vma =>
    if vma.range.start ≤ va ∧ va < vma.range.stop ∧ s.pte vma.mm (pageBase va) ≠ none then some vma.mm else none

/-- the contents a page appears with, when it is mapped at an address that was not mapped before -/
def appear {α : Type} (s t : St) (fill : ℕ → ℕ → α) (mem : ℕ → ℕ → α) (mm va : ℕ) : α :=
  match s.pte mm (pageBase va), t.pte mm (pageBase va) with
  | none, some p => fill p (va % pageSize)
  | _, _ => mem mm va

section Machine

variable {α : Type}

def privateStep (old : ℕ → ℕ → ℕ → α) (put : UInt8 → α) (n : PrivateSt α) : UserOp → Except Oops (PrivateSt α)
  | .kernel o => (step n.st o).map fun t => { n with
      st := t, mem := appear n.st t (old n.clock) n.mem, clock := n.clock + 1 }
  | .write id va x =>
    match reachable n.st id va with
    | none => .ok { n with clock := n.clock + 1 }
    | some mm => .ok { n with
        mem := fun m a => if m = mm ∧ a = va then put x else n.mem m a
        clock := n.clock + 1 }
  | .read id va =>
    match reachable n.st id va with
    | none => .ok { n with clock := n.clock + 1 }
    | some mm => .ok { n with reads := n.mem mm va :: n.reads, clock := n.clock + 1 }

def privateRun (old : ℕ → ℕ → ℕ → α) (put : UInt8 → α) (n : PrivateSt α) (ops : List UserOp) :
    Except Oops (PrivateSt α) := ops.foldlM (privateStep old put) n

/-- right after loading no address is mapped -/
def privateInit (d : ℕ) (mem : ℕ → ℕ → α) : PrivateSt α := ⟨init d, mem, 0, []⟩

end Machine

/-! ## Coherent page tables -/

/-- what is mapped lies in a live VMA, is an allocated page, and is mapped nowhere else -/
structure Coherent (s : St) : Prop where
  within : ∀ m a p, s.pte m a = some p → ∃ v ∈ s.vmas, v.mm = m ∧ v.range.start ≤ a ∧ a < v.range.stop
  aligned : ∀ m a p, s.pte m a = some p → pageSize ∣ a
  backed : ∀ m a p, s.pte m a = some p → p ∈ s.pages
  single : ∀ m a m' a' p, s.pte m a = some p → s.pte m' a' = some p → m = m' ∧ a = a'

/-- a close that drops a reference count to zero leaves nothing mapped outside of the VMA it closes -/
def ClosesAlone (s : St) (o : Op) (_ : St) : Prop :=
  ∀ id v x, o = .close id → vmaOf s id = some v → v.vmPrivateData = some x → atomicDec (s.refCount x) = 0 →
    ∀ m a, s.pte m a ≠ none → m = v.mm ∧ v.range.start ≤ a ∧ a < v.range.stop

theorem coherent_init (d : ℕ) : Coherent (init d) := by
  constructor <;> simp [init]

/-- `u` is `s` with pages installed in the range of the VMA, each of them new -/
structure Filled (vma : VmArea) (s u : St) : Prop where
  vmas : u.vmas = s.vmas
  pages : ∀ p ∈ s.pages, p ∈ u.pages
  old : ∀ m a p, u.pte m a = some p → s.pte m a = some p ∨
    (p ∉ s.pages ∧ p ∈ u.pages ∧ m = vma.mm ∧ vma.range.start ≤ a ∧ a < vma.range.stop ∧ pageSize ∣ a)
  kept : ∀ m a, ¬ (m = vma.mm ∧ vma.range.start ≤ a ∧ a < vma.range.stop) → u.pte m a = s.pte m a
  single : ∀ m a m' a' p, u.pte m a = some p → u.pte m' a' = some p → m = m' ∧ a = a'

theorem filled_refl {s : St} (vma : VmArea) (h : Coherent s) : Filled vma s s where
  vmas := rfl
  pages _ hp := hp
  old _ _ _ hp := Or.inl hp
  kept _ _ _ := rfl
  single := h.single

/-- one more page, at an address of the range -/
theorem filled_installed {s u : St} {vma : VmArea} {b hint nodeHint : ℕ} (hs : Coherent s) (h : Filled vma s u)
    (h1 : vma.range.start ≤ b) (h2 : b < vma.range.stop) (hd : pageSize ∣ b) :
    Filled vma s (installed u vma b hint nodeHint) := by
  have hfresh := fresh_notMem u.pages hint
  have hbacked : ∀ m a p, u.pte m a = some p → p ∈ u.pages := by
    intro m a p hp
    rcases h.old m a p hp with hp | ⟨-, hp, -⟩
    · exact h.pages p (hs.backed m a p hp)
    · exact hp
  refine ⟨h.vmas, fun p hp => List.mem_cons_of_mem _ (h.pages p hp), ?_, ?_, ?_⟩
  · intro m a p hp
    simp only [installed] at hp ⊢
    split_ifs at hp with hc
    · obtain ⟨rfl, rfl⟩ := hc
      cases hp
      exact Or.inr ⟨fun hm => hfresh (h.pages _ hm), List.mem_cons_self, rfl, h1, h2, hd⟩
    · rcases h.old m a p hp with hp | ⟨h3, h4, h5⟩
      · exact Or.inl hp
      · exact Or.inr ⟨h3, List.mem_cons_of_mem _ h4, h5⟩
  · intro m a hc
    simp only [installed]
    rw [if_neg, h.kept m a hc]
    rintro ⟨rfl, rfl⟩
    exact hc ⟨rfl, h1, h2⟩
  · intro m a m' a' p hp hp'
    simp only [installed] at hp hp'
    split_ifs at hp hp' with hc hc' hc'
    · exact ⟨hc.1.trans hc'.1.symm, hc.2.trans hc'.2.symm⟩
    · cases hp
      exact absurd (hbacked m' a' _ hp') hfresh
    · cases hp'
      exact absurd (hbacked m a _ hp) hfresh
    · exact h.single m a m' a' p hp hp'

theorem prepage_filled {s t : St} {vma : VmArea} {e : ℕ → FaultEnv} {j : ℕ} {r : ℤ} {u : St} (hs : Coherent s)
    (h : prepage u vma e j (vma.range.page j) = .ok (r, t)) (hu : Filled vma s u) : Filled vma s t := by
  induction hn : vma.range.pages - j using Nat.strong_induction_on generalizing u j with
  | _ n ih =>
    rcases prepage_ok h with ⟨-, -, rfl⟩ | ⟨-, -, -, rfl⟩ | ⟨hlt, -, hint, nodeHint, h⟩
    · exact hu
    · exact hu
    · have hj := VmRange.page_lt_stop.1 hlt
      rw [VmRange.pageAlign_page hj, VmRange.page_succ] at h
      exact ih _ (by omega) h
        (filled_installed hs hu (Nat.le_add_right _ _) hlt (vma.range.dvd_page j)) rfl

/-- a `paging_mmap` that returns a VMA with a `pa_state_struct` has filled part of its range -/
theorem pagingMmap_filled {s u : St} {vma : VmArea} {e : MmapEnv} {r : ℤ} {x : ℕ} (hs : Coherent s)
    (h : pagingMmap s vma e = .ok (r, attach vma x, u)) : Filled (attach vma x) s u := by
  cases hk : e.kmalloc with
  | none =>
    rw [pagingMmap_enomem hk] at h
    simp only [Except.ok.injEq, Prod.mk.injEq] at h
    obtain ⟨-, -, rfl⟩ := h
    exact filled_refl _ hs
  | some hint =>
    have hpas : Coherent (withPas s (kmallocAddr s hint)) := ⟨hs.within, hs.aligned, hs.backed, hs.single⟩
    by_cases hd : s.demandPaging = 0
    · rw [pagingMmap_prepage hk hd, map_ok] at h
      obtain ⟨⟨r', t⟩, hp, he⟩ := h
      simp only [Prod.mk.injEq] at he
      obtain ⟨rfl, hvma, rfl⟩ := he
      have hx : kmallocAddr s hint = x := by simpa [attach] using hvma
      subst hx
      rw [← VmRange.page_zero] at hp
      have hf := prepage_filled hpas hp (filled_refl (attach vma (kmallocAddr s hint)) hpas)
      exact ⟨hf.vmas, hf.pages, hf.old, hf.kept, hf.single⟩
    · rw [pagingMmap_demand hk hd] at h
      simp only [Except.ok.injEq, Prod.mk.injEq] at h
      obtain ⟨-, -, rfl⟩ := h
      have hf := filled_refl (attach vma x) hpas
      exact ⟨hf.vmas, hf.pages, hf.old, hf.kept, hf.single⟩

/-! ## What a step does to the page tables -/

/-- every entry after the step was there before it, or is a new page at an address that was not mapped -/
def Entries (s t : St) : Prop :=
  ∀ m a p, t.pte m a = some p → s.pte m a = some p ∨ (s.pte m a = none ∧ p ∈ t.pages ∧ p ∉ s.pages)

/-- entries that stay are in order if each has a VMA around it and its page is still allocated -/
theorem Coherent.shrink {s t : St} (h : Coherent s) (hpte : ∀ m a p, t.pte m a = some p → s.pte m a = some p)
    (hpages : ∀ m a p, t.pte m a = some p → p ∈ t.pages)
    (hwithin : ∀ m a p, t.pte m a = some p → ∃ v ∈ t.vmas, v.mm = m ∧ v.range.start ≤ a ∧ a < v.range.stop) :
    Coherent t where
  within := hwithin
  aligned m a p hp := h.aligned m a p (hpte m a p hp)
  backed := hpages
  single m a m' a' p hp hp' := h.single m a m' a' p (hpte m a p hp) (hpte m' a' p hp')

theorem zap_pte_some {s : St} {mm m a p : ℕ} {r : VmRange} (h : (zap s mm r).pte m a = some p) :
    s.pte m a = some p ∧ ¬ (m = mm ∧ r.start ≤ a ∧ a < r.stop) := by
  simp only [zap] at h
  split_ifs at h with hc
  exact ⟨h, hc⟩

/-- nothing is mapped in a range without VMAs -/
theorem Coherent.unmapped {s : St} (h : Coherent s) {mm a : ℕ} {r : VmRange} (hu : Unused s mm r) (h1 : r.start ≤ a)
    (h2 : a < r.stop) : s.pte mm a = none := by
  by_contra hne
  obtain ⟨p, hp⟩ := Option.ne_none_iff_exists'.1 hne
  obtain ⟨v, hv, hm, h3, h4⟩ := h.within mm a p hp
  rcases hu v hv hm with h5 | h5 <;> omega

theorem zap_coherent {s : St} (mm : ℕ) (r : VmRange) (h : Coherent s) : Coherent (zap s mm r) :=
  h.shrink (fun _ _ _ hp => (zap_pte_some hp).1) (fun m a p hp => h.backed m a p (zap_pte_some hp).1)
    fun m a p hp => h.within m a p (zap_pte_some hp).1

section Effects

variable {s t u : St} {hint mm x : ℕ} {r : VmRange}

/-- a successful mmap -/
theorem mmapDone_coherent (h : Coherent s) (hu : Unused s mm r)
    (hf : Filled (attach (newVma s hint mm r) x) (zap s mm r) u) :
    Coherent { u with vmas := attach (newVma s hint mm r) x :: u.vmas } ∧
      Entries s { u with vmas := attach (newVma s hint mm r) x :: u.vmas } := by
  have hvmas : u.vmas = s.vmas := hf.vmas
  refine ⟨⟨?_, ?_, ?_, hf.single⟩, ?_⟩
  · intro m a p hp
    rcases hf.old m a p hp with hp | ⟨-, -, rfl, h1, h2, -⟩
    · obtain ⟨v, hv, hin⟩ := h.within m a p (zap_pte_some hp).1
      refine ⟨v, List.mem_cons_of_mem _ ?_, hin⟩
      rwa [hvmas]
    · exact ⟨_, List.mem_cons_self, rfl, h1, h2⟩
  · intro m a p hp
    rcases hf.old m a p hp with hp | ⟨-, -, -, -, -, hd⟩
    · exact h.aligned m a p (zap_pte_some hp).1
    · exact hd
  · intro m a p hp
    rcases hf.old m a p hp with hp | ⟨-, hp, -⟩
    · exact hf.pages p (h.backed m a p (zap_pte_some hp).1)
    · exact hp
  · intro m a p hp
    rcases hf.old m a p hp with hp | ⟨h1, h2, rfl, h3, h4, -⟩
    · exact Or.inl (zap_pte_some hp).1
    · exact Or.inr ⟨h.unmapped hu h3 h4, h2, h1⟩

/-- a failed mmap: the kernel unmaps the range -/
theorem mmapFailed_coherent (h : Coherent s) (hf : Filled (attach (newVma s hint mm r) x) (zap s mm r) u) :
    Coherent (zap { u with orphans := x :: u.orphans } mm r) ∧
      Entries s (zap { u with orphans := x :: u.orphans } mm r) := by
  have hpte : ∀ m a p, (zap { u with orphans := x :: u.orphans } mm r).pte m a = some p → s.pte m a = some p := by
    intro m a p hp
    obtain ⟨hp, hout⟩ := zap_pte_some hp
    rw [show u.pte m a = (zap s mm r).pte m a from hf.kept m a hout] at hp
    exact (zap_pte_some hp).1
  refine ⟨h.shrink hpte ?_ ?_, fun m a p hp => Or.inl (hpte m a p hp)⟩
  · intro m a p hp
    exact hf.pages p (h.backed m a p (hpte m a p hp))
  · intro m a p hp
    obtain ⟨v, hv, hin⟩ := h.within m a p (hpte m a p hp)
    exact ⟨v, show v ∈ u.vmas from hf.vmas ▸ hv, hin⟩

/-- a fault -/
theorem faulted_coherent {id addr nodeHint : ℕ} {vma : VmArea} (h : Coherent s) (hv : vmaOf s id = some vma)
    (h1 : vma.range.start ≤ addr) (h2 : addr < vma.range.stop) (h3 : s.pte vma.mm (pageBase addr) = none) :
    Coherent (installed s vma (pageBase addr) hint nodeHint) ∧
      Entries s (installed s vma (pageBase addr) hint nodeHint) := by
  have hstart := VmRange.start_le_pageBase h1
  have hstop := (pageBase_le addr).trans_lt h2
  have hf : Filled vma s (installed s vma (pageBase addr) hint nodeHint) :=
    filled_installed h (filled_refl vma h) hstart hstop (pageSize_dvd_pageBase addr)
  refine ⟨⟨?_, ?_, ?_, hf.single⟩, ?_⟩
  · intro m a p hp
    rcases hf.old m a p hp with hp | ⟨-, -, rfl, h4, h5, -⟩
    · exact h.within m a p hp
    · exact ⟨vma, (vmaOf_mem hv).1, rfl, h4, h5⟩
  · intro m a p hp
    rcases hf.old m a p hp with hp | ⟨-, -, -, -, -, hd⟩
    · exact h.aligned m a p hp
    · exact hd
  · intro m a p hp
    rcases hf.old m a p hp with hp | ⟨-, hp, -⟩
    · exact hf.pages p (h.backed m a p hp)
    · exact hp
  · intro m a p hp
    by_cases hc : m = vma.mm ∧ a = pageBase addr
    · obtain ⟨rfl, rfl⟩ := hc
      rcases hf.old _ _ p hp with hold | ⟨h4, h5, -⟩
      · exact Or.inl hold
      · exact Or.inr ⟨h3, h5, h4⟩
    · simp only [installed, if_neg hc] at hp
      exact Or.inl hp

/-- a split: an address of the VMA that was cut is in one of the two parts -/
theorem split_coherent {vma : VmArea} {lo hi : VmRange} {c new n : ℕ} (h : Coherent s)
    (hc : vma.range.cut c = some (lo, hi)) :
    Coherent { setCount s x n with
      vmas := { vma with id := new, range := hi } :: { vma with range := lo } :: s.vmas.erase vma } := by
  refine h.shrink (fun _ _ _ hp => hp) h.backed fun m a p hp => ?_
  obtain ⟨v, hv, hm, h1, h2⟩ := h.within m a p hp
  by_cases hvv : v = vma
  · subst hvv
    unfold VmRange.cut at hc
    split_ifs at hc with hcut
    cases hc
    by_cases hac : a < c
    · exact ⟨_, List.mem_cons_of_mem _ List.mem_cons_self, hm, h1, hac⟩
    · exact ⟨_, List.mem_cons_self, hm, Nat.le_of_not_lt hac, h2⟩
  · have hmem : v ∈ s.vmas.erase vma := (List.mem_erase_of_ne hvv).2 hv
    exact ⟨v, List.mem_cons_of_mem _ (List.mem_cons_of_mem _ hmem), hm, h1, h2⟩

/-- what is left mapped after a close is in another VMA -/
theorem Coherent.within_erase {vma : VmArea} {m a p : ℕ} (h : Coherent s)
    (hp : (zap s vma.mm vma.range).pte m a = some p) :
    ∃ v ∈ s.vmas.erase vma, v.mm = m ∧ v.range.start ≤ a ∧ a < v.range.stop := by
  obtain ⟨hp, hout⟩ := zap_pte_some hp
  obtain ⟨v, hv, rfl, h1, h2⟩ := h.within m a p hp
  refine ⟨v, (List.mem_erase_of_ne ?_).2 hv, rfl, h1, h2⟩
  rintro rfl
  exact hout ⟨rfl, h1, h2⟩

end Effects

/-- **Page tables.** A step keeps them coherent, and maps only new pages at addresses that were not mapped. -/
theorem coherent_step {s t : St} {o : Op} (hi : Inv s) (h : Coherent s) (ho : ClosesAlone s o t)
    (hs : step s o = .ok t) : Coherent t ∧ Entries s t := by
  have stays : ∀ {u : St}, u.pte = s.pte → Entries s u := by
    intro u hu m a p hp
    rw [hu] at hp
    exact Or.inl hp
  cases step_effect hi hs with
  | skip | faultFailed => exact ⟨h, stays rfl⟩
  | setDemandPaging => exact ⟨⟨h.within, h.aligned, h.backed, h.single⟩, stays rfl⟩
  | mmapNoMem =>
    refine ⟨zap_coherent _ _ (zap_coherent _ _ h), fun m a p hp => Or.inl ?_⟩
    exact (zap_pte_some (zap_pte_some hp).1).1
  | mmapDone hu _ hm _ => exact mmapDone_coherent h hu (pagingMmap_filled (zap_coherent _ _ h) hm)
  | mmapFailed _ _ hm _ _ => exact mmapFailed_coherent h (pagingMmap_filled (zap_coherent _ _ h) hm)
  | faulted hv h1 h2 h3 _ _ _ => exact faulted_coherent h hv h1 h2 h3
  | split hv hc hx => exact ⟨split_coherent h hc, stays rfl⟩
  | @closeShared id x vma hv hx hl =>
    refine ⟨h.shrink (fun _ _ _ hp => (zap_pte_some hp).1) ?_ fun _ _ _ hp => h.within_erase hp, ?_⟩
    · exact fun m a p hp => h.backed m a p (zap_pte_some hp).1
    · exact fun m a p hp => Or.inl (zap_pte_some hp).1
  | @closeLast id x vma hv hx hl =>
    -- the page list is emptied: the condition says that nothing is left mapped
    have hcount := hi.refs.of_private (vmaOf_mem hv).1 hx
    have h0 : atomicDec (s.refCount x) = 0 := by rw [hcount.2.2.1, hi.refs.atomicDec_live hcount.2.2.2, hl]
    have hnone : ∀ m a p, (tornDown (zap s vma.mm vma.range) x).pte m a ≠ some p := by
      intro m a p hp
      obtain ⟨hp, hout⟩ := zap_pte_some hp
      exact hout (ho id vma x rfl hv hx h0 m a (by simp [hp]))
    refine ⟨⟨?_, ?_, ?_, ?_⟩, ?_⟩ <;> intro m a
    · exact fun p hp => absurd hp (hnone m a p)
    · exact fun p hp => absurd hp (hnone m a p)
    · exact fun p hp => absurd hp (hnone m a p)
    · exact fun _ _ p hp => absurd hp (hnone m a p)
    · exact fun p hp => absurd hp (hnone m a p)

/-! ## Agreement of the two machines -/

/-- the kernel events among the events of a run -/
def kernelOps : List UserOp → List Op := List.filterMap fun
  | .kernel o => some o
  | _ => none

/-- the two machines have done the same, and agree on every mapped byte -/
structure Agrees {α : Type} (m : CellSt α) (n : PrivateSt α) : Prop where
  st : n.st = m.st
  clock : n.clock = m.clock
  reads : n.reads = m.reads
  bytes : ∀ mm va p, m.st.pte mm (pageBase va) = some p → m.cells p (va % pageSize) = n.mem mm va

theorem translate_eq_some {s : St} {id va : ℕ} {q : ℕ × ℕ} (h : translate s id va = some q) :
    ∃ mm, reachable s id va = some mm ∧ s.pte mm (pageBase va) = some q.1 ∧ q.2 = va % pageSize := by
  unfold translate at h
  split at h
  · cases h
  · rename_i vma hv
    split_ifs at h with hr
    obtain ⟨p, hp, rfl⟩ := Option.map_eq_some_iff.1 h
    refine ⟨vma.mm, ?_, hp, rfl⟩
    simp [reachable, hv, hr, hp]

theorem translate_eq_none {s : St} {id va : ℕ} (h : translate s id va = none) : reachable s id va = none := by
  unfold reachable
  cases hv : vmaOf s id with
  | none => rfl
  | some vma =>
    simp only [translate, hv] at h
    refine if_neg fun hc => ?_
    rw [if_pos ⟨hc.1, hc.2.1⟩] at h
    exact hc.2.2 (Option.map_eq_none_iff.1 h)

/-- an address is its page and its offset -/
theorem eq_of_page_offset {va va' : ℕ} (h1 : pageBase va = pageBase va') (h2 : va % pageSize = va' % pageSize) :
    va = va' := by
  simp only [pageBase, pageSize] at *
  omega

section Agreement

variable {α : Type} {old : ℕ → ℕ → ℕ → α} {put : UInt8 → α} {m m' : CellSt α} {n : PrivateSt α}

/-- **Step agreement.** -/
theorem agrees_step {o : UserOp} (h : Agrees m n) (hco : Coherent m.st)
    (hent : ∀ k t, o = .kernel k → step m.st k = .ok t → Entries m.st t) (hs : cellStep old put m o = .ok m') :
    ∃ n', privateStep old put n o = .ok n' ∧ Agrees m' n' := by
  obtain ⟨st, mem, clock, reads⟩ := n
  obtain ⟨hst, hclock, hreads, hbytes⟩ := h
  simp only at hst hclock hreads hbytes
  subst hst hclock hreads
  cases o with
  | kernel k =>
    obtain ⟨t, ht, rfl⟩ := map_ok.1 hs
    refine ⟨⟨t, appear m.st t (old m.clock) mem, m.clock + 1, m.reads⟩, ?_, rfl, rfl, rfl, fun mm va p hp => ?_⟩
    · simp [privateStep, ht, Except.map]
    · simp only at hp ⊢
      rcases hent k t rfl ht mm (pageBase va) p hp with hold | ⟨hnone, hpt, hps⟩
      · rw [if_neg fun hc => hc.2 (hco.backed mm _ p hold), hbytes mm va p hold]
        simp [appear, hold]
      · rw [if_pos ⟨hpt, hps⟩]
        simp [appear, hnone, hp]
  | write id va x =>
    cases hq : translate m.st id va with
    | none =>
      simp only [cellStep, hq, Except.ok.injEq] at hs
      subst hs
      refine ⟨⟨m.st, mem, m.clock + 1, m.reads⟩, ?_, rfl, rfl, rfl, hbytes⟩
      simp [privateStep, translate_eq_none hq]
    | some q =>
      obtain ⟨mm, hreach, hpte, hoff⟩ := translate_eq_some hq
      obtain ⟨p, i⟩ := q
      simp only [cellStep, hq, Except.ok.injEq] at hs
      subst hs
      refine ⟨⟨m.st, fun m' a => if m' = mm ∧ a = va then put x else mem m' a, m.clock + 1, m.reads⟩, ?_, rfl, rfl,
        rfl, fun mm' va' p' hp' => ?_⟩
      · simp [privateStep, hreach]
      · -- one physical byte, one address
        have hiff : p' = p ∧ va' % pageSize = i ↔ mm' = mm ∧ va' = va := by
          constructor
          · rintro ⟨rfl, hi⟩
            obtain ⟨rfl, hbase⟩ := hco.single _ _ _ _ _ hp' hpte
            exact ⟨rfl, eq_of_page_offset hbase (hi.trans hoff)⟩
          · rintro ⟨rfl, rfl⟩
            exact ⟨Option.some.inj (hp'.symm.trans hpte), hoff.symm⟩
        simp only [hiff]
        split_ifs
        · rfl
        · exact hbytes mm' va' p' hp'
  | read id va =>
    cases hq : translate m.st id va with
    | none =>
      simp only [cellStep, hq, Except.ok.injEq] at hs
      subst hs
      refine ⟨⟨m.st, mem, m.clock + 1, m.reads⟩, ?_, rfl, rfl, rfl, hbytes⟩
      simp [privateStep, translate_eq_none hq]
    | some q =>
      obtain ⟨mm, hreach, hpte, hoff⟩ := translate_eq_some hq
      obtain ⟨p, i⟩ := q
      simp only [cellStep, hq, Except.ok.injEq] at hs
      subst hs
      refine ⟨⟨m.st, mem, m.clock + 1, mem mm va :: m.reads⟩, ?_, rfl, rfl, ?_, hbytes⟩
      · simp [privateStep, hreach]
      · simp only at hpte hoff ⊢
        rw [hoff, hbytes mm va p hpte]

/-- the control state of a run of contents is that of its kernel events -/
theorem cellRun_st (old : ℕ → ℕ → ℕ → α) (put : UInt8 → α) (m : CellSt α) (ops : List UserOp) :
    (cellRun old put m ops).map CellSt.st = run m.st (kernelOps ops) := by
  induction ops generalizing m with
  | nil => rfl
  | cons o ops ih =>
    simp only [cellRun, List.foldlM_cons] at ih ⊢
    cases o with
    | kernel k =>
      simp only [cellStep, kernelOps, List.filterMap_cons, run, List.foldlM_cons]
      cases step m.st k with
      | error e => rfl
      | ok t => exact ih _
    | write id va x =>
      simp only [cellStep, kernelOps, List.filterMap_cons]
      split
      · exact ih _
      · exact ih _
    | read id va =>
      simp only [cellStep, kernelOps, List.filterMap_cons]
      split
      · exact ih _
      · exact ih _

/-- **Run agreement.** When every close meets the condition, the machines stay in agreement. -/
theorem agrees_run {ops : List UserOp} (h : Agrees m n) (hi : Inv m.st) (hco : Coherent m.st)
    (hC : Lts.Along (Lts.Ok step) ClosesAlone m.st (kernelOps ops)) (hr : cellRun old put m ops = .ok m') :
    ∃ n', privateRun old put n ops = .ok n' ∧ Agrees m' n' ∧ Inv m'.st ∧ Coherent m'.st := by
  induction ops generalizing m n with
  | nil =>
    cases hr
    exact ⟨n, rfl, h, hi, hco⟩
  | cons o ops ih =>
    simp only [cellRun, List.foldlM_cons] at hr
    obtain ⟨u, hu, hrest⟩ := bind_ok.1 hr
    -- what the event does to the control state
    have hstep : (∃ k t, o = .kernel k ∧ step m.st k = .ok t ∧ u.st = t) ∨ ((∀ k, o ≠ .kernel k) ∧ u.st = m.st) := by
      cases o with
      | kernel k =>
        obtain ⟨t, ht, rfl⟩ := map_ok.1 hu
        exact Or.inl ⟨k, t, rfl, ht, rfl⟩
      | write id va x =>
        simp only [cellStep] at hu
        split at hu <;> cases hu <;> exact Or.inr ⟨by simp, rfl⟩
      | read id va =>
        simp only [cellStep] at hu
        split at hu <;> cases hu <;> exact Or.inr ⟨by simp, rfl⟩
    rcases hstep with ⟨k, t, rfl, ht, rfl⟩ | ⟨hk, hst⟩
    · obtain ⟨hck, hC⟩ := Lts.along_cons.1 hC _ ht
      obtain ⟨hco', hent⟩ := coherent_step hi hco hck ht
      have hent' : ∀ k' t', UserOp.kernel k = .kernel k' → step m.st k' = .ok t' → Entries m.st t' := by
        rintro k' t' hkk ht'
        cases hkk
        obtain rfl := Except.ok.inj (ht.symm.trans ht')
        exact hent
      obtain ⟨v, hv, hav⟩ := agrees_step h hco hent' hu
      obtain ⟨n', hn', hend⟩ := ih hav (step_inv hi ht) hco' hC hrest
      exact ⟨n', bind_ok.2 ⟨v, hv, hn'⟩, hend⟩
    · obtain ⟨v, hv, hav⟩ := agrees_step h hco (fun k _ hkk => absurd hkk (hk k)) hu
      have hops : kernelOps (o :: ops) = kernelOps ops := by
        cases o with
        | kernel k => exact absurd rfl (hk k)
        | write | read => rfl
      rw [hops, ← hst] at hC
      obtain ⟨n', hn', hend⟩ := ih hav (hst ▸ hi) (hst ▸ hco) hC hrest
      exact ⟨n', bind_ok.2 ⟨v, hv, hn'⟩, hend⟩

end Agreement

/-! ## Exactly when -/

/-- no VMA is closed -/
def UserOp.KeepsVmas : UserOp → Prop
  | .kernel (.close _) => False
  | _ => True

/-- a run of the private machine over bytes -/
def privateMemRun (d : ℕ) (old : ℕ → ℕ → ℕ → UInt8) (mem : ℕ → ℕ → UInt8) (ops : List UserOp) :
    Except Oops (PrivateSt UInt8) :=
  privateRun old id (privateInit d mem) ops

/-- at every point of the events, and after any more events without a close, the values read are those of the private
machine -/
def PrivateMemory (d : ℕ) (ops : List UserOp) : Prop :=
  ∀ ops₁, ops₁ <+: ops → ∀ ops₂, (∀ o ∈ ops₂, o.KeepsVmas) → ∀ old mem mem' m n,
    memRun d old mem (ops₁ ++ ops₂) = .ok m → privateMemRun d old mem' (ops₁ ++ ops₂) = .ok n → m.reads = n.reads

theorem agrees_init (d : ℕ) (mem mem' : ℕ → ℕ → UInt8) : Agrees (cellInit d mem) (privateInit d mem') :=
  ⟨rfl, rfl, rfl, by simp [cellInit, init]⟩

/-- a run whose closes all meet the condition is in agreement with the private machine -/
theorem agrees_of_along {d : ℕ} {old : ℕ → ℕ → ℕ → UInt8} {mem : ℕ → ℕ → UInt8} (mem' : ℕ → ℕ → UInt8)
    {ops : List UserOp} {m : CellSt UInt8} (hC : Lts.Along (Lts.Ok step) ClosesAlone (init d) (kernelOps ops))
    (hm : memRun d old mem ops = .ok m) :
    ∃ n, privateMemRun d old mem' ops = .ok n ∧ Agrees m n ∧ Inv m.st ∧ Coherent m.st :=
  agrees_run (agrees_init d mem mem') (inv_init d) (coherent_init d) hC hm

theorem along_keepsVmas {s : St} {ops : List UserOp} (h : ∀ o ∈ ops, o.KeepsVmas) :
    Lts.Along (Lts.Ok step) ClosesAlone s (kernelOps ops) := by
  have hk : ∀ k ∈ kernelOps ops, ∀ id, k ≠ .close id := by
    rintro k hk id rfl
    obtain ⟨o, ho, hok⟩ := List.mem_filterMap.1 hk
    cases o with
    | kernel k' =>
      cases hok
      exact h _ ho
    | write | read => cases hok
  intro l₁ o l₂ u v hl _ _ id w x ho
  exact absurd ho (hk o (by simp [hl]) id)

/-! ## The attack -/

theorem vmaOf_of_mem {s : St} (h : Refs s) {v : VmArea} (hv : v ∈ s.vmas) : vmaOf s v.id = some v := by
  obtain ⟨w, hw⟩ : ∃ w, vmaOf s v.id = some w := by
    cases hf : vmaOf s v.id with
    | some w => exact ⟨w, rfl⟩
    | none => exact absurd (by simp) (List.find?_eq_none.1 hf v hv)
  obtain ⟨hmem, hid⟩ := vmaOf_mem hw
  rw [hw, List.inj_on_of_nodup_map h.ids hmem hv hid]

/-- an address space that no live VMA belongs to -/
def newMm (s : St) : ℕ := fresh (s.vmas.map VmArea.mm) 0

theorem unused_newMm (s : St) (r : VmRange) : Unused s (newMm s) r := by
  intro v hv hm
  exact absurd (List.mem_map.2 ⟨v, hv, hm⟩) (fresh_notMem _ _)

/-- a new process maps two pages, faults in the first one, which is the page `p`, and writes to it; then the VMA `id` is
read at `va` -/
def recycle (s : St) (p id va : ℕ) (x : UInt8) : List UserOp :=
  [.kernel (.setDemandPaging 1), .kernel (.mmap 0 (newMm s) twoPages ⟨some 0, fun _ => allSucceed⟩),
    .kernel (.fault (vmaAddr s 0) 4096 ⟨some p, true, some 0⟩), .write (vmaAddr s 0) 4096 x, .read id va]

/-- the kernel's part: the page `p` is mapped for the new process, and still mapped where it was -/
theorem recycle_kernel {s : St} (hi : Inv s) (hpages : s.pages = []) {w : VmArea} (hw : w ∈ s.vmas) {a p : ℕ}
    (hp : s.pte w.mm a = some p) :
    ∃ s₁ s₂ s₃ v, step s (.setDemandPaging 1) = .ok s₁ ∧
      step s₁ (.mmap 0 (newMm s) twoPages ⟨some 0, fun _ => allSucceed⟩) = .ok s₂ ∧
      step s₂ (.fault (vmaAddr s 0) 4096 ⟨some p, true, some 0⟩) = .ok s₃ ∧
      s₁.pte w.mm a = some p ∧ s₂.pte w.mm a = some p ∧ s₃.pte w.mm a = some p ∧ vmaOf s₃ w.id = some w ∧
      vmaOf s₃ (vmaAddr s 0) = some v ∧ v.mm ≠ w.mm ∧ v.range = twoPages ∧ s₃.pte v.mm 4096 = some p := by
  set s₁ : St := { s with demandPaging := 1 % wordSize }
  set x := kmallocAddr (zap s₁ (newMm s) twoPages) 0
  set v : VmArea := attach (newVma s₁ 0 (newMm s) twoPages) x
  set s₂ : St := { withPas (zap s₁ (newMm s) twoPages) x with vmas := v :: s.vmas }
  have hmm : w.mm ≠ newMm s := fun he => fresh_notMem (s.vmas.map VmArea.mm) 0 (List.mem_map.2 ⟨w, hw, he⟩)
  have hstep₁ : step s (.setDemandPaging 1) = .ok s₁ := rfl
  have hstep₂ : step s₁ (.mmap 0 (newMm s) twoPages ⟨some 0, fun _ => allSucceed⟩) = .ok s₂ := by
    have hu : Unused s₁ (newMm s) twoPages := unused_newMm s twoPages
    have hm : pagingMmap (zap s₁ (newMm s) twoPages) (newVma s₁ 0 (newMm s) twoPages) ⟨some 0, fun _ => allSucceed⟩ =
        .ok (0, v, withPas (zap s₁ (newMm s) twoPages) x) :=
      pagingMmap_demand rfl (by simp [s₁, zap, wordSize])
    simp only [step, if_pos hu]
    exact map_ok.2 ⟨_, hm, rfl⟩
  have hstep₃ : step s₂ (.fault (vmaAddr s 0) 4096 ⟨some p, true, some 0⟩) = .ok (installed s₂ v 4096 p 0) := by
    have hvof : vmaOf s₂ (vmaAddr s 0) = some v := by
      have hid : v.id = vmaAddr s 0 := rfl
      simp [vmaOf, s₂, hid]
    have hnone : (zap s₁ (newMm s) twoPages).pte (newMm s) 4096 = none := by simp [zap, twoPages]
    have hcond : v.range.start ≤ 4096 ∧ 4096 < v.range.stop ∧ s₂.pte v.mm (pageBase 4096) = none :=
      ⟨le_refl 4096, Nat.lt_of_sub_pos (n := 12288) (by decide), hnone⟩
    have hf : pagingVmaFault s₂ v (pageBase 4096) ⟨some p, true, some 0⟩ =
        .ok (VM_FAULT_NOPAGE, installed s₂ v (pageAlign (pageBase 4096)) p 0) := doFault_nopage rfl rfl rfl
    simp only [step, hvof, if_pos hcond]
    exact map_ok.2 ⟨_, hf, rfl⟩
  have hi₃ := step_inv (step_inv (step_inv hi hstep₁) hstep₂) hstep₃
  have hpage : fresh s₂.pages p = p := by
    have hempty : s₂.pages = [] := hpages
    simp [hempty, fresh]
  have hpte₂ : s₂.pte w.mm a = some p := by
    have hz : (zap s₁ (newMm s) twoPages).pte w.mm a = some p := by simp [zap, hmm, s₁, hp]
    exact hz
  have hne : ¬ (w.mm = v.mm ∧ a = 4096) := fun hc => hmm hc.1
  refine ⟨s₁, s₂, installed s₂ v 4096 p 0, v, hstep₁, hstep₂, hstep₃, hp, hpte₂, ?_,
    vmaOf_of_mem hi₃.refs (List.mem_cons_of_mem v hw), vmaOf_of_mem (v := v) hi₃.refs List.mem_cons_self, hmm.symm, rfl,
    ?_⟩
  · simp only [installed, if_neg hne]
    exact hpte₂
  · simp only [installed, and_self, if_true, hpage]

/-- **Attack.** When a page is mapped that the allocator holds to be free, a process that maps memory next is given that
page: what it writes is read through the old mapping. -/
theorem recycle_reads {s : St} (hi : Inv s) (hpages : s.pages = []) {w : VmArea} (hw : w ∈ s.vmas) {a p : ℕ}
    (h1 : w.range.start ≤ a) (h2 : a < w.range.stop) (hd : pageSize ∣ a) (hp : s.pte w.mm a = some p)
    (old : ℕ → ℕ → ℕ → UInt8) (x : UInt8) {c : CellSt UInt8} {n : PrivateSt UInt8} (hc : c.st = s) (hn : n.st = s) :
    (cellRun old id c (recycle s p w.id a x)).map CellSt.reads = .ok (x :: c.reads) ∧
      (privateRun old id n (recycle s p w.id a x)).map PrivateSt.reads = .ok (n.mem w.mm a :: n.reads) := by
  obtain ⟨s₁, s₂, s₃, v, hstep₁, hstep₂, hstep₃, hp₁, hp₂, hp₃, hw₃, hv₃, hmm, hrange, hv⟩ :=
    recycle_kernel hi hpages hw hp
  have hbase := pageBase_of_dvd hd
  have hoff : a % pageSize = 0 := Nat.mod_eq_zero_of_dvd hd
  have hbase' : pageBase 4096 = 4096 := rfl
  -- where the two accesses go
  have htw : translate s₃ (vmaAddr s 0) 4096 = some (p, 0) := by
    simp [translate, hv₃, hrange, twoPages, hbase', hv, pageSize]
  have htr : translate s₃ w.id a = some (p, 0) := by
    simp [translate, hw₃, h1, h2, hbase, hp₃, hoff]
  have hrw : reachable s₃ (vmaAddr s 0) 4096 = some v.mm := by
    simp [reachable, hv₃, hrange, twoPages, hbase', hv]
  have hrr : reachable s₃ w.id a = some w.mm := by
    simp [reachable, hw₃, h1, h2, hbase, hp₃]
  -- the address is mapped throughout, so the value of the private machine stays
  have happ : ∀ u u' (fill mem : ℕ → ℕ → UInt8), u.pte w.mm a = some p →
      appear u u' fill mem w.mm a = mem w.mm a := by
    intro u u' fill mem hu
    simp [appear, hbase, hu]
  have hother : ¬ (w.mm = v.mm ∧ a = 4096) := fun h => hmm h.1.symm
  constructor
  · simp [cellRun, recycle, cellStep, hc, hstep₁, hstep₂, hstep₃, htw, htr, Except.map, bind, Except.bind, pure,
      Except.pure]
  · simp [privateRun, recycle, privateStep, hn, hstep₁, hstep₂, hstep₃, hrw, hrr, Except.map, bind, Except.bind, pure,
      Except.pure, hother, happ _ _ _ _ hp, happ _ _ _ _ hp₁, happ _ _ _ _ hp₂]

/-! ## The result -/

theorem recycle_keepsVmas (s : St) (p id va : ℕ) (x : UInt8) : ∀ o ∈ recycle s p id va x, o.KeepsVmas := by
  simp [recycle, UserOp.KeepsVmas]

/-- an event of the kernel among the events of a run -/
theorem kernelOps_eq_append {ops : List UserOp} {l₁ l₂ : List Op} {k : Op} (h : kernelOps ops = l₁ ++ k :: l₂) :
    ∃ ops₁ ops₂, ops = ops₁ ++ .kernel k :: ops₂ ∧ kernelOps ops₁ = l₁ := by
  induction ops generalizing l₁ with
  | nil => simp [kernelOps] at h
  | cons o ops ih =>
    cases o with
    | kernel k' =>
      have h' : k' :: kernelOps ops = l₁ ++ k :: l₂ := h
      cases l₁ with
      | nil =>
        obtain ⟨rfl, -⟩ := List.cons.inj h'
        exact ⟨[], ops, rfl, rfl⟩
      | cons j l₁ =>
        obtain ⟨rfl, htail⟩ := List.cons.inj h'
        obtain ⟨ops₁, ops₂, rfl, rfl⟩ := ih htail
        exact ⟨.kernel k' :: ops₁, ops₂, rfl, rfl⟩
    | write id va x =>
      have h' : kernelOps ops = l₁ ++ k :: l₂ := h
      obtain ⟨ops₁, ops₂, rfl, rfl⟩ := ih h'
      exact ⟨.write id va x :: ops₁, ops₂, rfl, rfl⟩
    | read id va =>
      have h' : kernelOps ops = l₁ ++ k :: l₂ := h
      obtain ⟨ops₁, ops₂, rfl, rfl⟩ := ih h'
      exact ⟨.read id va :: ops₁, ops₂, rfl, rfl⟩

/-- the close of the last VMA of a mapping leaves the other VMAs, and what is mapped outside of its own range -/
theorem closesLast_leaves {s t : St} {id : ℕ} {v : VmArea} {x : ℕ} (h : Inv s) (hs : step s (.close id) = .ok t)
    (hv : vmaOf s id = some v) (hx : v.vmPrivateData = some x) (hl : live s x = 1) :
    t.vmas = s.vmas.erase v ∧ t.pte = (zap s v.mm v.range).pte := by
  cases step_effect h hs with
  | skip hd => exact absurd ⟨v, hv⟩ hd
  | closeShared hv' hx' hl' =>
    obtain rfl := Option.some.inj (hv.symm.trans hv')
    obtain rfl := Option.some.inj (hx.symm.trans hx')
    omega
  | closeLast hv' hx' hl' =>
    obtain rfl := Option.some.inj (hv.symm.trans hv')
    exact ⟨rfl, rfl⟩

/-- the attack, at the first close that breaks the condition -/
theorem along_of_private {d : ℕ} {ops : List UserOp} (h : PrivateMemory d ops) :
    Lts.Along (Lts.Ok step) ClosesAlone (init d) (kernelOps ops) := by
  by_contra hnot
  obtain ⟨l₁, o, l₂, u, t, hl, hfirst, hrun, hstep, hbroken⟩ := Lts.Along.exists_first hnot
  simp only [ClosesAlone, not_forall] at hbroken
  obtain ⟨vid, v, x, rfl, hv, hx, h0, m, a, hpte, hout⟩ := hbroken
  obtain ⟨ops₁, ops₂, rfl, rfl⟩ := kernelOps_eq_append hl
  -- up to the broken close the machines agree
  have hst := cellRun_st (fun _ _ _ => (0 : UInt8)) id (cellInit d fun _ _ => 0) ops₁
  rw [show run (cellInit d fun _ _ => (0 : UInt8)).st (kernelOps ops₁) = .ok u from Lts.run_foldlM_iff.1 hrun,
    map_ok] at hst
  obtain ⟨c, hc, rfl⟩ := hst
  obtain ⟨n, hn, hagree, hi, hco⟩ := agrees_of_along (fun _ _ => 0) hfirst hc
  -- the page that is left mapped
  obtain ⟨p, hp⟩ := Option.ne_none_iff_exists'.1 hpte
  obtain ⟨w, hw, rfl, h1, h2⟩ := hco.within m a p hp
  have hlast := hi.refs.live_eq_one (vmaOf_mem hv).1 hx h0
  obtain ⟨hvmas, htpte⟩ := closesLast_leaves hi hstep hv hx hlast
  have hwt : w ∈ t.vmas := by
    rw [hvmas]
    refine (List.mem_erase_of_ne ?_).2 hw
    rintro rfl
    exact hout ⟨rfl, h1, h2⟩
  have hpt : t.pte w.mm a = some p := by
    rw [htpte]
    simp only [zap, if_neg hout]
    exact hp
  have hpages := (closesLast_spec hi hstep ⟨vid, v, rfl, hv, hx, hlast⟩).1
  -- the close on both sides, then the attack
  set c' : CellSt UInt8 := { c with
    st := t
    cells := fun p i => if p ∈ t.pages ∧ p ∉ c.st.pages then 0 else c.cells p i
    clock := c.clock + 1 } with hc'
  set n' : PrivateSt UInt8 := { n with
    st := t, mem := appear n.st t (fun _ _ => 0) n.mem, clock := n.clock + 1 } with hn'
  obtain ⟨hreads, hreads'⟩ := recycle_reads (c := c') (n := n') (step_inv hi hstep) hpages hwt h1 h2
    (hco.aligned _ _ _ hp) hpt (fun _ _ _ => 0) (n'.mem w.mm a + 1) rfl rfl
  obtain ⟨e, he, her⟩ := map_ok.1 hreads
  obtain ⟨e', he', her'⟩ := map_ok.1 hreads'
  have hrunc : memRun d (fun _ _ _ => 0) (fun _ _ => 0)
      ((ops₁ ++ [.kernel (.close vid)]) ++ recycle t p w.id a (n'.mem w.mm a + 1)) = .ok e := by
    rw [memRun, cellRun, List.append_assoc, List.foldlM_append, bind_ok]
    refine ⟨c, hc, ?_⟩
    rw [List.singleton_append, List.foldlM_cons, bind_ok]
    exact ⟨c', map_ok.2 ⟨t, hstep, rfl⟩, he⟩
  have hrunn : privateMemRun d (fun _ _ _ => 0) (fun _ _ => 0)
      ((ops₁ ++ [.kernel (.close vid)]) ++ recycle t p w.id a (n'.mem w.mm a + 1)) = .ok e' := by
    rw [privateMemRun, privateRun, List.append_assoc, List.foldlM_append, bind_ok]
    refine ⟨n, hn, ?_⟩
    rw [List.singleton_append, List.foldlM_cons, bind_ok]
    exact ⟨n', map_ok.2 ⟨t, hagree.st ▸ hstep, rfl⟩, he'⟩
  have heq := h (ops₁ ++ [.kernel (.close vid)]) ⟨ops₂, by simp⟩ _ (recycle_keepsVmas _ _ _ _ _) _ _ _ _ _ hrunc hrunn
  rw [her, her'] at heq
  have hne := (List.cons.inj heq).1
  simp at hne

theorem private_of_along {d : ℕ} {ops : List UserOp}
    (hC : Lts.Along (Lts.Ok step) ClosesAlone (init d) (kernelOps ops)) : PrivateMemory d ops := by
  rintro ops₁ ⟨rest, hrest⟩ ops₂ hkeep old mem mem' m n hm hn
  have hsplit : kernelOps ops = kernelOps ops₁ ++ kernelOps rest := by
    rw [← hrest, kernelOps, List.filterMap_append]
  rw [hsplit] at hC
  have hall : Lts.Along (Lts.Ok step) ClosesAlone (init d) (kernelOps (ops₁ ++ ops₂)) := by
    rw [kernelOps, List.filterMap_append]
    exact hC.append_left.append fun u _ => along_keepsVmas hkeep
  obtain ⟨n₁, hn₁, hagree, -⟩ := agrees_of_along mem' hall hm
  obtain rfl := Except.ok.inj (hn.symm.trans hn₁)
  exact hagree.reads.symm

end Cse422.Paging
