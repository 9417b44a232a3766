/-
Concurrent faults. Any number of page faults run at once, on the same or on different pages of any live VMAs, from
any reachable state of the module.

- `faults_track`: in every run in which
  (1) no fault starts on a virtual page while another fault on it is between the kernel's look at the page-table entry
  and the return of `remap_pfn_range`,
  (2) no `list_add` reads the head while another is between its read and its write, and
  (3) the kmalloc of the node succeeds,
  no address is remapped that is already mapped, every fault's page stays the one mapped at its address, and every
  mapped page that no fault still holds is on `ref_page_list` exactly once;
- `fault_races`: without (1), two faults on one page both call `remap_pfn_range`; without (2), of the pages of two
  faults on different pages one is missing from the list.

The invariant is a proof outline (`Knows`, `Separate`): a fault that is about to map its page knows that the address is
still unmapped, and is the only one there; a page in the hands of a fault is not on the list and in no other hands;
and only one fault is between the two halves of `list_add`.

Premises: the kernel maps and unmaps nothing at these addresses while the faults run (no munmap, no other driver), and
`alloc_page` and `kmalloc` hand out nothing that is already handed out.
-/
import Cse422.Paging.Handlers

namespace Cse422.Paging

open Lts

/-! ## Where a fault can be -/

/-- the page a fault has taken from `alloc_page` and not yet put on the list -/
def FaultPc.held : FaultPc → Option ℕ
  | .remap pg | .kmalloc pg => some pg
  | .readHead n | .writeHead n _ => some n.page
  | _ => none

/-- the page a fault has mapped at its address -/
def FaultPc.installed : FaultPc → Option ℕ
  | .kmalloc pg | .inc pg | .done pg => some pg
  | .readHead n | .writeHead n _ => some n.page
  | _ => none

/-- between the two halves of `list_add` -/
def FaultPc.adding : FaultPc → Bool
  | .writeHead _ _ => true
  | _ => false

/-- the kernel has found the page unmapped, and `remap_pfn_range` has not been called -/
def FaultPc.waiting : FaultPc → Bool
  | .alloc | .remap _ => true
  | _ => false

/-- about to read the head in `list_add` -/
def FaultPc.reading : FaultPc → Bool
  | .readHead _ => true
  | _ => false

/-- about to call `kmalloc` for the node -/
def FaultPc.allocating : FaultPc → Bool
  | .kmalloc _ => true
  | _ => false

def SamePage (c d : Handler) : Prop := c.vma.mm = d.vma.mm ∧ c.va = d.va

instance {c d : Handler} : Decidable (SamePage c d) := inferInstanceAs (Decidable (_ ∧ _))

/-- the pages on the list -/
def St.listPages (s : St) : List ℕ := s.refPageList.map RefPageNode.page

/-! ## The property and the condition -/

structure FaultsGood (p : Pool FaultSt Handler) : Prop where
  noBug : p.shared.bug = false
  /-- the page a fault has installed is the one page mapped at its address -/
  installed : ∀ c ∈ p.locals, ∀ pg, c.pc.installed = some pg →
    p.shared.st.pte c.vma.mm c.va = some pg ∧ pg ∈ p.shared.st.pages
  /-- a fault that has found its page mapped leaves it mapped -/
  mapped : ∀ c ∈ p.locals, c.pc = .mapped → p.shared.st.pte c.vma.mm c.va ≠ none
  /-- a mapped page is on the list once, as soon as no fault holds it; a page that is mapped and free, which another
  mapping's teardown has left so, is not meant -/
  listed : ∀ m a pg, p.shared.st.pte m a = some pg → pg ∈ p.shared.st.pages →
    (∀ c ∈ p.locals, c.pc.held ≠ some pg) → p.shared.st.listPages.count pg = 1

/-- a fault starts only while no other fault on the page is on its way to map it, the head is read only while no other
`list_add` is between its two halves, and there is memory for the node -/
def NoClash (p : Pool FaultSt Handler) (i : ℕ × FaultEnv) (_ : Pool FaultSt Handler) : Prop :=
  ∀ a, p.locals[i.1]? = some a →
    (a.pc = .check → ∀ j c, j ≠ i.1 → p.locals[j]? = some c → SamePage c a → c.pc.waiting = false) ∧
    (a.pc.reading → ∀ j c, j ≠ i.1 → p.locals[j]? = some c → c.pc.adding = false) ∧
    (a.pc.allocating → i.2.kmalloc ≠ none)

instance {p q : Pool FaultSt Handler} {i : ℕ × FaultEnv} : Decidable (NoClash p i q) :=
  decidable_of_iff (∀ a ∈ p.locals[i.1]?,
    (a.pc = .check → ∀ j c, j ≠ i.1 → p.locals[j]? = some c → SamePage c a → c.pc.waiting = false) ∧
    (a.pc.reading → ∀ j c, j ≠ i.1 → p.locals[j]? = some c → c.pc.adding = false) ∧
    (a.pc.allocating → i.2.kmalloc ≠ none)) Iff.rfl

/-! ## The proof outline -/

/-- what a fault knows of the module -/
structure Knows (s : St) (c : Handler) : Prop where
  aligned : pageAlign c.va = c.va
  unmapped : c.pc.waiting → s.pte c.vma.mm c.va = none
  held : ∀ pg, c.pc.held = some pg → pg ∈ s.pages ∧ pg ∉ s.listPages
  installed : ∀ pg, c.pc.installed = some pg → s.pte c.vma.mm c.va = some pg
  listed : ∀ pg, c.pc.installed = some pg → c.pc.held = none → pg ∈ s.listPages
  mapped : c.pc = .mapped → s.pte c.vma.mm c.va ≠ none
  head : ∀ n next, c.pc = .writeHead n next → next = s.refPageList
  alive : c.pc ≠ .dead

/-- at most one of two faults on a page is about to map it, two faults hold different pages, and at most one of them is
in the middle of `list_add` -/
structure Separate (c d : Handler) : Prop where
  waiting : SamePage c d → c.pc.waiting → d.pc.waiting = false
  held : ∀ pg, c.pc.held = some pg → d.pc.held ≠ some pg
  adding : c.pc.adding → d.pc.adding = false

theorem Separate.symm {c d : Handler} (h : Separate c d) : Separate d c where
  waiting he hd := by
    by_contra hc
    have := h.waiting ⟨he.1.symm, he.2.symm⟩ (by simpa using hc)
    simp [hd] at this
  held pg hd hc := h.held pg hc hd
  adding hd := by
    by_contra hc
    have := h.adding (by simpa using hc)
    simp [hd] at this

structure FaultInv (p : Pool FaultSt Handler) : Prop where
  noBug : p.shared.bug = false
  pagesNodup : p.shared.st.pages.Nodup
  listNodup : p.shared.st.listPages.Nodup
  allocated : ∀ pg ∈ p.shared.st.listPages, pg ∈ p.shared.st.pages
  accounted : ∀ pg ∈ p.shared.st.pages, pg ∈ p.shared.st.listPages ∨ ∃ c ∈ p.locals, c.pc.held = some pg
  outline : Outline (Knows p.shared.st) Separate p.locals

theorem FaultInv.good {p : Pool FaultSt Handler} (h : FaultInv p) : FaultsGood p where
  noBug := h.noBug
  installed c hc pg hpg := by
    have hk := h.outline.each c hc
    refine ⟨hk.installed pg hpg, ?_⟩
    cases hh : c.pc.held with
    | none => exact h.allocated pg (hk.listed pg hpg hh)
    | some pg' =>
      have he : pg' = pg := by cases hpc : c.pc <;> simp_all [FaultPc.held, FaultPc.installed]
      exact he ▸ (hk.held pg' hh).1
  mapped c hc := (h.outline.each c hc).mapped
  listed m a pg _ hpg hheld := by
    rcases h.accounted pg hpg with hl | ⟨c, hc, hcp⟩
    · exact List.count_eq_one_of_mem h.listNodup hl
    · exact absurd hcp (hheld c hc)

/-! ## One step -/

section Step

variable {p : Pool FaultSt Handler} {s t : St} {i va : ℕ} {v : VmArea} {pc pc' : FaultPc} {c : Handler}

/-- a fault that holds no page and has installed none -/
theorem knows_idle (ha : pageAlign va = va) (hw : pc.waiting → s.pte v.mm va = none) (h1 : pc.held = none)
    (h2 : pc.installed = none) (h3 : pc ≠ .mapped) (h4 : pc.adding = false) (h5 : pc ≠ .dead) :
    Knows s ⟨v, va, pc⟩ where
  aligned := ha
  unmapped := hw
  held := by simp [h1]
  installed := by simp [h2]
  listed := by simp [h2]
  mapped h := absurd h h3
  head n next h := by simp [show pc = .writeHead n next from h, FaultPc.adding] at h4
  alive := h5

theorem Knows.congr (h : Knows s c) (hp : t.pages = s.pages) (hl : t.refPageList = s.refPageList)
    (ht : t.pte = s.pte) : Knows t c where
  aligned := h.aligned
  unmapped := by simpa only [ht] using h.unmapped
  held := by simpa only [St.listPages, hp, hl] using h.held
  installed := by simpa only [ht] using h.installed
  listed := by simpa only [St.listPages, hl] using h.listed
  mapped := by simpa only [ht] using h.mapped
  head := by simpa only [hl] using h.head
  alive := h.alive

/-- the outline after a step, when what the other faults know is stable -/
theorem outline_keeps {ls : List Handler} (h : Outline (Knows s) Separate ls) (hi : ls[i]? = some ⟨v, va, pc⟩)
    (own : Knows t ⟨v, va, pc'⟩)
    (keeps : ∀ j c, j ≠ i → ls[j]? = some c → Knows s c → Separate ⟨v, va, pc⟩ c →
      Knows t c ∧ Separate ⟨v, va, pc'⟩ c) : Outline (Knows t) Separate (ls.set i ⟨v, va, pc'⟩) :=
  h.set hi (fun _ _ => Separate.symm) own keeps fun _ _ _ _ _ _ _ _ _ hcd => hcd

/-- a page that was in the hands of a fault still is, when the stepping fault keeps its page -/
theorem held_set (hi : p.locals[i]? = some ⟨v, va, pc⟩) (hheld : pc'.held = pc.held) {pg : ℕ}
    (h : ∃ c ∈ p.locals, c.pc.held = some pg) : ∃ c ∈ p.locals.set i ⟨v, va, pc'⟩, c.pc.held = some pg := by
  obtain ⟨c, hc, hcp⟩ := h
  by_cases he : c = ⟨v, va, pc⟩
  · subst he
    exact ⟨_, mem_set_self hi, hheld.trans hcp⟩
  · exact ⟨c, mem_set_of_ne hi hc he, hcp⟩

/-- a step that changes neither pages nor page tables nor the list, by a fault that keeps what it has -/
theorem inv_same (h : FaultInv p) (hi : p.locals[i]? = some ⟨v, va, pc⟩) (hp : t.pages = p.shared.st.pages)
    (hl : t.refPageList = p.shared.st.refPageList) (ht : t.pte = p.shared.st.pte) (hheld : pc'.held = pc.held)
    (own : Knows t ⟨v, va, pc'⟩)
    (hwait : pc'.waiting → ∀ j c, j ≠ i → p.locals[j]? = some c → SamePage c ⟨v, va, pc⟩ → c.pc.waiting = false)
    (hadd : pc'.adding → ∀ j c, j ≠ i → p.locals[j]? = some c → c.pc.adding = false) :
    FaultInv ⟨⟨t, p.shared.bug⟩, p.locals.set i ⟨v, va, pc'⟩⟩ where
  noBug := h.noBug
  pagesNodup := by
    rw [hp]
    exact h.pagesNodup
  listNodup := by
    simp only [St.listPages, hl]
    exact h.listNodup
  allocated := by
    simp only [St.listPages, hl, hp]
    exact h.allocated
  accounted pg hpg := by
    simp only [St.listPages, hl]
    rw [hp] at hpg
    exact (h.accounted pg hpg).imp_right (held_set hi hheld)
  outline := by
    refine outline_keeps h.outline hi own (fun j c hji hj hc ha => ⟨hc.congr hp hl ht, ⟨?_, ?_, ?_⟩⟩)
    · exact fun he hw => hwait hw j c hji hj ⟨he.1.symm, he.2.symm⟩
    · rw [hheld]
      exact ha.held
    · exact fun hb => hadd hb j c hji hj

/-- `alloc_page` hands out a page -/
theorem inv_alloc {pg : ℕ} (h : FaultInv p) (hi : p.locals[i]? = some ⟨v, va, .alloc⟩) (hpg : pg ∉ p.shared.st.pages) :
    FaultInv ⟨⟨p.shared.st.addPage pg, p.shared.bug⟩, p.locals.set i ⟨v, va, .remap pg⟩⟩ := by
  have hown := h.outline.thread hi
  have hlist : pg ∉ p.shared.st.listPages := fun hm => hpg (h.allocated pg hm)
  refine ⟨h.noBug, List.nodup_cons.2 ⟨hpg, h.pagesNodup⟩, h.listNodup,
    fun q hq => List.mem_cons_of_mem _ (h.allocated q hq), fun q hq => ?_, ?_⟩
  · rcases List.mem_cons.1 hq with he | hq
    · exact Or.inr ⟨_, mem_set_self hi, congrArg some he.symm⟩
    · refine (h.accounted q hq).imp_right fun ⟨c, hc, hcp⟩ => ⟨c, mem_set_of_ne hi hc ?_, hcp⟩
      intro he
      simp [he, FaultPc.held] at hcp
  · have hnew : Knows (p.shared.st.addPage pg) ⟨v, va, .remap pg⟩ := by
      refine ⟨hown.aligned, fun _ => hown.unmapped rfl, fun q hq => ?_, by simp [FaultPc.installed],
        by simp [FaultPc.installed], by simp, by simp, by simp⟩
      cases hq
      exact ⟨List.mem_cons_self, hlist⟩
    refine outline_keeps h.outline hi hnew (fun j c hji hj hc ha => ⟨⟨hc.aligned, hc.unmapped, fun q hq => ?_,
      hc.installed, hc.listed, hc.mapped, hc.head, hc.alive⟩,
      ⟨fun he _ => ha.waiting he rfl, fun q hq hcq => ?_, by simp [FaultPc.adding]⟩⟩)
    · exact ⟨List.mem_cons_of_mem _ (hc.held q hq).1, (hc.held q hq).2⟩
    · cases hq
      exact hpg (hc.held pg hcq).1

/-- `remap_pfn_range` maps the page -/
theorem inv_remap {pg : ℕ} (h : FaultInv p) (hi : p.locals[i]? = some ⟨v, va, .remap pg⟩) :
    FaultInv ⟨⟨remapPage p.shared.st v va pg, p.shared.bug⟩, p.locals.set i ⟨v, va, .kmalloc pg⟩⟩ := by
  have hown := h.outline.thread hi
  have hheld : (FaultPc.kmalloc pg).held = (FaultPc.remap pg).held := rfl
  refine ⟨h.noBug, h.pagesNodup, h.listNodup, h.allocated,
    fun q hq => (h.accounted q hq).imp_right (held_set hi hheld), ?_⟩
  have hnew : Knows (remapPage p.shared.st v va pg) ⟨v, va, .kmalloc pg⟩ := by
    refine ⟨hown.aligned, by simp [FaultPc.waiting], hown.held, fun q hq => ?_, by simp [FaultPc.held], by simp, by simp,
      by simp⟩
    cases hq
    simp [remapPage]
  refine outline_keeps h.outline hi hnew (fun j c hji hj hc ha => ⟨⟨hc.aligned, fun hw => ?_, hc.held, fun q hq => ?_,
    hc.listed, fun hm => ?_, hc.head, hc.alive⟩, ⟨by simp [FaultPc.waiting], ha.held, by simp [FaultPc.adding]⟩⟩)
  · -- another fault that is about to map its page is on another page
    by_cases hsame : c.vma.mm = v.mm ∧ c.va = va
    · have hidle := ha.waiting ⟨hsame.1.symm, hsame.2.symm⟩ rfl
      simp [hidle] at hw
    · simp only [remapPage, if_neg hsame]
      exact hc.unmapped hw
  · -- another fault has installed its page where it was mapped, so not here
    by_cases hsame : c.vma.mm = v.mm ∧ c.va = va
    · have hmapped := hc.installed q hq
      rw [hsame.1, hsame.2, hown.unmapped rfl] at hmapped
      cases hmapped
    · simp only [remapPage, if_neg hsame]
      exact hc.installed q hq
  · simp only [remapPage]
    split_ifs
    · simp
    · exact hc.mapped hm

/-- `remap_pfn_range` fails, and the page is given back -/
theorem inv_sigbus {pg : ℕ} (h : FaultInv p) (hi : p.locals[i]? = some ⟨v, va, .remap pg⟩) :
    FaultInv ⟨⟨p.shared.st.dropPage pg, p.shared.bug⟩, p.locals.set i ⟨v, va, .failed⟩⟩ := by
  have hown := h.outline.thread hi
  have hlist := (hown.held pg rfl).2
  have hmem : ∀ q ∈ p.shared.st.pages, q ≠ pg → q ∈ (p.shared.st.dropPage pg).pages := fun q hq hne =>
    (List.mem_erase_of_ne hne).2 hq
  refine ⟨h.noBug, h.pagesNodup.erase _, h.listNodup, fun q hq => hmem q (h.allocated q hq) fun he => hlist (he ▸ hq),
    fun q hq => ?_, ?_⟩
  · obtain ⟨hne, hq⟩ := h.pagesNodup.mem_erase_iff.1 hq
    refine (h.accounted q hq).imp_right fun ⟨c, hc, hcp⟩ => ⟨c, mem_set_of_ne hi hc ?_, hcp⟩
    intro he
    rw [he] at hcp
    cases hcp
    exact hne rfl
  · have hnew : Knows (p.shared.st.dropPage pg) ⟨v, va, .failed⟩ :=
      knows_idle hown.aligned (by simp [FaultPc.waiting]) rfl rfl (by simp) rfl (by simp)
    refine outline_keeps h.outline hi hnew (fun j c hji hj hc ha => ⟨⟨hc.aligned, hc.unmapped, fun q hq => ?_,
      hc.installed, hc.listed, hc.mapped, hc.head, hc.alive⟩,
      ⟨by simp [FaultPc.waiting], by simp [FaultPc.held], by simp [FaultPc.adding]⟩⟩)
    obtain ⟨h1, h2⟩ := hc.held q hq
    refine ⟨hmem q h1 fun he => ?_, h2⟩
    exact ha.held pg rfl (he ▸ hq)

/-- the second half of `list_add` puts the page on the list -/
theorem inv_writeHead {n : RefPageNode} {next : List RefPageNode} (h : FaultInv p)
    (hi : p.locals[i]? = some ⟨v, va, .writeHead n next⟩) :
    FaultInv ⟨⟨p.shared.st.setList (n :: next), p.shared.bug⟩, p.locals.set i ⟨v, va, .inc n.page⟩⟩ := by
  have hown := h.outline.thread hi
  obtain ⟨hpage, hlist⟩ := hown.held n.page rfl
  have hnext := hown.head n next rfl
  subst hnext
  have hcons : (p.shared.st.setList (n :: p.shared.st.refPageList)).listPages = n.page :: p.shared.st.listPages := rfl
  refine ⟨h.noBug, h.pagesNodup, ?_, ?_, fun q hq => ?_, ?_⟩
  · rw [hcons]
    exact List.nodup_cons.2 ⟨hlist, h.listNodup⟩
  · rw [hcons]
    exact List.forall_mem_cons.2 ⟨hpage, h.allocated⟩
  · rw [hcons]
    by_cases hqn : q = n.page
    · exact Or.inl (hqn ▸ List.mem_cons_self)
    · refine (h.accounted q hq).imp (List.mem_cons_of_mem _) fun ⟨c, hc, hcp⟩ => ⟨c, mem_set_of_ne hi hc ?_, hcp⟩
      intro he
      rw [he] at hcp
      cases hcp
      exact hqn rfl
  · have hnew : Knows (p.shared.st.setList (n :: p.shared.st.refPageList)) ⟨v, va, .inc n.page⟩ := by
      refine ⟨hown.aligned, by simp [FaultPc.waiting], by simp [FaultPc.held], fun q hq => hown.installed q hq,
        fun q hq _ => ?_, by simp, by simp, by simp⟩
      cases hq
      rw [hcons]
      exact List.mem_cons_self
    refine outline_keeps h.outline hi hnew (fun j c hji hj hc ha => ⟨⟨hc.aligned, hc.unmapped, fun q hq => ?_,
      hc.installed, fun q hq hh => ?_, hc.mapped, fun m nx hm => ?_, hc.alive⟩,
      ⟨by simp [FaultPc.waiting], by simp [FaultPc.held], by simp [FaultPc.adding]⟩⟩)
    · obtain ⟨h1, h2⟩ := hc.held q hq
      refine ⟨h1, ?_⟩
      rw [hcons, List.mem_cons, not_or]
      exact ⟨fun he => ha.held n.page rfl (he ▸ hq), h2⟩
    · rw [hcons]
      exact List.mem_cons_of_mem _ (hc.listed q hq hh)
    · have hadd := ha.adding rfl
      simp [hm, FaultPc.adding] at hadd

end Step

/-! ## Whole runs -/

theorem faultInv_step {p q : Pool FaultSt Handler} {i : ℕ × FaultEnv} (h : FaultInv p) (hC : NoClash p i q)
    (hs : Steps faultAct p i q) : FaultInv q := by
  obtain ⟨⟨v, va, pc⟩, t, b, hi, ha, rfl⟩ := steps_iff.1 hs
  have hown := h.outline.thread hi
  obtain ⟨hcheck, hread, hkmalloc⟩ := hC _ hi
  cases pc with
  | check =>
    by_cases hp : p.shared.st.pte v.mm va = none
    · simp only [faultAct, if_pos hp] at ha
      cases ha
      exact inv_same h hi rfl rfl rfl rfl (knows_idle hown.aligned (fun _ => hp) rfl rfl (by simp) rfl (by simp))
        (fun _ => hcheck rfl) (by simp [FaultPc.adding])
    · simp only [faultAct, if_neg hp] at ha
      cases ha
      exact inv_same h hi rfl rfl rfl rfl ⟨hown.aligned, by simp [FaultPc.waiting], by simp [FaultPc.held],
        by simp [FaultPc.installed], by simp [FaultPc.installed], fun _ => hp, by simp, by simp⟩
        (by simp [FaultPc.waiting]) (by simp [FaultPc.adding])
  | alloc =>
    cases hal : i.2.allocPage with
    | none =>
      simp only [faultAct, hal] at ha
      cases ha
      exact inv_same h hi rfl rfl rfl rfl
        (knows_idle hown.aligned (by simp [FaultPc.waiting]) rfl rfl (by simp) rfl (by simp))
        (by simp [FaultPc.waiting]) (by simp [FaultPc.adding])
    | some hint =>
      simp only [faultAct, hal] at ha
      cases ha
      exact inv_alloc h hi (fresh_notMem _ _)
  | remap pg =>
    have hp : p.shared.st.pte v.mm va = none := hown.unmapped rfl
    have hva : pageAlign va = va := hown.aligned
    cases hr : i.2.remapPfnRange with
    | true =>
      simp [faultAct, hva, hp, hr] at ha
      obtain ⟨rfl, rfl⟩ := ha
      exact inv_remap h hi
    | false =>
      simp [faultAct, hva, hp, hr] at ha
      obtain ⟨rfl, rfl⟩ := ha
      exact inv_sigbus h hi
  | kmalloc pg =>
    obtain ⟨hint, hk⟩ := Option.ne_none_iff_exists'.1 (hkmalloc rfl)
    simp only [faultAct, hk] at ha
    cases ha
    exact inv_same h hi rfl rfl rfl rfl ⟨hown.aligned, by simp [FaultPc.waiting], hown.held, hown.installed,
      by simp [FaultPc.held], by simp, by simp, by simp⟩ (by simp [FaultPc.waiting]) (by simp [FaultPc.adding])
  | readHead n =>
    cases ha
    exact inv_same h hi rfl rfl rfl rfl ⟨hown.aligned, by simp [FaultPc.waiting], hown.held, hown.installed,
      by simp [FaultPc.held], by simp, fun m next hm => by cases hm; rfl, by simp⟩ (by simp [FaultPc.waiting])
      fun _ => hread rfl
  | writeHead n next =>
    cases ha
    exact inv_writeHead h hi
  | inc pg =>
    cases ha
    exact inv_same h hi rfl rfl rfl rfl ⟨hown.aligned, by simp [FaultPc.waiting], by simp [FaultPc.held],
      hown.installed, hown.listed, by simp, by simp, by simp⟩ (by simp [FaultPc.waiting]) (by simp [FaultPc.adding])
  | done pg => cases ha
  | failed => cases ha
  | mapped => cases ha
  | dead => exact absurd rfl hown.alive

theorem faultInv_start {s : St} (h : Inv s) {as : List (VmArea × ℕ)} (has : Accesses s as) :
    FaultInv (startHandlers s as) := by
  have hcheck : ∀ c ∈ as.map handlerOf, c.pc = .check := by
    intro c hc
    obtain ⟨a, -, rfl⟩ := List.mem_map.1 hc
    rfl
  have hpages : s.listPages = s.pages := h.ledger.pages.symm
  refine ⟨rfl, h.ledger.pagesNodup, hpages ▸ h.ledger.pagesNodup, fun pg hpg => hpages ▸ hpg,
    fun pg hpg => Or.inl (hpages ▸ hpg), ⟨fun c hc => ?_, fun j k c d _ hj _ => ?_⟩⟩
  · obtain ⟨⟨v, va⟩, hv, rfl⟩ := List.mem_map.1 hc
    obtain ⟨-, -, h2⟩ := has _ hv
    have hlt : pageBase va < wordSize := ((pageBase_le va).trans_lt h2).trans v.range.stop_lt
    exact knows_idle (pageAlign_of_dvd (pageSize_dvd_pageBase va) hlt) (by simp [FaultPc.waiting]) rfl rfl (by simp) rfl
      (by simp)
  · have hpc := hcheck c (List.mem_of_getElem? hj)
    exact ⟨by simp [hpc, FaultPc.waiting], by simp [hpc, FaultPc.held], by simp [hpc, FaultPc.adding]⟩

/-- **Concurrent faults install and track each page once** in every run without a clash. -/
theorem faults_track {d : ℕ} {ops : List Op} {s : St} {as : List (VmArea × ℕ)} {l : List (ℕ × FaultEnv)}
    {p : Pool FaultSt Handler} (hs : run (init d) ops = .ok s) (has : Accesses s as)
    (hr : Run (Steps faultAct) (startHandlers s as) l p)
    (hC : Along (Steps faultAct) NoClash (startHandlers s as) l) : FaultsGood p :=
  (Along.inv (fun _ _ _ hI hc hst => faultInv_step hI hc hst) hC hr (faultInv_start (run_inv hs) has)).good

/-- one mapping of two pages -/
def oneMapping : List Op := [.mmap 0 0 twoPages ⟨some 0, fun _ => allSucceed⟩]

/-- its VMA -/
def mappedVma : VmArea := ⟨0, 0, twoPages, .paging, some 0⟩

theorem accesses_mappedVma {s : St} (h : s.vmas = [mappedVma]) {as : List (VmArea × ℕ)}
    (has : ∀ a ∈ as, a.1 = mappedVma ∧ 4096 ≤ a.2 ∧ a.2 < 12288) : Accesses s as := by
  intro a ha
  obtain ⟨h1, h2, h3⟩ := has a ha
  rw [h, h1]
  exact ⟨List.mem_cons_self, h2, h3⟩

/-- faults on two pages, each step of the one followed by a step of the other up to `list_add`; a third fault, on the
first page, starts when that page has been mapped and is not yet on the list -/
def interleavedFaults : List (ℕ × FaultEnv) :=
  [0, 1, 0, 1, 0, 2, 1, 0, 1, 0, 0, 1, 0, 1, 1].map fun i => (i, allSucceed)

/-- three threads fault at once on the two pages of a mapping -/
theorem faults_track_interleaved :
    ∃ s p, run (init 1) oneMapping = .ok s ∧
      Run (Steps faultAct) (startHandlers s [(mappedVma, 4100), (mappedVma, 8192), (mappedVma, 4096)])
        interleavedFaults p ∧
      p.shared.st.pte 0 4096 = some 0 ∧ p.shared.st.pte 0 8192 = some 1 ∧ p.shared.st.listPages = [1, 0] ∧
      p.locals.map Handler.pc = [.done 0, .done 1, .mapped] ∧ FaultsGood p := by
  have hobs : (run (init 1) oneMapping).map (fun s => (s.vmas,
      decide (Along (Steps faultAct) NoClash
        (startHandlers s [(mappedVma, 4100), (mappedVma, 8192), (mappedVma, 4096)]) interleavedFaults),
      (interleavedFaults.foldlM (poolStep faultAct)
        (startHandlers s [(mappedVma, 4100), (mappedVma, 8192), (mappedVma, 4096)])).map fun p =>
          (p.shared.st.pte 0 4096, p.shared.st.pte 0 8192, p.shared.st.listPages, p.locals.map Handler.pc))) =
      .ok ([mappedVma], true, some (some 0, some 1, [1, 0], [.done 0, .done 1, .mapped])) := by rfl
  obtain ⟨s, hs, ho⟩ := map_ok.1 hobs
  simp only [Prod.mk.injEq] at ho
  obtain ⟨hv, hC, hrun⟩ := ho
  obtain ⟨p, hp, hlist⟩ := Option.map_eq_some_iff.1 hrun
  simp only [Prod.mk.injEq] at hlist
  obtain ⟨h1, h2, h3, h4⟩ := hlist
  have hr := run_pool_iff.2 hp
  exact ⟨s, p, hs, hr, h1, h2, h3, h4,
    faults_track hs (accesses_mappedVma hv (by simp)) hr (of_decide_eq_true hC)⟩

/-- every run of concurrent faults installs and tracks each page once -/
def FaultsTracked (d : ℕ) (ops : List Op) : Prop :=
  ∀ s, run (init d) ops = .ok s → ∀ as, Accesses s as → ∀ l p,
    Run (Steps faultAct) (startHandlers s as) l p → FaultsGood p

/-- the first fault on one page remaps when the second is past the kernel's look at the page table -/
def samePageSchedule : List (ℕ × FaultEnv) := [0, 1, 0, 1, 0, 1].map fun i => (i, allSucceed)

/-- two faults on two pages: both read the head of the list before either writes it -/
def lostInsertionSchedule : List (ℕ × FaultEnv) :=
  [0, 0, 0, 0, 1, 1, 1, 1, 0, 1, 0, 1, 0, 1].map fun i => (i, allSucceed)

/-- **Races.** Two faults on one page both call `remap_pfn_range`. Of two faults on different pages, both mapped,
one page is not on the list. -/
theorem fault_races :
    (∃ s p, run (init 1) oneMapping = .ok s ∧
      Run (Steps faultAct) (startHandlers s [(mappedVma, 4096), (mappedVma, 4100)]) samePageSchedule p ∧
      p.shared.bug = true) ∧
    (∃ s p, run (init 1) oneMapping = .ok s ∧
      Run (Steps faultAct) (startHandlers s [(mappedVma, 4096), (mappedVma, 8192)]) lostInsertionSchedule p ∧
      p.shared.st.pte 0 4096 = some 0 ∧ p.shared.st.pte 0 8192 = some 1 ∧ p.shared.st.listPages = [1]) ∧
    ¬ FaultsTracked 1 oneMapping := by
  have hsame : (run (init 1) oneMapping).map (fun s => (s.vmas, (samePageSchedule.foldlM (poolStep faultAct)
      (startHandlers s [(mappedVma, 4096), (mappedVma, 4100)])).map fun p => p.shared.bug)) =
      .ok ([mappedVma], some true) := by rfl
  have hlost : (run (init 1) oneMapping).map (fun s => (lostInsertionSchedule.foldlM (poolStep faultAct)
      (startHandlers s [(mappedVma, 4096), (mappedVma, 8192)])).map fun p =>
        (p.shared.st.pte 0 4096, p.shared.st.pte 0 8192, p.shared.st.listPages)) =
      .ok (some (some 0, some 1, [1])) := by rfl
  obtain ⟨s, hs, ho⟩ := map_ok.1 hsame
  obtain ⟨hv, hrun⟩ := Prod.mk.inj ho
  obtain ⟨p, hp, hbug⟩ := Option.map_eq_some_iff.1 hrun
  refine ⟨⟨s, p, hs, run_pool_iff.2 hp, hbug⟩, ?_, fun h => ?_⟩
  · obtain ⟨s', hs', hrun'⟩ := map_ok.1 hlost
    obtain ⟨p', hp', hlist⟩ := Option.map_eq_some_iff.1 hrun'
    simp only [Prod.mk.injEq] at hlist
    exact ⟨s', p', hs', run_pool_iff.2 hp', hlist⟩
  · have hgood := (h s hs _ (accesses_mappedVma hv (by simp)) _ p (run_pool_iff.2 hp)).noBug
    rw [hbug] at hgood
    cases hgood

end Cse422.Paging
