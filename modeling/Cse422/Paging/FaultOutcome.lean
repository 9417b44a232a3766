/-
What one call of `do_fault` does.

(1) All or nothing (`doFault_allOrNothing_iff`): one more page, mapped, on the list and counted, or an error code and
the module as it was. This holds if and only if the `kmalloc` of the node succeeds or an earlier call has failed: its
result is used without a test (`node_kmalloc_fails`).

(2) Which page is mapped (`fault_resolves_iff`). PAGE_ALIGN rounds up, so the page that is mapped contains the fault
address if and only if the address is a page boundary. At any other address the access faults again, and in the last
page of a VMA it is the page behind the VMA that gets mapped (`fault_maps_behind`). The pre-paging loop and a kernel
that masks the address only ask for page boundaries.
-/
import Cse422.Paging.Spec

namespace Cse422.Paging

variable {s t : St} {vma : VmArea} {a hint nodeHint : ℕ} {e : FaultEnv}

/-! ## All or nothing -/

/-- one new page: allocated, mapped for the fault address, at the head of the list and counted; nothing else -/
structure OneMore (s t : St) (vma : VmArea) (a pg : ℕ) (n : RefPageNode) : Prop where
  newPage : pg ∉ s.pages
  newNode : n.addr ∉ s.nodes ∧ n.page = pg
  pages : t.pages = pg :: s.pages
  mapped : t.pte vma.mm (pageAlign a) = some pg
  otherPtes : ∀ m b, (m, b) ≠ (vma.mm, pageAlign a) → t.pte m b = s.pte m b
  nodes : t.nodes = n.addr :: s.nodes
  list : t.refPageList = n :: s.refPageList
  allocCount : t.allocCount = atomicInc s.allocCount
  freeCount : t.freeCount = s.freeCount
  pas : t.pas = s.pas ∧ t.refCount = s.refCount
  vmas : t.vmas = s.vmas

/-- `do_fault` returns, with everything done or with nothing done -/
def AllOrNothing (s : St) (vma : VmArea) (a : ℕ) (e : FaultEnv) : Prop :=
  ∃ r t, doFault s vma a e = .ok (r, t) ∧
    ((r = VM_FAULT_NOPAGE ∧ ∃ pg n, OneMore s t vma a pg n) ∨ ((r = VM_FAULT_OOM ∨ r = VM_FAULT_SIGBUS) ∧ t = s))

theorem kmallocAddr_notMem (s : St) (hint : ℕ) : kmallocAddr s hint ∉ s.nodes := by
  intro h
  exact fresh_notMem (s.pas ++ s.nodes) hint (List.mem_append_right _ h)

theorem installed_oneMore (s : St) (vma : VmArea) (a hint nodeHint : ℕ) :
    OneMore s (installed s vma (pageAlign a) hint nodeHint) vma a (fresh s.pages hint) (newNode s hint nodeHint) := by
  refine ⟨fresh_notMem _ _, ⟨kmallocAddr_notMem _ _, rfl⟩, rfl, ?_, ?_, rfl, rfl, rfl, rfl, ⟨rfl, rfl⟩, rfl⟩
  · exact if_pos ⟨rfl, rfl⟩
  · intro m b hne
    apply if_neg
    intro hsame
    exact hne (Prod.ext hsame.1 hsame.2)

/-- **All or nothing**, unless the node is the call that fails. -/
theorem doFault_allOrNothing_iff (s : St) (vma : VmArea) (a : ℕ) (e : FaultEnv) :
    AllOrNothing s vma a e ↔ e.kmalloc ≠ none ∨ e.Fails := by
  constructor
  · intro h
    obtain ⟨r, t, hd, -⟩ := h
    rcases doFault_ok hd with ⟨hfails, -, -⟩ | ⟨hsucceeds, -, -⟩
    · exact Or.inr hfails
    · exact Or.inl hsucceeds.2.2
  · intro h
    by_cases hfails : e.Fails
    · have hcases : doFault s vma a e = .ok (VM_FAULT_OOM, s) ∨ doFault s vma a e = .ok (VM_FAULT_SIGBUS, s) :=
        doFault_fails hfails
      rcases hcases with hd | hd
      · exact ⟨_, _, hd, Or.inr ⟨Or.inl rfl, rfl⟩⟩
      · exact ⟨_, _, hd, Or.inr ⟨Or.inr rfl, rfl⟩⟩
    · obtain ⟨hpage, hremap⟩ := not_or.1 hfails
      have hsucceeds : e.Succeeds := ⟨hpage, by simpa using hremap, h.resolve_right hfails⟩
      obtain ⟨hint, nodeHint, hd⟩ : ∃ hint nodeHint, doFault s vma a e =
          .ok (VM_FAULT_NOPAGE, installed s vma (pageAlign a) hint nodeHint) := doFault_succeeds hsucceeds
      exact ⟨_, _, hd, Or.inl ⟨rfl, _, _, installed_oneMore s vma a hint nodeHint⟩⟩

/-- the VMA of the examples, with its `pa_state_struct` at 0 -/
def ownTwoPages : VmArea := ⟨0, 0, twoPages, .paging, some 0⟩

/-- **No memory for the node.** -/
theorem node_kmalloc_fails : doFault (init 1) ownTwoPages 4096 ⟨some 0, true, none⟩ = .error .nullDeref ∧
    ¬ AllOrNothing (init 1) ownTwoPages 4096 ⟨some 0, true, none⟩ := by
  have hd : doFault (init 1) ownTwoPages 4096 ⟨some 0, true, none⟩ = .error .nullDeref := doFault_null rfl rfl rfl
  refine ⟨hd, ?_⟩
  intro h
  obtain ⟨r, t, hok, -⟩ := h
  rw [hd] at hok
  cases hok

/-! ## The page that is mapped -/

/-- the page of the fault address is mapped to a new page, and no address outside of the VMA has become mapped -/
structure Resolves (s t : St) (vma : VmArea) (a : ℕ) : Prop where
  contains : ∃ pg, pg ∉ s.pages ∧ t.pte vma.mm (pageBase a) = some pg
  inside : ∀ m b, t.pte m b ≠ s.pte m b → m = vma.mm ∧ vma.range.start ≤ b ∧ b < vma.range.stop

theorem pageBase_of_dvd (h : pageSize ∣ a) : pageBase a = a := Nat.div_mul_cancel h

/-- in a range PAGE_ALIGN does not wrap around: between two page boundaries it goes up to the second -/
theorem VmRange.pageAlign_eq {r : VmRange} (ha : a < r.stop) (h : ¬ pageSize ∣ a) :
    pageAlign a = pageBase a + pageSize := by
  have hstop := r.stop_lt
  have hdvd := r.dvd_stop
  simp only [pageAlign, pageBase, pageSize, wordSize] at *
  omega

/-- a success at an address that is no page boundary leaves the page of the address as it was -/
theorem doFault_misses (ha : a < vma.range.stop) (h : ¬ pageSize ∣ a)
    (hd : doFault s vma a e = .ok (VM_FAULT_NOPAGE, t)) : t.pte vma.mm (pageBase a) = s.pte vma.mm (pageBase a) := by
  rcases doFault_ok hd with ⟨-, hr, -⟩ | ⟨-, -, hint, nodeHint, rfl⟩
  · rcases hr with hr | hr <;> exact absurd hr (by decide)
  · apply if_neg
    intro hsame
    have halign := vma.range.pageAlign_eq ha h
    have hpos : 0 < pageSize := by decide
    omega

theorem doFault_resolves (hstart : vma.range.start ≤ a) (hstop : a < vma.range.stop) (h : pageSize ∣ a)
    (hd : doFault s vma a e = .ok (VM_FAULT_NOPAGE, t)) : Resolves s t vma a := by
  have halign : pageAlign a = a := pageAlign_of_dvd h (hstop.trans vma.range.stop_lt)
  rcases doFault_ok hd with ⟨-, hr, -⟩ | ⟨-, -, hint, nodeHint, rfl⟩
  · rcases hr with hr | hr <;> exact absurd hr (by decide)
  · have hmore := installed_oneMore s vma a hint nodeHint
    refine ⟨⟨_, hmore.newPage, ?_⟩, ?_⟩
    · rw [pageBase_of_dvd h, ← hmore.mapped, halign]
    · intro m b hne
      have hsame : (m, b) = (vma.mm, pageAlign a) := by
        by_contra hother
        exact hne (hmore.otherPtes m b hother)
      obtain ⟨rfl, rfl⟩ := Prod.mk.inj hsame
      exact ⟨rfl, by rwa [halign], by rwa [halign]⟩

/-- **A resolved fault resolves the access** if and only if the fault address is a page boundary; at any other address
every success leaves the access where it was. -/
theorem fault_resolves_iff (vma : VmArea) {a : ℕ} (hstart : vma.range.start ≤ a) (hstop : a < vma.range.stop) :
    ((∀ s e t, doFault s vma a e = .ok (VM_FAULT_NOPAGE, t) → Resolves s t vma a) ↔ pageSize ∣ a) ∧
      (¬ pageSize ∣ a → ∀ s e t, doFault s vma a e = .ok (VM_FAULT_NOPAGE, t) →
        t.pte vma.mm (pageBase a) = s.pte vma.mm (pageBase a)) := by
  refine ⟨⟨?_, ?_⟩, ?_⟩
  · intro h
    by_contra hdvd
    have hsucceeds : allSucceed.Succeeds := by decide
    obtain ⟨hint, nodeHint, hd⟩ : ∃ hint nodeHint, doFault (init 1) vma a allSucceed =
        .ok (VM_FAULT_NOPAGE, installed (init 1) vma (pageAlign a) hint nodeHint) := doFault_succeeds hsucceeds
    obtain ⟨pg, -, hpg⟩ := (h _ _ _ hd).contains
    rw [doFault_misses hstop hdvd hd] at hpg
    cases hpg
  · intro hdvd s e t hd
    exact doFault_resolves hstart hstop hdvd hd
  · intro hdvd s e t hd
    exact doFault_misses hstop hdvd hd

/-- the first page of the VMA -/
theorem fault_resolves_first : ∃ t, doFault (init 1) ownTwoPages 4096 allSucceed = .ok (VM_FAULT_NOPAGE, t) ∧
    Resolves (init 1) t ownTwoPages 4096 := by
  have hd : doFault (init 1) ownTwoPages 4096 allSucceed =
      .ok (VM_FAULT_NOPAGE, installed (init 1) ownTwoPages 4096 0 0) := doFault_nopage rfl rfl rfl
  exact ⟨_, hd, (fault_resolves_iff ownTwoPages (a := 4096) (by decide) (by decide)).1.2 (by decide) _ _ _ hd⟩

/-- **The page behind the VMA.** A fault at the second byte of the last page -/
theorem fault_maps_behind : ∃ t, doFault (init 1) ownTwoPages 8193 allSucceed = .ok (VM_FAULT_NOPAGE, t) ∧
    t.pte 0 8192 = none ∧ t.pte 0 ownTwoPages.range.stop = some 0 ∧ ¬ Resolves (init 1) t ownTwoPages 8193 := by
  have hd : doFault (init 1) ownTwoPages 8193 allSucceed =
      .ok (VM_FAULT_NOPAGE, installed (init 1) ownTwoPages 12288 0 0) := doFault_nopage rfl rfl rfl
  refine ⟨_, hd, rfl, rfl, ?_⟩
  intro h
  obtain ⟨pg, -, hpg⟩ := h.contains
  cases hpg

end Cse422.Paging
