/-
Concurrent calls of `do_fault`, one atomic step at a time. The kernel lets the page faults of one address space run
concurrently, and the module takes no lock.

Each fault is a thread (`Handler`) with its place in the code (`FaultPc`). The steps: the kernel finds the page
unmapped, `alloc_page`, `remap_pfn_range`, `kmalloc`, the two halves of `list_add` (read the head, then write the
head), and `atomic_inc`. The answers of the kernel are the input of the step. `remap_pfn_range` of an address that
is already mapped is a BUG, which is recorded and stops the thread; so does the NULL that a failed `kmalloc`
returns.

Nodes on the list keep their `next` while faults run, so what follows the old head is known when the head is read:
it is the list at that moment.

Premises: each step is atomic, and the processors see one order of them; the VMAs stay while faults on them run.

- `fault_alone`: a fault that is not interrupted does what `pagingVmaFault` does.
-/
import Cse422.Core.Interleave
import Cse422.Paging.Invariant

namespace Cse422.Paging

open Lts

/-! ## One step of a fault -/

inductive FaultPc where
  /-- the access has trapped; the kernel is about to look at the page-table entry -/
  | check
  | alloc
  | remap (pg : ℕ)
  | kmalloc (pg : ℕ)
  /-- `list_add`: about to read `ref_page_list.next` -/
  | readHead (pageNode : RefPageNode)
  /-- `list_add`: about to write `ref_page_list.next`; `next` is the list that was there -/
  | writeHead (pageNode : RefPageNode) (next : List RefPageNode)
  | inc (pg : ℕ)
  /-- VM_FAULT_NOPAGE -/
  | done (pg : ℕ)
  /-- VM_FAULT_OOM or VM_FAULT_SIGBUS -/
  | failed
  /-- the kernel found the page mapped and did not call the module -/
  | mapped
  | dead
deriving DecidableEq

/-- a fault at the page `va` of a VMA, and its place in the code -/
structure Handler where
  vma : VmArea
  va : ℕ
  pc : FaultPc

/-- the module, and whether `remap_pfn_range` has been called for a mapped address -/
structure FaultSt where
  st : St
  bug : Bool

/-- `alloc_page` handed out a page -/
def St.addPage (s : St) (pg : ℕ) : St := { s with pages := pg :: s.pages }

/-- `__free_page` of a page that is allocated -/
def St.dropPage (s : St) (pg : ℕ) : St := { s with pages := s.pages.erase pg }

/-- `kmalloc` handed out a node -/
def St.addNode (s : St) (a : ℕ) : St := { s with nodes := a :: s.nodes }

/-- the list as a forward walk from the head finds it -/
def St.setList (s : St) (l : List RefPageNode) : St := { s with refPageList := l }

/-- `atomic_inc(&alloc_count)` -/
def St.countAlloc (s : St) : St := { s with allocCount := atomicInc s.allocCount }

def faultAct (s : FaultSt) (c : Handler) (e : FaultEnv) : Option (FaultSt × Handler) :=
  match c.pc with
  | .check => some (s, { c with pc := if s.st.pte c.vma.mm c.va = none then .alloc else .mapped })
  | .alloc =>
    match e.allocPage with
    | none => some (s, { c with pc := .failed })
    | some hint =>
      let pg := fresh s.st.pages hint
      some (⟨s.st.addPage pg, s.bug⟩, { c with pc := .remap pg })
  | .remap pg =>
    if s.st.pte c.vma.mm (pageAlign c.va) ≠ none then some (⟨s.st, true⟩, { c with pc := .dead })
    else if e.remapPfnRange then
      some (⟨remapPage s.st c.vma (pageAlign c.va) pg, s.bug⟩, { c with pc := .kmalloc pg })
    else some (⟨s.st.dropPage pg, s.bug⟩, { c with pc := .failed })
  | .kmalloc pg =>
    match e.kmalloc with
    | none => some (s, { c with pc := .dead })
    | some hint =>
      let pageNode : RefPageNode := ⟨kmallocAddr s.st hint, pg⟩
      some (⟨s.st.addNode pageNode.addr, s.bug⟩, { c with pc := .readHead pageNode })
  | .readHead pageNode => some (s, { c with pc := .writeHead pageNode s.st.refPageList })
  | .writeHead pageNode next =>
    some (⟨s.st.setList (pageNode :: next), s.bug⟩, { c with pc := .inc pageNode.page })
  | .inc pg => some (⟨s.st.countAlloc, s.bug⟩, { c with pc := .done pg })
  | .done _ | .failed | .mapped | .dead => none

/-- an access to an address that traps -/
def handlerOf (access : VmArea × ℕ) : Handler := ⟨access.1, pageBase access.2, .check⟩

/-- the accesses are inside live VMAs -/
def Accesses (s : St) (as : List (VmArea × ℕ)) : Prop :=
  ∀ a ∈ as, a.1 ∈ s.vmas ∧ a.1.range.start ≤ a.2 ∧ a.2 < a.1.range.stop

def startHandlers (s : St) (as : List (VmArea × ℕ)) : Pool FaultSt Handler := ⟨⟨s, false⟩, as.map handlerOf⟩

/-! ## A fault alone -/

/-- **A fault alone** is `pagingVmaFault`: it leaves the same state, and it stops where the answers make `do_fault`
stop. -/
theorem fault_alone {s : St} {v : VmArea} {va : ℕ} (e : FaultEnv) (h : va < v.range.stop)
    (hp : s.pte v.mm (pageBase va) = none) :
    ∃ n pc u, Run (Steps faultAct) (startHandlers s [(v, va)]) (List.replicate n (0, e))
        ⟨⟨u, false⟩, [⟨v, pageBase va, pc⟩]⟩ ∧
      ((∃ pg, pagingVmaFault s v (pageBase va) e = .ok (VM_FAULT_NOPAGE, u) ∧ pc = .done pg) ∨
        (∃ r, pagingVmaFault s v (pageBase va) e = .ok (r, u) ∧ r ≠ VM_FAULT_NOPAGE ∧ pc = .failed) ∨
        (pagingVmaFault s v (pageBase va) e = .error .nullDeref ∧ pc = .dead)) := by
  have halign : pageAlign (pageBase va) = pageBase va :=
    pageAlign_of_dvd (pageSize_dvd_pageBase va) (((pageBase_le va).trans_lt h).trans v.range.stop_lt)
  have hstart : startHandlers s [(v, va)] = ⟨⟨s, false⟩, [⟨v, pageBase va, .check⟩]⟩ := rfl
  simp only [hstart, run_pool_iff]
  cases ha : e.allocPage with
  | none =>
    refine ⟨2, .failed, s, ?_, Or.inr (Or.inl ⟨_, doFault_oom ha, by decide, rfl⟩)⟩
    simp [List.replicate, poolStep, faultAct, hp, ha]
  | some hint =>
    set pg := fresh s.pages hint
    cases hr : e.remapPfnRange with
    | false =>
      refine ⟨3, .failed, s, ?_, Or.inr (Or.inl ⟨_, doFault_sigbus ha hr, by decide, rfl⟩)⟩
      simp [List.replicate, poolStep, faultAct, hp, ha, hr, halign, St.addPage, St.dropPage]
    | true =>
      cases hk : e.kmalloc with
      | none =>
        refine ⟨4, .dead, remapPage (s.addPage pg) v (pageBase va) pg, ?_, Or.inr (Or.inr ⟨doFault_null ha hr hk, rfl⟩)⟩
        simp [List.replicate, poolStep, faultAct, hp, ha, hr, hk, halign, St.addPage, pg]
      | some nodeHint =>
        refine ⟨7, .done pg, installed s v (pageBase va) hint nodeHint, ?_, Or.inl ⟨pg, ?_, rfl⟩⟩
        · simp [List.replicate, poolStep, faultAct, hp, ha, hr, hk, halign, St.addPage, St.addNode, St.setList,
            St.countAlloc, remapPage, installed, newNode, kmallocAddr, pg]
        · have hd : pagingVmaFault s v (pageBase va) e =
              .ok (VM_FAULT_NOPAGE, installed s v (pageAlign (pageBase va)) hint nodeHint) := doFault_nopage ha hr hk
          rwa [halign] at hd

end Cse422.Paging
