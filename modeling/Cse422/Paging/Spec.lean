/-
What each function of the paging module does: one lemma for each outcome, so that no later proof unfolds a
function.

- `doFault_oom`, `doFault_sigbus`, `doFault_null`, `doFault_nopage`: the four outcomes of `do_fault`, by the
  answers of the kernel; `doFault_ok` and `doFault_error` are their inversions;
- `prepage_ok`, `prepage_oops`: how the pre-paging loop goes on, and how it breaks; `prepage_keeps` carries what
  one installed page preserves through the whole loop;
- `pagingMmap_enomem`, `pagingMmap_demand`, `pagingMmap_prepage`: the three ways through `paging_mmap`;
- `teardown_eq`: the loop of `paging_vma_close` over the whole list; `close_shared`, `close_last`: the function
  when the decremented count is not zero, and when it is.
-/
import Cse422.Paging.Module

namespace Cse422.Paging

/-! ## Results of fallible computations -/

theorem bind_ok {α β ε : Type} {x : Except ε α} {f : α → Except ε β} {b : β} :
    (x >>= f) = .ok b ↔ ∃ a, x = .ok a ∧ f a = .ok b := by
  cases x with
  | error e => simp [bind, Except.bind]
  | ok a => simp [bind, Except.bind]

theorem map_ok {α β ε : Type} {x : Except ε α} {f : α → β} {b : β} :
    x.map f = .ok b ↔ ∃ a, x = .ok a ∧ f a = b := by
  cases x with
  | error e => simp [Except.map]
  | ok a => simp [Except.map]

theorem map_error {α β ε : Type} {x : Except ε α} {f : α → β} {e : ε} : x.map f = .error e ↔ x = .error e := by
  cases x with
  | error e => simp [Except.map]
  | ok a => simp [Except.map]

/-! ## do_fault -/

/-- the three calls of `do_fault` all succeed -/
def FaultEnv.Succeeds (e : FaultEnv) : Prop :=
  e.allocPage ≠ none ∧ e.remapPfnRange = true ∧ e.kmalloc ≠ none

/-- `alloc_page` or `remap_pfn_range` fails -/
def FaultEnv.Fails (e : FaultEnv) : Prop := e.allocPage = none ∨ e.remapPfnRange = false

instance (e : FaultEnv) : Decidable e.Succeeds := by unfold FaultEnv.Succeeds; infer_instance

instance (e : FaultEnv) : Decidable e.Fails := by unfold FaultEnv.Fails; infer_instance

/-- the node a successful `do_fault` puts on the list -/
def newNode (s : St) (hint nodeHint : ℕ) : RefPageNode := ⟨kmallocAddr s nodeHint, fresh s.pages hint⟩

/-- the state after a successful `do_fault` -/
def installed (s : St) (vma : VmArea) (va hint nodeHint : ℕ) : St :=
  let pg := fresh s.pages hint
  { s with
    pages := pg :: s.pages
    pte := fun m a => if m = vma.mm ∧ a = va then some pg else s.pte m a
    installedIn := fun p => if p = pg then vma.vmPrivateData else s.installedIn p
    nodes := kmallocAddr s nodeHint :: s.nodes
    refPageList := newNode s hint nodeHint :: s.refPageList
    allocCount := atomicInc s.allocCount }

section DoFault

variable {s : St} {vma : VmArea} {a hint nodeHint : ℕ} {e : FaultEnv}

theorem doFault_oom (h : e.allocPage = none) : doFault s vma a e = .ok (VM_FAULT_OOM, s) := by
  simp [doFault, h]

theorem doFault_sigbus (h : e.allocPage = some hint) (hr : e.remapPfnRange = false) :
    doFault s vma a e = .ok (VM_FAULT_SIGBUS, s) := by
  simp [doFault, h, hr, freePage, Except.map]

theorem doFault_null (h : e.allocPage = some hint) (hr : e.remapPfnRange = true) (hk : e.kmalloc = none) :
    doFault s vma a e = .error .nullDeref := by
  simp [doFault, h, hr, hk]

theorem doFault_nopage (h : e.allocPage = some hint) (hr : e.remapPfnRange = true) (hk : e.kmalloc = some nodeHint) :
    doFault s vma a e = .ok (VM_FAULT_NOPAGE, installed s vma (pageAlign a) hint nodeHint) := by
  simp [doFault, h, hr, hk, remapPage, installed, newNode, kmallocAddr]

theorem doFault_succeeds (h : e.Succeeds) :
    ∃ hint nodeHint, doFault s vma a e = .ok (VM_FAULT_NOPAGE, installed s vma (pageAlign a) hint nodeHint) := by
  obtain ⟨h1, h2, h3⟩ := h
  obtain ⟨hint, h1⟩ := Option.ne_none_iff_exists'.1 h1
  obtain ⟨nodeHint, h3⟩ := Option.ne_none_iff_exists'.1 h3
  exact ⟨hint, nodeHint, doFault_nopage h1 h2 h3⟩

theorem doFault_fails (h : e.Fails) :
    doFault s vma a e = .ok (VM_FAULT_OOM, s) ∨ doFault s vma a e = .ok (VM_FAULT_SIGBUS, s) := by
  cases ha : e.allocPage with
  | none => exact Or.inl (doFault_oom ha)
  | some hint =>
    rcases h with h | h
    · rw [h] at ha; cases ha
    · exact Or.inr (doFault_sigbus ha h)

/-- `do_fault` returns: a failure that changes nothing, or one more page -/
theorem doFault_ok {r : ℤ} {t : St} (h : doFault s vma a e = .ok (r, t)) :
    (e.Fails ∧ (r = VM_FAULT_OOM ∨ r = VM_FAULT_SIGBUS) ∧ t = s) ∨
      (e.Succeeds ∧ r = VM_FAULT_NOPAGE ∧ ∃ hint nodeHint, t = installed s vma (pageAlign a) hint nodeHint) := by
  cases ha : e.allocPage with
  | none =>
    rw [doFault_oom ha] at h
    cases h
    exact Or.inl ⟨Or.inl ha, Or.inl rfl, rfl⟩
  | some hint =>
    cases hr : e.remapPfnRange with
    | false =>
      rw [doFault_sigbus ha hr] at h
      cases h
      exact Or.inl ⟨Or.inr hr, Or.inr rfl, rfl⟩
    | true =>
      cases hk : e.kmalloc with
      | none => rw [doFault_null ha hr hk] at h; cases h
      | some nodeHint =>
        rw [doFault_nopage ha hr hk] at h
        cases h
        exact Or.inr ⟨⟨by simp [ha], hr, by simp [hk]⟩, rfl, hint, nodeHint, rfl⟩

/-- `do_fault` breaks only by dereferencing the NULL that `kmalloc` returned -/
theorem doFault_error {o : Oops} (h : doFault s vma a e = .error o) : o = .nullDeref ∧ e.kmalloc = none := by
  cases ha : e.allocPage with
  | none => rw [doFault_oom ha] at h; cases h
  | some hint =>
    cases hr : e.remapPfnRange with
    | false => rw [doFault_sigbus ha hr] at h; cases h
    | true =>
      cases hk : e.kmalloc with
      | none => rw [doFault_null ha hr hk] at h; cases h; exact ⟨rfl, rfl⟩
      | some nodeHint => rw [doFault_nopage ha hr hk] at h; cases h

end DoFault

/-! ## The pre-paging loop -/

section Prepage

variable {s t : St} {vma : VmArea} {e : ℕ → FaultEnv} {k addr : ℕ} {r : ℤ}

theorem prepage_stop (h : ¬ addr < vma.range.stop) : prepage s vma e k addr = .ok (0, s) := by
  rw [prepage, dif_neg h]

theorem prepage_nopage (h : addr < vma.range.stop) (hf : doFault s vma addr (e k) = .ok (VM_FAULT_NOPAGE, t)) :
    prepage s vma e k addr = prepage t vma e (k + 1) (addr + pageSize) := by
  rw [prepage, dif_pos h, hf, VmRange.add_pageSize h]
  simp [VM_FAULT_NOPAGE, VM_FAULT_OOM, VM_FAULT_SIGBUS]

theorem prepage_fails (h : addr < vma.range.stop) (hf : (e k).Fails) :
    prepage s vma e k addr = .ok (VM_FAULT_OOM, s) ∨ prepage s vma e k addr = .ok (VM_FAULT_SIGBUS, s) := by
  have hd : doFault s vma addr (e k) = .ok (VM_FAULT_OOM, s) ∨ doFault s vma addr (e k) = .ok (VM_FAULT_SIGBUS, s) :=
    doFault_fails hf
  rcases hd with h1 | h1
  · left; rw [prepage, dif_pos h, h1]; simp
  · right; rw [prepage, dif_pos h, h1]; simp [VM_FAULT_OOM, VM_FAULT_SIGBUS]

theorem prepage_error (h : addr < vma.range.stop) {o : Oops} (hf : doFault s vma addr (e k) = .error o) :
    prepage s vma e k addr = .error o := by
  rw [prepage, dif_pos h, hf]

/-- the loop returns: it is at its end, or its next `do_fault` fails, or it goes on with one more page -/
theorem prepage_ok (h : prepage s vma e k addr = .ok (r, t)) :
    (¬ addr < vma.range.stop ∧ r = 0 ∧ t = s) ∨
      (addr < vma.range.stop ∧ (e k).Fails ∧ (r = VM_FAULT_OOM ∨ r = VM_FAULT_SIGBUS) ∧ t = s) ∨
      (addr < vma.range.stop ∧ (e k).Succeeds ∧ ∃ hint nodeHint,
        prepage (installed s vma (pageAlign addr) hint nodeHint) vma e (k + 1) (addr + pageSize) = .ok (r, t)) := by
  by_cases ha : addr < vma.range.stop
  · right
    cases hf : doFault s vma addr (e k) with
    | error o => rw [prepage_error ha hf] at h; cases h
    | ok p =>
      obtain ⟨r', u⟩ := p
      rcases doFault_ok hf with ⟨hfail, -, -⟩ | ⟨hsucc, rfl, hint, nodeHint, rfl⟩
      · left
        rcases prepage_fails (s := s) ha hfail with h1 | h1
        · rw [h1] at h; cases h; exact ⟨ha, hfail, Or.inl rfl, rfl⟩
        · rw [h1] at h; cases h; exact ⟨ha, hfail, Or.inr rfl, rfl⟩
      · right
        rw [prepage_nopage ha hf] at h
        exact ⟨ha, hsucc, hint, nodeHint, h⟩
  · left
    rw [prepage_stop ha] at h
    cases h
    exact ⟨ha, rfl, rfl⟩

/-- **Loop rule.** What one installed page preserves holds when the loop returns. -/
theorem prepage_keeps {P : St → Prop}
    (hP : ∀ u a hint nodeHint, P u → P (installed u vma (pageAlign a) hint nodeHint)) (hs : P s)
    (h : prepage s vma e k addr = .ok (r, t)) : P t := by
  induction hn : vma.range.stop - addr using Nat.strong_induction_on generalizing s k addr with
  | _ n ih =>
    rcases prepage_ok h with ⟨-, -, rfl⟩ | ⟨-, -, -, rfl⟩ | ⟨ha, -, hint, nodeHint, h⟩
    · exact hs
    · exact hs
    · exact ih _ (by simp only [pageSize]; omega) (hP _ _ _ _ hs) h rfl

/-- the loop breaks only on the NULL that a node's `kmalloc` returned -/
theorem prepage_oops {o : Oops} (h : prepage s vma e k addr = .error o) :
    o = .nullDeref ∧ ∃ j, (e j).kmalloc = none := by
  induction hn : vma.range.stop - addr using Nat.strong_induction_on generalizing s k addr with
  | _ n ih =>
    by_cases ha : addr < vma.range.stop
    · cases hf : doFault s vma addr (e k) with
      | error o' =>
        rw [prepage_error ha hf] at h
        cases h
        exact ⟨(doFault_error hf).1, k, (doFault_error hf).2⟩
      | ok p =>
        obtain ⟨r', u⟩ := p
        rcases doFault_ok hf with ⟨hfail, -, -⟩ | ⟨-, rfl, hint, nodeHint, rfl⟩
        · rcases prepage_fails (s := s) ha hfail with h1 | h1 <;> (rw [h1] at h; cases h)
        · rw [prepage_nopage ha hf] at h
          exact ih _ (by simp only [pageSize]; omega) h rfl
    · rw [prepage_stop ha] at h; cases h

end Prepage

/-! ## paging_mmap -/

/-- the VMA as `paging_mmap` leaves it, with its `pa_state_struct` at `x` -/
def attach (vma : VmArea) (x : ℕ) : VmArea := { vma with vmOps := .paging, vmPrivateData := some x }

/-- the state in which the `pa_state_struct` at `x` has been allocated with reference count 1 -/
def withPas (s : St) (x : ℕ) : St := { s with pas := x :: s.pas, refCount := Function.update s.refCount x 1 }

section Mmap

variable {s : St} {vma : VmArea} {e : MmapEnv} {hint : ℕ}

theorem pagingMmap_enomem (h : e.kmalloc = none) :
    pagingMmap s vma e = .ok (ENOMEM, { vma with vmOps := .paging }, s) := by
  simp [pagingMmap, h]

theorem pagingMmap_demand (h : e.kmalloc = some hint) (hd : s.demandPaging ≠ 0) :
    pagingMmap s vma e = .ok (0, attach vma (kmallocAddr s hint), withPas s (kmallocAddr s hint)) := by
  simp [pagingMmap, h, hd, attach, withPas]

theorem pagingMmap_prepage (h : e.kmalloc = some hint) (hd : s.demandPaging = 0) :
    pagingMmap s vma e =
      (prepage (withPas s (kmallocAddr s hint)) (attach vma (kmallocAddr s hint)) e.fault 0 vma.range.start).map
        fun p => (p.1, attach vma (kmallocAddr s hint), p.2) := by
  simp [pagingMmap, h, hd, attach, withPas]

end Mmap

/-! ## paging_vma_open and paging_vma_close -/

/-- the state in which `atomic_inc` or `atomic_dec` has changed a reference count -/
def setCount (s : St) (x n : ℕ) : St := { s with refCount := Function.update s.refCount x n }

/-- the state after the teardown loop and the `kfree` of the `pa_state_struct` -/
def tornDown (s : St) (x : ℕ) : St :=
  { setCount s x 0 with
    refPageList := [], pages := [], nodes := []
    freeCount := (s.freeCount + s.refPageList.length) % wordSize
    pas := s.pas.erase x }

section Close

variable {s : St} {vma : VmArea} {x : ℕ}

theorem derefPas_some (h : x ∈ s.pas) : derefPas s (some x) = .ok x := by simp [derefPas, h]

theorem pagingVmaOpen_eq (hv : vma.vmPrivateData = some x) (hx : x ∈ s.pas) :
    pagingVmaOpen s vma = .ok (setCount s x (atomicInc (s.refCount x))) := by
  simp [pagingVmaOpen, hv, derefPas_some hx, bind, Except.bind, setCount]

/-- one pass of the teardown loop, on the head of the list -/
theorem freeNode_head {u : St} {n : RefPageNode} {l : List RefPageNode} (hl : u.refPageList = n :: l)
    (hp : u.pages = n.page :: l.map RefPageNode.page) (hn : u.nodes = n.addr :: l.map RefPageNode.addr) :
    freeNode u n = .ok { u with
      refPageList := l, pages := l.map RefPageNode.page, nodes := l.map RefPageNode.addr
      freeCount := atomicInc u.freeCount } := by
  simp [freeNode, freePage, kfreeNode, hl, hp, hn, bind, Except.bind]

/-- the teardown loop empties the list: it frees each page and each node once and counts each free -/
theorem teardown_eq (l : List RefPageNode) : ∀ u : St, u.refPageList = l →
    u.pages = l.map RefPageNode.page → u.nodes = l.map RefPageNode.addr → u.freeCount < wordSize →
    l.foldlM freeNode u = .ok { u with
      refPageList := [], pages := [], nodes := [], freeCount := (u.freeCount + l.length) % wordSize } := by
  induction l with
  | nil =>
    intro u h1 h2 h3 h4
    cases u
    simp_all [Nat.mod_eq_of_lt, pure, Except.pure]
  | cons n l ih =>
    intro u h1 h2 h3 h4
    rw [List.foldlM_cons, freeNode_head h1 h2 h3]
    simp only [bind, Except.bind]
    rw [ih _ rfl rfl rfl (Nat.mod_lt _ (by decide))]
    simp only [atomicInc, Nat.mod_add_mod, List.length_cons, Nat.add_right_comm, Nat.add_assoc]

theorem close_shared (hv : vma.vmPrivateData = some x) (hx : x ∈ s.pas) (h0 : atomicDec (s.refCount x) ≠ 0) :
    pagingVmaClose s vma = .ok (setCount s x (atomicDec (s.refCount x))) := by
  simp [pagingVmaClose, hv, derefPas_some hx, bind, Except.bind, setCount, h0]

theorem close_last (hv : vma.vmPrivateData = some x) (hx : x ∈ s.pas) (h0 : atomicDec (s.refCount x) = 0)
    (hp : s.pages = s.refPageList.map RefPageNode.page) (hn : s.nodes = s.refPageList.map RefPageNode.addr)
    (hf : s.freeCount < wordSize) :
    pagingVmaClose s vma = .ok (tornDown s x) := by
  have h1 := teardown_eq s.refPageList (setCount s x 0) rfl hp hn hf
  simp only [setCount] at h1
  simp [pagingVmaClose, hv, derefPas_some hx, bind, Except.bind, h0, h1, kfreePas, hx, tornDown, setCount]

end Close

end Cse422.Paging
