/-
The demand-paging kernel module (`labs/lab2/mod/paging.c`) and the part of the kernel that calls it.

The module maps anonymous pages into user VMAs of `/dev/paging`. Its state is one global list of page nodes
(`ref_page_list`), two counters, and a reference count for each mapping (`pa_state_struct`). The functions below
follow the C functions of the same names. The machine is the 32-bit ARM target of the Makefile: `unsigned long` and
`atomic_t` are 32 bits wide, pages have 4096 bytes.

Premises (the kernel around the module):
- allocators: `alloc_page` and `kmalloc` answer NULL or a name not in use. The answer is an input of the step
  (`none`, or a hint of which name to hand out), so every failure pattern and every recycling order is a run;
- page tables, per address space; `remap_pfn_range` answers 0 or an error;
- VMAs: an mmap gets a page-aligned range that overlaps no VMA of its address space and has no page-table entries;
  a fault is reported for an unmapped page of a VMA, with the page's base address; a split calls `open` on the new
  VMA, which inherits `vm_private_data`; a removal unmaps the range and calls `close`. When the driver's mmap
  fails, the kernel unmaps the range and drops the VMA without `close`. VM_DONTCOPY, VM_DONTEXPAND and VM_IO, set
  by `paging_mmap`, are why VMAs are never copied, grown or merged;
- a NULL dereference, a use after free and a double free end the run (`Oops`).

History variables, which no modelled code reads: `installedIn` (the mapping a page was last installed in) and
`orphans` (the `pa_state_struct`s of mmaps that failed).
-/
import Mathlib.Tactic
import Cse422.Core.Lts

namespace Cse422.Paging

/-! ## Machine words and names -/

/-- values of `unsigned long`, and of the `int` in an `atomic_t` -/
def wordSize : ℕ := 2 ^ 32

/-- `PAGE_SIZE` -/
def pageSize : ℕ := 4096

/-- `PAGE_ALIGN`: round up to a page boundary, in word arithmetic -/
def pageAlign (addr : ℕ) : ℕ := (addr + (pageSize - 1)) % wordSize / pageSize * pageSize

/-- `addr & PAGE_MASK` -/
def pageBase (addr : ℕ) : ℕ := addr / pageSize * pageSize

def atomicInc (x : ℕ) : ℕ := (x + 1) % wordSize

def atomicDec (x : ℕ) : ℕ := (x + (wordSize - 1)) % wordSize

/-- an allocator's choice: the hinted name if it is free, otherwise one above all names in use -/
def fresh (used : List ℕ) (hint : ℕ) : ℕ := if hint ∈ used then used.foldr max 0 + 1 else hint

theorem le_foldr_max {l : List ℕ} {a : ℕ} (h : a ∈ l) : a ≤ l.foldr max 0 := by
  induction l with
  | nil => simp at h
  | cons b l ih =>
    rcases List.mem_cons.1 h with rfl | h
    · exact le_max_left _ _
    · exact (ih h).trans (le_max_right _ _)

theorem fresh_notMem (used : List ℕ) (hint : ℕ) : fresh used hint ∉ used := by
  unfold fresh
  split_ifs with h
  · intro hm; have := le_foldr_max hm; omega
  · exact h

theorem pageAlign_of_dvd {a : ℕ} (hd : pageSize ∣ a) (ha : a < wordSize) : pageAlign a = a := by
  obtain ⟨k, rfl⟩ := hd
  simp only [pageAlign, pageSize, wordSize] at ha ⊢
  omega

theorem pageSize_dvd_pageBase (a : ℕ) : pageSize ∣ pageBase a := Dvd.intro_left _ rfl

theorem pageBase_le (a : ℕ) : pageBase a ≤ a := Nat.div_mul_le_self a pageSize

/-! ## Data -/

/-- the address range of a VMA: page-aligned, not empty, below the top of the address space -/
structure VmRange where
  start : ℕ
  stop : ℕ
  start_lt_stop : start < stop
  stop_lt : stop < wordSize
  dvd_start : pageSize ∣ start
  dvd_stop : pageSize ∣ stop
deriving DecidableEq

/-- the number of pages of the range -/
def VmRange.pages (r : VmRange) : ℕ := (r.stop - r.start) / pageSize

/-- the base address of the `i`-th page -/
def VmRange.page (r : VmRange) (i : ℕ) : ℕ := r.start + i * pageSize

/-- the two parts of a range cut at a page boundary strictly inside it -/
def VmRange.cut (r : VmRange) (c : ℕ) : Option (VmRange × VmRange) :=
  if h : r.start < c ∧ c < r.stop ∧ pageSize ∣ c then
    some (⟨r.start, c, h.1, h.2.1.trans r.stop_lt, r.dvd_start, h.2.2⟩,
      ⟨c, r.stop, h.2.1, r.stop_lt, h.2.2, r.dvd_stop⟩)
  else none

inductive VmOps where
  | dummy
  | paging
deriving DecidableEq, Repr

/-- `vm_area_struct`: its address, its address space, its range, and the two fields `paging_mmap` sets -/
structure VmArea where
  id : ℕ
  mm : ℕ
  range : VmRange
  vmOps : VmOps
  vmPrivateData : Option ℕ
deriving DecidableEq

/-- `ref_page_node`: the address kmalloc gave it and the page it tracks -/
structure RefPageNode where
  addr : ℕ
  page : ℕ
deriving DecidableEq, Repr

structure St where
  /-- the module parameter -/
  demandPaging : ℕ
  /-- `ref_page_list`, head first -/
  refPageList : List RefPageNode
  allocCount : ℕ
  freeCount : ℕ
  /-- pages handed out by `alloc_page` and not yet freed -/
  pages : List ℕ
  /-- `ref_page_node`s allocated and not yet freed -/
  nodes : List ℕ
  /-- `pa_state_struct`s allocated and not yet freed -/
  pas : List ℕ
  /-- the `ref_count` field at each `pa_state_struct` -/
  refCount : ℕ → ℕ
  /-- live VMAs -/
  vmas : List VmArea
  /-- page tables: address space, page base address -/
  pte : ℕ → ℕ → Option ℕ
  /-- history: the mapping into which a page was last installed -/
  installedIn : ℕ → Option ℕ
  /-- history: the `pa_state_struct`s of failed mmaps -/
  orphans : List ℕ

/-- the ways the code can break the kernel -/
inductive Oops where
  | nullDeref
  | useAfterFree
  | doubleFree
deriving DecidableEq, Repr

/-- the kernel's answers to one `do_fault`: `alloc_page`, `remap_pfn_range` (is it 0?), `kmalloc` -/
structure FaultEnv where
  allocPage : Option ℕ
  remapPfnRange : Bool
  kmalloc : Option ℕ
deriving DecidableEq, Repr

/-- the kernel's answers to one `paging_mmap`: `kmalloc` of the `pa_state_struct`, and to the `k`-th `do_fault` -/
structure MmapEnv where
  kmalloc : Option ℕ
  fault : ℕ → FaultEnv

/-! ## Error codes -/

def ENOMEM : ℤ := 12
def VM_FAULT_OOM : ℤ := 1
def VM_FAULT_SIGBUS : ℤ := 2
def VM_FAULT_NOPAGE : ℤ := 256

/-! ## Kernel services -/

/-- `__free_page` -/
def freePage (s : St) (pg : ℕ) : Except Oops St :=
  if pg ∈ s.pages then .ok { s with pages := s.pages.erase pg } else .error .doubleFree

/-- `kfree` of a `ref_page_node` -/
def kfreeNode (s : St) (a : ℕ) : Except Oops St :=
  if a ∈ s.nodes then .ok { s with nodes := s.nodes.erase a } else .error .doubleFree

/-- `kfree` of a `pa_state_struct` -/
def kfreePas (s : St) (a : ℕ) : Except Oops St :=
  if a ∈ s.pas then .ok { s with pas := s.pas.erase a } else .error .doubleFree

/-- the address `kmalloc` hands out -/
def kmallocAddr (s : St) (hint : ℕ) : ℕ := fresh (s.pas ++ s.nodes) hint

/-- `remap_pfn_range` of one page, when it succeeds -/
def remapPage (s : St) (vma : VmArea) (va pg : ℕ) : St :=
  { s with
    pte := fun m a => if m = vma.mm ∧ a = va then some pg else s.pte m a
    installedIn := fun p => if p = pg then vma.vmPrivateData else s.installedIn p }

/-- the kernel clears the page-table entries of a range -/
def zap (s : St) (mm : ℕ) (r : VmRange) : St :=
  { s with pte := fun m a => if m = mm ∧ r.start ≤ a ∧ a < r.stop then none else s.pte m a }

/-- follow `vm_private_data` to a `pa_state_struct` -/
def derefPas (s : St) : Option ℕ → Except Oops ℕ
  | none => .error .nullDeref
  | some x => if x ∈ s.pas then .ok x else .error .useAfterFree

/-! ## The module's functions -/

/-- `do_fault`, with no other call between its lines. Both callers have it for a page without a page-table entry: `step`
looks before `paging_vma_fault`, and `paging_mmap` goes once over a range that the kernel has cleared. So
`remap_pfn_range` never meets an entry here; where calls overlap it can, and `faultAct` makes that the BUG it is. -/
def doFault (s : St) (vma : VmArea) (faultAddress : ℕ) (e : FaultEnv) : Except Oops (ℤ × St) :=
  match e.allocPage with
  | none => .ok (VM_FAULT_OOM, s)
  | some hint =>
    let pg := fresh s.pages hint
    let s₁ := { s with pages := pg :: s.pages }
    if e.remapPfnRange then
      let s₂ := remapPage s₁ vma (pageAlign faultAddress) pg
      match e.kmalloc with
      | none => .error .nullDeref -- `page_node->page = pg` without a NULL check
      | some nodeHint =>
        let pageNode : RefPageNode := ⟨kmallocAddr s₂ nodeHint, pg⟩
        .ok (VM_FAULT_NOPAGE, { s₂ with
          nodes := pageNode.addr :: s₂.nodes
          refPageList := pageNode :: s₂.refPageList
          allocCount := atomicInc s₂.allocCount })
    else
      (freePage s₁ pg).map fun s₂ => (VM_FAULT_SIGBUS, s₂)

def pagingVmaFault (s : St) (vma : VmArea) (address : ℕ) (e : FaultEnv) : Except Oops (ℤ × St) :=
  doFault s vma address e

def pagingVmaOpen (s : St) (vma : VmArea) : Except Oops St := do
  let x ← derefPas s vma.vmPrivateData
  .ok { s with refCount := Function.update s.refCount x (atomicInc (s.refCount x)) }

/-- the body of `list_for_each_entry_safe` in `paging_vma_close` -/
def freeNode (s : St) (pageNode : RefPageNode) : Except Oops St := do
  let s₁ ← freePage s pageNode.page
  let s₂ ← kfreeNode { s₁ with refPageList := s₁.refPageList.erase pageNode } pageNode.addr
  .ok { s₂ with freeCount := atomicInc s₂.freeCount }

def pagingVmaClose (s : St) (vma : VmArea) : Except Oops St := do
  let x ← derefPas s vma.vmPrivateData
  let s₁ := { s with refCount := Function.update s.refCount x (atomicDec (s.refCount x)) }
  if s₁.refCount x = 0 then
    let s₂ ← s₁.refPageList.foldlM freeNode s₁
    kfreePas s₂ x
  else
    .ok s₁

/-- a page below the end of a range does not wrap around when the loop adds PAGE_SIZE -/
theorem VmRange.add_pageSize {r : VmRange} {a : ℕ} (h : a < r.stop) : (a + pageSize) % wordSize = a + pageSize := by
  obtain ⟨k, hk⟩ := r.dvd_stop
  have := r.stop_lt
  simp only [pageSize, wordSize] at *
  omega

/-- the pre-paging loop of `paging_mmap`, from its `k`-th iteration on -/
def prepage (s : St) (vma : VmArea) (e : ℕ → FaultEnv) (k addr : ℕ) : Except Oops (ℤ × St) :=
  if _h : addr < vma.range.stop then
    match doFault s vma addr (e k) with
    | .error o => .error o
    | .ok (result, t) =>
      if result = VM_FAULT_OOM then .ok (result, t)
      else if result = VM_FAULT_SIGBUS then .ok (result, t)
      else prepage t vma e (k + 1) ((addr + pageSize) % wordSize)
  else .ok (0, s)
termination_by vma.range.stop - addr
decreasing_by
  rw [VmRange.add_pageSize _h]
  simp only [pageSize]
  omega

def pagingMmap (s : St) (vma : VmArea) (e : MmapEnv) : Except Oops (ℤ × VmArea × St) :=
  let vma₁ := { vma with vmOps := .paging }
  match e.kmalloc with
  | none => .ok (ENOMEM, vma₁, s)
  | some hint =>
    let pas := kmallocAddr s hint
    let s₁ := { s with pas := pas :: s.pas, refCount := Function.update s.refCount pas 1 }
    let vma₂ := { vma₁ with vmPrivateData := some pas }
    if s₁.demandPaging = 0 then
      (prepage s₁ vma₂ e.fault 0 vma₂.range.start).map fun p => (p.1, vma₂, p.2)
    else .ok (0, vma₂, s₁)

/-! ## The system: what the kernel asks the module to do -/

inductive Op where
  /-- a write to the module parameter (its mode is 0644) -/
  | setDemandPaging (v : ℕ)
  | mmap (hint mm : ℕ) (r : VmRange) (e : MmapEnv)
  | fault (id addr : ℕ) (e : FaultEnv)
  | split (id hint c : ℕ)
  | close (id : ℕ)

/-- the live VMA at an address -/
def vmaOf (s : St) (id : ℕ) : Option VmArea := s.vmas.find? fun v => v.id = id

/-- the address of a new `vm_area_struct` -/
def vmaAddr (s : St) (hint : ℕ) : ℕ := fresh (s.vmas.map VmArea.id) hint

/-- is the range free of VMAs of this address space? -/
def Unused (s : St) (mm : ℕ) (r : VmRange) : Prop :=
  ∀ v ∈ s.vmas, v.mm = mm → v.range.stop ≤ r.start ∨ r.stop ≤ v.range.start

instance (s : St) (mm : ℕ) (r : VmRange) : Decidable (Unused s mm r) := by unfold Unused; infer_instance

/-- what the kernel does with the driver's answer to an mmap -/
def finishMmap (mm : ℕ) (r : VmRange) : ℤ × VmArea × St → St
  | (result, vma, t) =>
    if result = 0 then { t with vmas := vma :: t.vmas }
    else zap { t with orphans := vma.vmPrivateData.toList ++ t.orphans } mm r

def step (s : St) : Op → Except Oops St
  | .setDemandPaging v => .ok { s with demandPaging := v % wordSize }
  | .mmap hint mm r e =>
    if Unused s mm r then
      (pagingMmap (zap s mm r) ⟨vmaAddr s hint, mm, r, .dummy, none⟩ e).map (finishMmap mm r)
    else .ok s
  | .fault id addr e =>
    match vmaOf s id with
    | none => .ok s
    | some vma =>
      if vma.range.start ≤ addr ∧ addr < vma.range.stop ∧ s.pte vma.mm (pageBase addr) = none then
        (pagingVmaFault s vma (pageBase addr) e).map Prod.snd
      else .ok s
  | .split id hint c =>
    match vmaOf s id with
    | none => .ok s
    | some vma =>
      match vma.range.cut c with
      | none => .ok s
      | some (lo, hi) =>
        let new := { vma with id := vmaAddr s hint, range := hi }
        (pagingVmaOpen s new).map fun t => { t with vmas := new :: { vma with range := lo } :: t.vmas.erase vma }
  | .close id =>
    match vmaOf s id with
    | none => .ok s
    | some vma => (pagingVmaClose (zap s vma.mm vma.range) vma).map fun t => { t with vmas := t.vmas.erase vma }

def run (s : St) (ops : List Op) : Except Oops St := ops.foldlM step s

/-- the module right after loading, with its parameter -/
def init (demandPaging : ℕ) : St :=
  { demandPaging, refPageList := [], allocCount := 0, freeCount := 0, pages := [], nodes := [], pas := []
    refCount := fun _ => 0, vmas := [], pte := fun _ _ => none, installedIn := fun _ => none, orphans := [] }

/-- the number of live VMAs of a mapping -/
def live (s : St) (x : ℕ) : ℕ := s.vmas.countP fun v => v.vmPrivateData = some x

/-! ## Data of the examples -/

/-- a range of two pages -/
def twoPages : VmRange := ⟨4096, 12288, by decide, by decide, by decide, by decide⟩

/-- every allocation and every remap succeeds -/
def allSucceed : FaultEnv := ⟨some 0, true, some 0⟩

end Cse422.Paging
