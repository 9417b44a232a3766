/-
What a failed `paging_mmap` leaves behind, and what the user program sees of it.

- `failed_mmap_restores_iff`: a failed `paging_mmap` leaves the module as it was if and only if no `do_fault` of
  the pre-paging loop failed. Once the loop has started, the `pa_state_struct` and the pages of the completed
  iterations stay allocated, and the kernel never calls `close` for the VMA (`failed_mmap_leaks`);
- `errors_reported_iff`: `mmap_malloc` of `sort.c` and `dense_mm.c` reports the failures of `paging_mmap` if and
  only if there are none: the driver returns ENOMEM and the VM_FAULT codes as positive numbers, which are not in
  the range that the C library takes for an error (`error_becomes_pointer`).

Neither says anything of a call in which the kmalloc of a list node fails: `do_fault` dereferences the NULL (`Oops`),
and `paging_mmap` returns nothing.
-/
import Cse422.Paging.Prepage

namespace Cse422.Paging

/-! ## The module after a failed mmap -/

/-- nothing of the call is left: no page, no node, no count and no `pa_state_struct` -/
structure Restored (s t : St) : Prop where
  pages : t.pages = s.pages
  list : t.refPageList = s.refPageList
  balance : (t.allocCount + wordSize - t.freeCount) % wordSize = (s.allocCount + wordSize - s.freeCount) % wordSize
  pas : t.pas = s.pas

theorem not_restored_of_pas {s t : St} {x : ℕ} (h : t.pas = x :: s.pas) : ¬ Restored s t := by
  intro hr
  have h1 := congrArg List.length (h.symm.trans hr.pas)
  simp at h1

/-- **A failed mmap leaves nothing behind** exactly when it is not a `do_fault` of the pre-paging loop that failed.
-/
theorem failed_mmap_restores_iff (s : St) (vma : VmArea) (e : MmapEnv) :
    (∀ r vma' t, pagingMmap s vma e = .ok (r, vma', t) → r ≠ 0 → Restored s t) ↔ ¬ PrepageFails s vma.range e := by
  constructor
  · intro h hf
    obtain ⟨r, x, t, hm, hr, hp⟩ := pagingMmap_prepageFails hf
    have h0 : r ≠ 0 := by rcases hr with rfl | rfl <;> decide
    exact not_restored_of_pas hp (h r _ t hm h0)
  · intro hn r vma' t hm h0
    rcases pagingMmap_result hm with ⟨-, -, rfl⟩ | ⟨hf, -⟩ | ⟨-, hr, -⟩
    · exact ⟨rfl, rfl, rfl, rfl⟩
    · exact absurd hf hn
    · exact absurd hr h0

/-- memory for one page, then none -/
def onePageLeft : MmapEnv := ⟨some 0, fun k => if k = 0 then allSucceed else ⟨none, true, some 0⟩⟩

/-- the VMA of the examples, before the driver has seen it -/
def newTwoPages : VmArea := ⟨0, 0, twoPages, .dummy, none⟩

/-- **A failed mmap leaks.** Pre-paging two pages with memory for one returns VM_FAULT_OOM; the first page and the
`pa_state_struct` stay allocated. -/
theorem failed_mmap_leaks :
    ∃ vma' t, pagingMmap (init 0) newTwoPages onePageLeft = .ok (VM_FAULT_OOM, vma', t) ∧
      t.pages = [0] ∧ t.pas = [0] ∧ ¬ Restored (init 0) t := by
  set s := withPas (init 0) 0
  set vma := attach newTwoPages 0
  have h0 : doFault s vma 4096 (onePageLeft.fault 0) = .ok (VM_FAULT_NOPAGE, installed s vma 4096 0 0) :=
    doFault_nopage rfl rfl rfl
  have h1 : prepage (installed s vma 4096 0 0) vma onePageLeft.fault (0 + 1) (4096 + pageSize) =
      .ok (VM_FAULT_OOM, installed s vma 4096 0 0) := by
    rw [prepage, dif_pos (by decide), doFault_oom rfl]
    rfl
  refine ⟨vma, installed s vma 4096 0 0, ?_, rfl, rfl, not_restored_of_pas rfl⟩
  rw [pagingMmap_prepage rfl rfl]
  change (prepage s vma onePageLeft.fault 0 4096).map _ = _
  rw [prepage_nopage (by decide) h0, h1]
  rfl

/-! ## The way of an error to the program -/

/-- an `int` as the `unsigned long` result of the system call -/
def toWord (r : ℤ) : ℕ := (r % (wordSize : ℤ)).toNat

/-- the mmap system call: the address of the new range, or the driver's non-zero result unchanged -/
def sysMmap (r : VmRange) (result : ℤ) : ℕ := if result = 0 then r.start else toWord result

/-- `(void *) -1` -/
def MAP_FAILED : ℕ := wordSize - 1

/-- the C library takes the results in [-4095, -1] for errors -/
def libcMmap (result : ℕ) : ℕ := if wordSize - 4095 ≤ result then MAP_FAILED else result

/-- `mmap` as the program calls it: the kernel picks a VMA for the length and asks the driver -/
def mmap (s : St) (place : ℕ → VmArea) (e : MmapEnv) (bytes : ℕ) : Except Oops ℕ :=
  (pagingMmap s (place bytes) e).map fun p => libcMmap (sysMmap (place bytes).range p.1)

def NULL : ℕ := 0

/-- `mmap_malloc` over a given `mmap`, the same text in both programs -/
def mmapMallocWith (mmap : ℕ → Except Oops ℕ) (bytes : ℕ) : Except Oops ℕ :=
  (mmap bytes).map fun data => if data = MAP_FAILED then NULL else data

/-- `mmap_malloc` of `sort.c` -/
def SortProgram.mmapMalloc (mmap : ℕ → Except Oops ℕ) (bytes : ℕ) : Except Oops ℕ := mmapMallocWith mmap bytes

/-- `mmap_malloc` of `dense_mm.c` -/
def DenseMmProgram.mmapMalloc (mmap : ℕ → Except Oops ℕ) (bytes : ℕ) : Except Oops ℕ := mmapMallocWith mmap bytes

/-- every page of the range is mapped -/
def WholeRangeMapped (t : St) (mm : ℕ) (r : VmRange) : Prop := ∀ i < r.pages, t.pte mm (r.page i) ≠ none

/-- a call of `paging_mmap` that returns `result` and leaves `t`, and the pointer the program gets: it is not NULL
only if the mmap succeeded, with the whole range mapped when pre-paging, and it is NULL if the mmap failed -/
def ErrorsReported (malloc : (ℕ → Except Oops ℕ) → ℕ → Except Oops ℕ) (s : St) (place : ℕ → VmArea) (e : MmapEnv)
    (bytes : ℕ) : Prop :=
  ∀ result vma' t p, pagingMmap s (place bytes) e = .ok (result, vma', t) →
    malloc (mmap s place e) bytes = .ok p →
    (p ≠ NULL → result = 0 ∧ (s.demandPaging = 0 → WholeRangeMapped t vma'.mm vma'.range)) ∧ (result ≠ 0 → p = NULL)

theorem mmapMallocWith_eq {s t : St} {place : ℕ → VmArea} {e : MmapEnv} {bytes : ℕ} {result : ℤ} {vma' : VmArea}
    (h : pagingMmap s (place bytes) e = .ok (result, vma', t)) :
    mmapMallocWith (mmap s place e) bytes =
      .ok (if libcMmap (sysMmap (place bytes).range result) = MAP_FAILED then NULL
        else libcMmap (sysMmap (place bytes).range result)) := by
  simp [mmapMallocWith, mmap, h, Except.map]

/-- the codes the driver fails with are small positive numbers: the C library passes them on as addresses -/
theorem error_code_passes {result : ℤ} (h : result = ENOMEM ∨ result = VM_FAULT_OOM ∨ result = VM_FAULT_SIGBUS)
    (r : VmRange) : libcMmap (sysMmap r result) ≠ MAP_FAILED ∧ libcMmap (sysMmap r result) ≠ NULL ∧ result ≠ 0 := by
  rcases h with rfl | rfl | rfl
  · exact ⟨show libcMmap 12 ≠ MAP_FAILED by decide, show libcMmap 12 ≠ NULL by decide, by decide⟩
  · exact ⟨show libcMmap 1 ≠ MAP_FAILED by decide, show libcMmap 1 ≠ NULL by decide, by decide⟩
  · exact ⟨show libcMmap 2 ≠ MAP_FAILED by decide, show libcMmap 2 ≠ NULL by decide, by decide⟩

theorem Prepaged.wholeRangeMapped {s t : St} {vma : VmArea} (h : Prepaged vma 0 s t) :
    WholeRangeMapped t vma.mm vma.range := by
  intro i hi
  obtain ⟨p, hp, -⟩ := h.fresh i (Nat.zero_le i) hi
  simp [hp]

theorem mmapMallocWith_reports_iff (s : St) (place : ℕ → VmArea) (e : MmapEnv) (bytes : ℕ) :
    ErrorsReported mmapMallocWith s place e bytes ↔
      e.kmalloc ≠ none ∧ ¬ PrepageFails s (place bytes).range e := by
  constructor
  · intro h
    have hfail : ∀ result vma' t, pagingMmap s (place bytes) e = .ok (result, vma', t) →
        ¬ (result = ENOMEM ∨ result = VM_FAULT_OOM ∨ result = VM_FAULT_SIGBUS) := by
      intro result vma' t hm hr
      obtain ⟨h1, h2, h3⟩ := error_code_passes hr (place bytes).range
      have hp := (h result vma' t _ hm (mmapMallocWith_eq hm)).2 h3
      rw [if_neg h1] at hp
      exact h2 hp
    refine ⟨fun hk => ?_, fun hf => ?_⟩
    · exact hfail _ _ _ (pagingMmap_enomem hk) (Or.inl rfl)
    · obtain ⟨r, x, t, hm, hr, -⟩ := pagingMmap_prepageFails hf
      exact hfail _ _ _ hm (Or.inr hr)
  · rintro ⟨hk, hf⟩ result vma' t p hm -
    rcases pagingMmap_result hm with ⟨hk', -⟩ | ⟨hf', -⟩ | ⟨-, rfl, x, rfl, hpre, -⟩
    · exact absurd hk' hk
    · exact absurd hf' hf
    · exact ⟨fun _ => ⟨rfl, fun hd => (hpre hd).wholeRangeMapped⟩, fun h0 => absurd rfl h0⟩

/-- **Errors reach the program** exactly when there are none: both copies of `mmap_malloc` return NULL for a failed
`paging_mmap` only if it did not fail. -/
theorem errors_reported_iff (s : St) (place : ℕ → VmArea) (e : MmapEnv) (bytes : ℕ) :
    (ErrorsReported SortProgram.mmapMalloc s place e bytes ↔ e.kmalloc ≠ none ∧ ¬ PrepageFails s (place bytes).range e) ∧
      (ErrorsReported DenseMmProgram.mmapMalloc s place e bytes ↔
        e.kmalloc ≠ none ∧ ¬ PrepageFails s (place bytes).range e) :=
  ⟨mmapMallocWith_reports_iff s place e bytes, mmapMallocWith_reports_iff s place e bytes⟩

/-- **An error becomes a pointer.** Without memory for the `pa_state_struct`, `paging_mmap` returns 12, and both
programs get 12 for an address. -/
theorem error_becomes_pointer :
    (∃ vma' t, pagingMmap (init 1) newTwoPages ⟨none, fun _ => allSucceed⟩ = .ok (ENOMEM, vma', t)) ∧
      SortProgram.mmapMalloc (mmap (init 1) (fun _ => newTwoPages) ⟨none, fun _ => allSucceed⟩) 8192 = .ok 12 ∧
      DenseMmProgram.mmapMalloc (mmap (init 1) (fun _ => newTwoPages) ⟨none, fun _ => allSucceed⟩) 8192 = .ok 12 ∧
      ¬ ErrorsReported SortProgram.mmapMalloc (init 1) (fun _ => newTwoPages) ⟨none, fun _ => allSucceed⟩ 8192 ∧
      ¬ ErrorsReported DenseMmProgram.mmapMalloc (init 1) (fun _ => newTwoPages) ⟨none, fun _ => allSucceed⟩ 8192 := by
  refine ⟨⟨_, _, pagingMmap_enomem rfl⟩, rfl, rfl, fun h => ?_, fun h => ?_⟩
  · have hp := (h ENOMEM _ _ 12 (pagingMmap_enomem rfl) rfl).2 (by decide)
    cases hp
  · have hp := (h ENOMEM _ _ 12 (pagingMmap_enomem rfl) rfl).2 (by decide)
    cases hp

end Cse422.Paging
