/-
The pre-paging loop of `paging_mmap`, over a range of any size and every pattern of failures.

- `prepage_zero`: when the loop returns 0, it has mapped every page of the range to a page of its own that was free
  before, it has put one node for each on the list, and it has changed no other page-table entry (`Prepaged`);
- `prepage_nonzero`: when it returns another value, some `do_fault` failed after all earlier ones succeeded;
- `prepage_succeeds`, `prepage_fails_at`: the converses. They also say that the loop returns at all.
-/
import Cse422.Paging.Invariant

namespace Cse422.Paging

/-! ## Page addresses -/

theorem VmRange.page_succ (r : VmRange) (i : ℕ) : r.page i + pageSize = r.page (i + 1) := by
  simp only [VmRange.page]; ring

theorem VmRange.page_lt_stop {r : VmRange} {i : ℕ} : r.page i < r.stop ↔ i < r.pages := by
  have h1 := r.pages_mul
  have h2 := r.start_lt_stop
  simp only [VmRange.page, pageSize] at *
  omega

theorem VmRange.dvd_page (r : VmRange) (i : ℕ) : pageSize ∣ r.page i :=
  Nat.dvd_add r.dvd_start (Nat.dvd_mul_left pageSize i)

theorem VmRange.pageAlign_page {r : VmRange} {i : ℕ} (h : i < r.pages) : pageAlign (r.page i) = r.page i :=
  pageAlign_of_dvd (r.dvd_page i) ((VmRange.page_lt_stop.2 h).trans r.stop_lt)

theorem VmRange.page_injective (r : VmRange) : Function.Injective r.page := by
  intro i j h
  simp only [VmRange.page, pageSize] at h
  omega

/-- every page-aligned address of the range is the base of one of its pages -/
theorem VmRange.exists_page {r : VmRange} {a : ℕ} (h1 : r.start ≤ a) (h2 : a < r.stop) (hd : pageSize ∣ a) :
    ∃ i < r.pages, a = r.page i := by
  have hp := r.pages_mul
  obtain ⟨b, hb⟩ := r.dvd_start
  obtain ⟨c, hc⟩ := hd
  refine ⟨c - b, ?_, ?_⟩
  · simp only [pageSize] at *
    omega
  · simp only [VmRange.page, pageSize] at *
    omega

/-! ## When the loop completes -/

/-- `t` is `s` after the pages from the `j`-th on have been installed in the range of the VMA -/
structure Prepaged (vma : VmArea) (j : ℕ) (s t : St) : Prop where
  fresh : ∀ i, j ≤ i → i < vma.range.pages → ∃ p, t.pte vma.mm (vma.range.page i) = some p ∧ p ∉ s.pages
  distinct : ∀ i k, j ≤ i → i < k → k < vma.range.pages →
    t.pte vma.mm (vma.range.page i) ≠ t.pte vma.mm (vma.range.page k)
  frame : ∀ m a, (∀ i, j ≤ i → i < vma.range.pages → ¬ (m = vma.mm ∧ a = vma.range.page i)) → t.pte m a = s.pte m a
  length : t.refPageList.length = s.refPageList.length + (vma.range.pages - j)
  count : t.allocCount % wordSize = (s.allocCount + (vma.range.pages - j)) % wordSize

theorem prepaged_refl (vma : VmArea) {j : ℕ} (hj : vma.range.pages ≤ j) (s : St) : Prepaged vma j s s where
  fresh i h1 h2 := by omega
  distinct i k h1 h2 h3 := by omega
  frame _ _ _ := rfl
  length := by omega
  count := by rw [Nat.sub_eq_zero_of_le hj, Nat.add_zero]

/-- one more page in front of those the rest of the loop installs -/
theorem prepaged_cons {vma : VmArea} {j hint nodeHint : ℕ} {s t : St} (hj : j < vma.range.pages)
    (h : Prepaged vma (j + 1) (installed s vma (vma.range.page j) hint nodeHint) t) : Prepaged vma j s t := by
  set pg := Cse422.Paging.fresh s.pages hint
  set u := installed s vma (vma.range.page j) hint nodeHint
  have hfirst : t.pte vma.mm (vma.range.page j) = some pg := by
    rw [h.frame]
    · simp [u, installed, pg]
    · rintro i hi _ ⟨-, he⟩
      have := vma.range.page_injective he
      omega
  have hrest : ∀ i, j + 1 ≤ i → i < vma.range.pages →
      ∃ p, t.pte vma.mm (vma.range.page i) = some p ∧ p ≠ pg ∧ p ∉ s.pages := by
    intro i h1 h2
    obtain ⟨p, hp, hpu⟩ := h.fresh i h1 h2
    exact ⟨p, hp, fun he => hpu (he ▸ List.mem_cons_self), fun hm => hpu (List.mem_cons_of_mem _ hm)⟩
  refine ⟨fun i h1 h2 => ?_, fun i k h1 h2 h3 => ?_, fun m a ha => ?_, ?_, ?_⟩
  · rcases Nat.eq_or_lt_of_le h1 with rfl | h1
    · exact ⟨pg, hfirst, fresh_notMem _ _⟩
    · obtain ⟨p, hp, -, hps⟩ := hrest i h1 h2
      exact ⟨p, hp, hps⟩
  · rcases Nat.eq_or_lt_of_le h1 with rfl | h1
    · obtain ⟨p, hp, hne, -⟩ := hrest k h2 h3
      rw [hfirst, hp]
      simpa using Ne.symm hne
    · exact h.distinct i k h1 h2 h3
  · rw [h.frame m a fun i h1 h2 => ha i (by omega) h2]
    have := ha j le_rfl hj
    simp only [u, installed, if_neg this]
  · rw [h.length]
    simp only [u, installed, List.length_cons]
    omega
  · have hc := h.count
    simp only [u, installed, atomicInc, wordSize] at hc ⊢
    omega

section Loop

variable {s t : St} {vma : VmArea} {e : ℕ → FaultEnv} {j k : ℕ} {r : ℤ}

/-- **The loop completes.** It returns 0 only after it has mapped every page of the range. -/
theorem prepage_zero (h : prepage s vma e j (vma.range.page j) = .ok (0, t)) : Prepaged vma j s t := by
  induction hn : vma.range.pages - j generalizing s j with
  | zero =>
    have hj : vma.range.pages ≤ j := by omega
    rw [prepage_stop (by rw [VmRange.page_lt_stop]; omega)] at h
    cases h
    exact prepaged_refl vma hj _
  | succ n ih =>
    have hj : j < vma.range.pages := by omega
    rcases prepage_ok h with ⟨ha, -, -⟩ | ⟨-, -, hr | hr, -⟩ | ⟨-, -, hint, nodeHint, h⟩
    · exact absurd (VmRange.page_lt_stop.2 hj) ha
    · cases hr
    · cases hr
    · rw [VmRange.page_succ, VmRange.pageAlign_page hj] at h
      exact prepaged_cons hj (ih h (by omega))

/-- **The loop stops early.** It returns another value only when a `do_fault` fails after all earlier ones
succeeded. -/
theorem prepage_nonzero (h : prepage s vma e j (vma.range.page j) = .ok (r, t)) (h0 : r ≠ 0) :
    (r = VM_FAULT_OOM ∨ r = VM_FAULT_SIGBUS) ∧
      ∃ k, j ≤ k ∧ k < vma.range.pages ∧ (∀ i, j ≤ i → i < k → (e i).Succeeds) ∧ (e k).Fails := by
  induction hn : vma.range.pages - j generalizing s j with
  | zero =>
    rw [prepage_stop (by rw [VmRange.page_lt_stop]; omega)] at h
    cases h
    exact absurd rfl h0
  | succ n ih =>
    have hj : j < vma.range.pages := by omega
    rcases prepage_ok h with ⟨-, hr, -⟩ | ⟨-, hf, hr, -⟩ | ⟨-, hs, hint, nodeHint, h⟩
    · exact absurd hr h0
    · exact ⟨hr, j, le_rfl, hj, fun i h1 h2 => by omega, hf⟩
    · rw [VmRange.page_succ] at h
      obtain ⟨hr, k, h1, h2, h3, h4⟩ := ih h (by omega)
      refine ⟨hr, k, by omega, h2, fun i hi hik => ?_, h4⟩
      rcases Nat.eq_or_lt_of_le hi with rfl | hi
      · exact hs
      · exact h3 i hi hik

theorem prepage_succeeds (hs : ∀ i, j ≤ i → i < vma.range.pages → (e i).Succeeds) :
    ∃ t, prepage s vma e j (vma.range.page j) = .ok (0, t) := by
  induction hn : vma.range.pages - j generalizing s j with
  | zero => exact ⟨s, prepage_stop (by rw [VmRange.page_lt_stop]; omega)⟩
  | succ n ih =>
    have hj : j < vma.range.pages := by omega
    obtain ⟨hint, nodeHint, hf⟩ := doFault_succeeds (hs j le_rfl hj)
    rw [prepage_nopage (VmRange.page_lt_stop.2 hj) hf, VmRange.page_succ]
    exact ih (fun i h1 h2 => hs i (by omega) h2) (by omega)

theorem prepage_fails_at (hjk : j ≤ k) (hk : k < vma.range.pages) (hs : ∀ i, j ≤ i → i < k → (e i).Succeeds)
    (hf : (e k).Fails) :
    ∃ r t, prepage s vma e j (vma.range.page j) = .ok (r, t) ∧ (r = VM_FAULT_OOM ∨ r = VM_FAULT_SIGBUS) := by
  induction hn : k - j generalizing s j with
  | zero =>
    obtain rfl : j = k := by omega
    rcases prepage_fails (VmRange.page_lt_stop.2 hk) hf with h | h
    · exact ⟨_, _, h, Or.inl rfl⟩
    · exact ⟨_, _, h, Or.inr rfl⟩
  | succ n ih =>
    have hj : j < vma.range.pages := by omega
    obtain ⟨hint, nodeHint, hd⟩ := doFault_succeeds (hs j le_rfl (by omega))
    rw [prepage_nopage (VmRange.page_lt_stop.2 hj) hd, VmRange.page_succ]
    exact ih (by omega) (fun i h1 h2 => hs i (by omega) h2) (by omega)

end Loop

/-! ## paging_mmap, by the failures it meets -/

/-- a `do_fault` of the pre-paging loop fails: the `pa_state_struct` was allocated, the mode is pre-paging, and
`alloc_page` or `remap_pfn_range` fails for a page of the range after all earlier pages succeeded -/
def PrepageFails (s : St) (r : VmRange) (e : MmapEnv) : Prop :=
  e.kmalloc ≠ none ∧ s.demandPaging = 0 ∧
    ∃ k < r.pages, (∀ i < k, (e.fault i).Succeeds) ∧ (e.fault k).Fails

section Mmap

variable {s t : St} {vma vma' : VmArea} {e : MmapEnv} {r : ℤ}

theorem VmRange.page_zero (r : VmRange) : r.page 0 = r.start := by simp [VmRange.page]

/-- a failing page makes `paging_mmap` return an error code, with the `pa_state_struct` still allocated -/
theorem pagingMmap_prepageFails (h : PrepageFails s vma.range e) :
    ∃ r x t, pagingMmap s vma e = .ok (r, attach vma x, t) ∧ (r = VM_FAULT_OOM ∨ r = VM_FAULT_SIGBUS) ∧
      t.pas = x :: s.pas := by
  obtain ⟨hk, hd, k, hkr, hs, hf⟩ := h
  obtain ⟨hint, hk⟩ := Option.ne_none_iff_exists'.1 hk
  set x := kmallocAddr s hint
  have hloop : ∃ r t, prepage (withPas s x) (attach vma x) e.fault 0 ((attach vma x).range.page 0) = .ok (r, t) ∧
      (r = VM_FAULT_OOM ∨ r = VM_FAULT_SIGBUS) :=
    prepage_fails_at (Nat.zero_le k) hkr (fun i _ hi => hs i hi) hf
  obtain ⟨r, t, hp, hr⟩ := hloop
  rw [VmRange.page_zero] at hp
  refine ⟨r, x, t, ?_, hr, (prepage_grows hp).sameRefs.pas⟩
  rw [pagingMmap_prepage hk hd, map_ok]
  exact ⟨(r, t), hp, rfl⟩

/-- what `paging_mmap` has met, by what it returns -/
theorem pagingMmap_result (h : pagingMmap s vma e = .ok (r, vma', t)) :
    (e.kmalloc = none ∧ r = ENOMEM ∧ t = s) ∨
      (PrepageFails s vma.range e ∧ (r = VM_FAULT_OOM ∨ r = VM_FAULT_SIGBUS)) ∨
      (e.kmalloc ≠ none ∧ r = 0 ∧ ∃ x, vma' = attach vma x ∧
        (s.demandPaging = 0 → Prepaged vma' 0 (withPas s x) t) ∧ (s.demandPaging ≠ 0 → t = withPas s x)) := by
  cases hk : e.kmalloc with
  | none =>
    rw [pagingMmap_enomem hk] at h
    cases h
    exact Or.inl ⟨rfl, rfl, rfl⟩
  | some hint =>
    right
    by_cases hd : s.demandPaging = 0
    · rw [pagingMmap_prepage hk hd, map_ok] at h
      obtain ⟨⟨result, u⟩, hp, he⟩ := h
      cases he
      rw [← VmRange.page_zero] at hp
      by_cases h0 : result = 0
      · subst h0
        right
        exact ⟨by simp, rfl, _, rfl, fun _ => prepage_zero hp, fun hne => absurd hd hne⟩
      · left
        obtain ⟨hr, k, -, h2, h3, h4⟩ := prepage_nonzero hp h0
        exact ⟨⟨by simp [hk], hd, k, h2, fun i hi => h3 i (Nat.zero_le i) hi, h4⟩, hr⟩
    · rw [pagingMmap_demand hk hd] at h
      cases h
      right
      exact ⟨by simp, rfl, _, rfl, fun hz => absurd hz hd, fun _ => rfl⟩

end Mmap

end Cse422.Paging
