/-
Page accounting and reference counts of the paging module, over every sequence of events and every failure pattern.

Results:
- `page_accounting`: if the kmalloc of the list nodes succeeds, every run completes (so no page is freed that is
  not allocated at that moment). In the state it reaches, the allocated pages are those on `ref_page_list`, each
  there once, and the two counters differ by its length. A close that drops a reference count to zero leaves an
  empty list and equal counters.
- `ref_counts`: no run dereferences or frees a freed `pa_state_struct`. In every state reached, the count of a
  structure attached by a successful mmap is the number of live VMAs that point to it, and a step frees the
  structure if and only if it is the close of the last of them.
-/
import Cse422.Paging.Invariant

namespace Cse422.Paging

/-! ## Pages -/

/-- the allocator, the list and the two counters agree -/
structure Accounted (s : St) : Prop where
  listed : ∀ p, p ∈ s.pages ↔ p ∈ s.refPageList.map RefPageNode.page
  once : (s.refPageList.map RefPageNode.page).Nodup
  balance : (s.allocCount + wordSize - s.freeCount) % wordSize = s.refPageList.length % wordSize

theorem Ledger.accounted {s : St} (h : Ledger s) : Accounted s where
  listed p := by rw [h.pages]
  once := h.pages ▸ h.pagesNodup
  balance := by
    have h1 := h.count
    have h2 := h.freeLt
    simp only [wordSize] at *
    omega

theorem Ledger.counters_eq {s : St} (h : Ledger s) (he : s.refPageList = []) : s.allocCount = s.freeCount := by
  rw [h.count, he, List.length_nil, Nat.add_zero, Nat.mod_eq_of_lt h.freeLt]

/-- a decremented count is zero only when the mapping had one live VMA -/
theorem Refs.live_eq_one {s : St} (h : Refs s) {v : VmArea} {x : ℕ} (hv : v ∈ s.vmas) (hx : v.vmPrivateData = some x)
    (h0 : atomicDec (s.refCount x) = 0) : live s x = 1 := by
  obtain ⟨-, -, hcount, hpos⟩ := h.of_private hv hx
  rw [hcount, h.atomicDec_live hpos] at h0
  omega

/-- the close of the last VMA of a mapping completes, and empties the list -/
theorem closeLast_empties {s : St} {id : ℕ} {v : VmArea} {x : ℕ} (h : Inv s) (hv : vmaOf s id = some v)
    (hx : v.vmPrivateData = some x) (hl : live s x = 1) :
    ∃ t, step s (.close id) = .ok t ∧ t.refPageList = [] := by
  obtain ⟨t, ht⟩ := step_total (o := .close id) h trivial
  refine ⟨t, ht, ?_⟩
  cases step_effect h ht with
  | skip hd => exact absurd ⟨v, hv⟩ hd
  | closeShared hv' hx' hl' =>
    obtain rfl := Option.some.inj (hv.symm.trans hv')
    obtain rfl := Option.some.inj (hx.symm.trans hx')
    omega
  | closeLast => rfl

/-- **Page accounting.** -/
theorem page_accounting (d : ℕ) (ops : List Op) (hops : ∀ o ∈ ops, o.NodesOk) :
    ∃ s, run (init d) ops = .ok s ∧ Accounted s ∧
      ∀ id v x, vmaOf s id = some v → v.vmPrivateData = some x → atomicDec (s.refCount x) = 0 →
        ∃ t, step s (.close id) = .ok t ∧ t.refPageList = [] ∧ t.allocCount = t.freeCount := by
  obtain ⟨s, hs⟩ := run_total (inv_init d) hops
  have h := run_inv hs
  refine ⟨s, hs, h.ledger.accounted, fun id v x hv hx h0 => ?_⟩
  obtain ⟨t, ht, he⟩ := closeLast_empties h hv hx (h.refs.live_eq_one (vmaOf_mem hv).1 hx h0)
  exact ⟨t, ht, he, (step_inv h ht).ledger.counters_eq he⟩

/-- a pre-paged mapping of two pages -/
theorem page_accounting_two :
    ∃ s, run (init 0) [.mmap 0 0 twoPages ⟨some 0, fun _ => allSucceed⟩] = .ok s ∧ Accounted s ∧
      ∀ id v x, vmaOf s id = some v → v.vmPrivateData = some x → atomicDec (s.refCount x) = 0 →
        ∃ t, step s (.close id) = .ok t ∧ t.refPageList = [] ∧ t.allocCount = t.freeCount :=
  page_accounting 0 _ (by simp [Op.NodesOk, allSucceed])

/-! ## Reference counts -/

/-- the step closes the last live VMA of mapping `x` -/
def ClosesLast (s : St) (o : Op) (x : ℕ) : Prop :=
  ∃ id v, o = .close id ∧ vmaOf s id = some v ∧ v.vmPrivateData = some x ∧ live s x = 1

/-- a step frees the `pa_state_struct` of a successful mmap exactly when it closes the last VMA -/
theorem effect_frees {s t : St} {o : Op} {x : ℕ} (h : Refs s) (he : Effect s o t) (hx : x ∈ s.pas) :
    x ∉ t.pas ↔ ClosesLast s o x := by
  have not_last : ∀ {o : Op}, (∀ id, o ≠ .close id) → ¬ ClosesLast s o x := by
    rintro o ho ⟨id, v, rfl, -⟩
    exact ho id rfl
  cases he with
  | skip hd =>
    refine iff_of_false (not_not_intro hx) ?_
    rintro ⟨id, v, rfl, hv, -⟩
    exact hd ⟨v, hv⟩
  | setDemandPaging | mmapNoMem | faultFailed | faulted | split =>
    exact iff_of_false (not_not_intro hx) (not_last (by simp))
  | mmapDone _ _ _ hg | mmapFailed _ _ _ _ hg =>
    refine iff_of_false (not_not_intro ?_) (not_last (by simp))
    simp only [zap, hg.sameRefs.pas]
    exact List.mem_cons_of_mem _ hx
  | closeShared hv hvx hl =>
    refine iff_of_false (not_not_intro hx) ?_
    rintro ⟨id', v', hid, hv', hvx', hl'⟩
    cases hid
    obtain rfl := Option.some.inj (hv.symm.trans hv')
    obtain rfl := Option.some.inj (hvx.symm.trans hvx')
    omega
  | @closeLast id y vma hv hvy hl =>
    have hmem : x ∉ s.pas.erase y ↔ x = y := by
      rw [h.pasNodup.mem_erase_iff]
      exact ⟨fun hn => by_contra fun hxy => hn ⟨hxy, hx⟩, fun hxy hn => hn.1 hxy⟩
    refine hmem.trans ⟨?_, ?_⟩
    · rintro rfl
      exact ⟨id, vma, rfl, hv, hvy, hl⟩
    · rintro ⟨id', v', hid, hv', hvx', -⟩
      cases hid
      obtain rfl := Option.some.inj (hv.symm.trans hv')
      exact Option.some.inj (hvx'.symm.trans hvy)

/-- **Reference counts match live VMAs.** -/
theorem ref_counts (d : ℕ) (ops : List Op) :
    (∀ oops, run (init d) ops = .error oops → oops ≠ .useAfterFree ∧ oops ≠ .doubleFree) ∧
      ∀ s, run (init d) ops = .ok s →
        (∀ v ∈ s.vmas, ∃ x ∈ s.pas, v.vmPrivateData = some x ∧ x ∉ s.orphans) ∧
        (∀ x ∈ s.pas, x ∉ s.orphans → s.refCount x = live s x) ∧
        ∀ o t, step s o = .ok t → ∀ x ∈ s.pas, x ∉ s.orphans → (x ∉ t.pas ↔ ClosesLast s o x) := by
  refine ⟨fun oops ho => ?_, fun s hs => ?_⟩
  · rw [run_oops (inv_init d) ho]
    decide
  · have h := run_inv hs
    exact ⟨h.refs.attached, fun x hx hxo => (h.refs.counts x hx hxo).1,
      fun o t ht x hx _ => effect_frees h.refs (step_effect h ht) hx⟩

/-- a mapping of two pages, cut in two: two live VMAs and a count of two -/
theorem ref_counts_split :
    ∃ s, run (init 1) [.mmap 0 0 twoPages ⟨some 0, fun _ => allSucceed⟩, .split 0 1 8192] = .ok s ∧
      live s 0 = 2 ∧ s.refCount 0 = live s 0 := by
  have hobs : (run (init 1) [.mmap 0 0 twoPages ⟨some 0, fun _ => allSucceed⟩, .split 0 1 8192]).map
      (fun s => (s.pas, s.orphans, live s 0)) = .ok ([0], [], 2) := by rfl
  obtain ⟨s, hs, ho⟩ := map_ok.1 hobs
  simp only [Prod.mk.injEq] at ho
  obtain ⟨hp, ho, hl⟩ := ho
  exact ⟨s, hs, hl, ((ref_counts 1 _).2 s hs).2.1 0 (by simp [hp]) (by simp [ho])⟩

end Cse422.Paging
