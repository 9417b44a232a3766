/-
Isolation of mappings. `ref_page_list` is one list for the whole module, and the teardown loop of
`paging_vma_close` frees all of it.

- `isolated_iff`: the steps of a run keep mappings isolated if and only if, whenever a close drops a mapping's
  reference count to zero, no other mapping has a page on the list;
- `shared_teardown`: two mappings, a fault in the second, and the first one closes: the page of the live mapping is
  freed.
-/
import Cse422.Paging.Accounting

namespace Cse422.Paging

/-- the step frees no page of a mapping that still has a live VMA, and the close of the last VMA of a mapping frees
only pages that were installed in it -/
structure Isolated (s : St) (o : Op) (t : St) : Prop where
  kept : ∀ p ∈ s.pages, p ∉ t.pages → ∀ x, s.installedIn p = some x → ∀ v ∈ t.vmas, v.vmPrivateData ≠ some x
  own : ∀ x, ClosesLast s o x → ∀ p ∈ s.pages, p ∉ t.pages → s.installedIn p = some x

/-- when the step is a close that drops the reference count of a mapping to zero, no other mapping has a page on the
list -/
def SoleTenant (s : St) (o : Op) (_ : St) : Prop :=
  ∀ id v x, o = .close id → vmaOf s id = some v → v.vmPrivateData = some x → atomicDec (s.refCount x) = 0 →
    ∀ n ∈ s.refPageList, s.installedIn n.page = some x

/-! ## Which steps free pages -/

theorem Grows.pages_subset {s t : St} {vma : VmArea} (h : Grows vma s t) {p : ℕ} (hp : p ∈ s.pages) : p ∈ t.pages := by
  induction h with
  | refl => exact hp
  | tail _ h ih =>
    obtain ⟨a, hint, nodeHint, rfl⟩ := h
    exact List.mem_cons_of_mem _ ih

/-- a step that frees an allocated page closes the last VMA of some mapping -/
theorem effect_frees_page {s t : St} {o : Op} {p : ℕ} (he : Effect s o t) (hp : p ∈ s.pages) (hp' : p ∉ t.pages) :
    ∃ x, ClosesLast s o x := by
  cases he with
  | skip | setDemandPaging | mmapNoMem | faultFailed | split | closeShared => exact absurd hp hp'
  | mmapDone _ _ _ hg | mmapFailed _ _ _ _ hg => exact absurd (hg.pages_subset hp) hp'
  | faulted => exact absurd (List.mem_cons_of_mem _ hp) hp'
  | closeLast hv hx hl => exact ⟨_, _, _, rfl, hv, hx, hl⟩

/-- a close of the last VMA frees every allocated page and leaves no VMA of its mapping -/
theorem closesLast_spec {s t : St} {o : Op} {x : ℕ} (h : Inv s) (hs : step s o = .ok t) (hc : ClosesLast s o x) :
    t.pages = [] ∧ ∀ v ∈ t.vmas, v.vmPrivateData ≠ some x := by
  obtain ⟨id, v, rfl, hv, hx, hl⟩ := hc
  obtain ⟨t', ht', he⟩ := closeLast_empties h hv hx hl
  rw [hs] at ht'
  cases ht'
  have ht := step_inv h hs
  have hx' := (h.refs.of_private (vmaOf_mem hv).1 hx).1
  have hfreed : x ∉ t.pas := (effect_frees h.refs (step_effect h hs) hx').2 ⟨id, v, rfl, hv, hx, hl⟩
  refine ⟨by rw [ht.ledger.pages, he]; rfl, fun w hw hwx => ?_⟩
  have h0 := ht.refs.not_live hfreed
  have h1 := liveIn_pos.2 ⟨w, hw, hwx⟩
  omega

/-! ## The condition -/

theorem step_isolated {s t : St} {o : Op} (h : Inv s) (hc : SoleTenant s o t) (hs : step s o = .ok t) :
    Isolated s o t := by
  have own : ∀ x, ClosesLast s o x → ∀ p ∈ s.pages, s.installedIn p = some x := by
    rintro x ⟨id, v, rfl, hv, hx, hl⟩ p hp
    obtain ⟨-, -, hcount, hpos⟩ := h.refs.of_private (vmaOf_mem hv).1 hx
    obtain ⟨n, hn, rfl⟩ := h.ledger.mem_pages.1 hp
    refine hc id v x rfl hv hx ?_ n hn
    rw [hcount, h.refs.atomicDec_live hpos, hl]
  refine ⟨fun p hp hp' y hy => ?_, fun x hx p hp _ => own x hx p hp⟩
  obtain ⟨x, hx⟩ := effect_frees_page (step_effect h hs) hp hp'
  have hxy := own x hx p hp
  rw [hy] at hxy
  cases hxy
  exact (closesLast_spec h hs hx).2

theorem soleTenant_of_isolated {s t : St} {o : Op} (h : Inv s) (hi : Isolated s o t) (hs : step s o = .ok t) :
    SoleTenant s o t := by
  rintro id v x rfl hv hx h0 n hn
  have hc : ClosesLast s (.close id) x := ⟨id, v, rfl, hv, hx, h.refs.live_eq_one (vmaOf_mem hv).1 hx h0⟩
  refine hi.own x hc n.page (h.ledger.mem_pages.2 ⟨n, hn, rfl⟩) ?_
  rw [(closesLast_spec h hs hc).1]
  exact List.not_mem_nil

/-- **Isolation.** Every step of a run keeps mappings isolated if and only if no close drops a reference count to
zero while another mapping has a page on the list. -/
theorem isolated_iff (d : ℕ) (ops : List Op) :
    Lts.Along (Lts.Ok step) Isolated (init d) ops ↔ Lts.Along (Lts.Ok step) SoleTenant (init d) ops :=
  ⟨fun h => h.mono (I := Inv) (fun _ _ _ hs _ => step_inv hs) (fun _ _ _ hs hi => soleTenant_of_isolated hs hi)
      (inv_init d),
    fun h => h.mono (I := Inv) (fun _ _ _ hs _ => step_inv hs) (fun _ _ _ hs hc => step_isolated hs hc) (inv_init d)⟩

/-- two processes map two pages each, and the second one touches a page -/
def sharedPrefix : List Op :=
  [.mmap 0 0 twoPages ⟨some 0, fun _ => allSucceed⟩, .mmap 1 1 twoPages ⟨some 1, fun _ => allSucceed⟩,
    .fault 1 4096 allSucceed]

/-- **A page of a live mapping is freed** when another mapping goes away. -/
theorem shared_teardown : ¬ Lts.Along (Lts.Ok step) Isolated (init 1) (sharedPrefix ++ [.close 0]) := by
  intro h
  have hobs : (run (init 1) sharedPrefix >>= fun s => (step s (.close 0)).map
      fun t => (s.pages, s.installedIn 0, t.pages, t.vmas)) =
      .ok ([0], some 1, [], [⟨1, 1, twoPages, .paging, some 1⟩]) := by rfl
  obtain ⟨s, hs, hobs⟩ := bind_ok.1 hobs
  obtain ⟨t, ht, ho⟩ := map_ok.1 hobs
  simp only [Prod.mk.injEq] at ho
  obtain ⟨h1, h2, h3, h4⟩ := ho
  have hi := h sharedPrefix (.close 0) [] s t rfl (Lts.run_foldlM_iff.2 hs) ht
  exact hi.kept 0 (by simp [h1]) (by simp [h3]) 1 h2 ⟨1, 1, twoPages, .paging, some 1⟩ (by simp [h4]) rfl

end Cse422.Paging
