/-
Pre-paging and demand paging of one mapping.

A session is an mmap followed by the process's own events: accesses to addresses of the VMA, and writes to the
module parameter. An access to an unmapped page faults once, with the base address of the page (`step (.fault …)`).

- `userRun_tracked`: after any accesses, in any order and with any repetitions, the pages mapped since the mmap are
  the touched pages that were not mapped before, and each of them has faulted once;
- `modes_agree`: the pre-paging loop maps every page to a fresh page of its own; demand paging maps the touched
  pages; when all pages are touched, the two modes end with the same pages mapped and the same growth of list and
  counter.
-/
import Cse422.Paging.Prepage

namespace Cse422.Paging

/-! ## Sessions -/

inductive UserEvent where
  /-- an access to an address, and the kernel's answers to the fault it may cause -/
  | access (va : ℕ) (e : FaultEnv)
  /-- a write to the module parameter -/
  | toggle (v : ℕ)

/-- the access is inside the range, and the calls of its fault succeed -/
def UserEvent.Within (r : VmRange) : UserEvent → Prop
  | .access va e => r.start ≤ va ∧ va < r.stop ∧ e.Succeeds
  | .toggle _ => True

structure UserSt where
  st : St
  /-- the addresses `paging_vma_fault` was called with, latest first -/
  faults : List ℕ

/-- one event of a process that uses the VMA `id` of the address space `mm` -/
def userStep (id mm : ℕ) (u : UserSt) : UserEvent → Except Oops UserSt
  | .access va e => (step u.st (.fault id va e)).map fun t =>
      ⟨t, if u.st.pte mm (pageBase va) = none then pageBase va :: u.faults else u.faults⟩
  | .toggle v => (step u.st (.setDemandPaging v)).map fun t => ⟨t, u.faults⟩

/-- an mmap, then the events of the process -/
def session (s : St) (hint mm : ℕ) (r : VmRange) (e : MmapEnv) (evs : List UserEvent) : Except Oops UserSt := do
  let t ← step s (.mmap hint mm r e)
  evs.foldlM (userStep (vmaAddr s hint) mm) ⟨t, []⟩

/-- the pages the events access -/
def touchedPages : List UserEvent → Finset ℕ
  | [] => ∅
  | .access va _ :: evs => insert (pageBase va) (touchedPages evs)
  | .toggle _ :: evs => touchedPages evs

/-- the pages of a range -/
def VmRange.allPages (r : VmRange) : Finset ℕ := (Finset.range r.pages).image r.page

theorem VmRange.card_allPages (r : VmRange) : r.allPages.card = r.pages := by
  rw [allPages, Finset.card_image_of_injective _ r.page_injective, Finset.card_range]

theorem VmRange.mem_allPages {r : VmRange} {a : ℕ} : a ∈ r.allPages ↔ ∃ i < r.pages, r.page i = a := by
  simp [allPages]

/-- the page of an address of the range is a page of the range -/
theorem VmRange.start_le_pageBase {r : VmRange} {va : ℕ} (h : r.start ≤ va) : r.start ≤ pageBase va := by
  obtain ⟨b, hb⟩ := r.dvd_start
  simp only [pageBase, pageSize] at *
  omega

theorem VmRange.pageBase_mem {r : VmRange} {va : ℕ} (h1 : r.start ≤ va) (h2 : va < r.stop) :
    pageBase va ∈ r.allPages := by
  obtain ⟨i, hi, he⟩ := r.exists_page (VmRange.start_le_pageBase h1) ((pageBase_le va).trans_lt h2)
    (pageSize_dvd_pageBase va)
  exact VmRange.mem_allPages.2 ⟨i, hi, he.symm⟩

theorem touchedPages_subset {r : VmRange} {evs : List UserEvent} (h : ∀ ev ∈ evs, ev.Within r) :
    touchedPages evs ⊆ r.allPages := by
  induction evs with
  | nil => exact Finset.empty_subset _
  | cons ev evs ih =>
    have hev := h ev List.mem_cons_self
    have hevs := ih fun ev' hm => h ev' (List.mem_cons_of_mem _ hm)
    cases ev with
    | access va e => exact Finset.insert_subset (VmRange.pageBase_mem hev.1 hev.2.1) hevs
    | toggle v => exact hevs

/-! ## Accesses -/

/-- `n` more nodes on the list, and `n` more in the 32-bit counter -/
def Grew (s t : St) (n : ℕ) : Prop :=
  t.refPageList.length = s.refPageList.length + n ∧ t.allocCount % wordSize = (s.allocCount + n) % wordSize

theorem Grew.trans {s t u : St} {m n : ℕ} (h₁ : Grew s t m) (h₂ : Grew t u n) : Grew s u (m + n) := by
  unfold Grew wordSize at *
  omega

/-- `u` is `s` after accesses to the pages `T` of the VMA -/
structure Tracked (s : St) (vma : VmArea) (T : Finset ℕ) (u : UserSt) : Prop where
  live : vmaOf u.st vma.id = some vma
  nodup : u.faults.Nodup
  faulted : ∀ a, a ∈ u.faults ↔ a ∈ T ∧ s.pte vma.mm a = none
  mapped : ∀ m a, u.st.pte m a = none ↔ s.pte m a = none ∧ ¬ (m = vma.mm ∧ a ∈ T)
  grew : Grew s u.st u.faults.length

theorem tracked_refl {s : St} {vma : VmArea} (h : vmaOf s vma.id = some vma) : Tracked s vma ∅ ⟨s, []⟩ where
  live := h
  nodup := List.nodup_nil
  faulted _ := by simp
  mapped _ _ := by simp
  grew := ⟨rfl, rfl⟩

section Accesses

variable {s : St} {vma : VmArea} {T : Finset ℕ} {u : UserSt}

/-- an access to a mapped page changes nothing -/
theorem access_mapped {va : ℕ} {e : FaultEnv} (h : Tracked s vma T u) (hp : u.st.pte vma.mm (pageBase va) ≠ none) :
    userStep vma.id vma.mm u (.access va e) = .ok u ∧ Tracked s vma (insert (pageBase va) T) u := by
  constructor
  · simp [userStep, step, h.live, hp, Except.map]
  · have hor : ¬ (s.pte vma.mm (pageBase va) = none) ∨ pageBase va ∈ T := by
      have := (h.mapped vma.mm (pageBase va)).not.1 hp
      tauto
    refine ⟨h.live, h.nodup, fun a => ?_, fun m a => ?_, h.grew⟩
    · rw [h.faulted, Finset.mem_insert]
      constructor
      · rintro ⟨h1, h2⟩
        exact ⟨Or.inr h1, h2⟩
      · rintro ⟨rfl | h1, h2⟩
        · exact ⟨hor.resolve_left (not_not.2 h2), h2⟩
        · exact ⟨h1, h2⟩
    · rw [h.mapped, Finset.mem_insert]
      constructor
      · rintro ⟨h1, h2⟩
        refine ⟨h1, ?_⟩
        rintro ⟨rfl, rfl | h3⟩
        · exact h2 ⟨rfl, hor.resolve_left (not_not.2 h1)⟩
        · exact h2 ⟨rfl, h3⟩
      · rintro ⟨h1, h2⟩
        exact ⟨h1, fun h3 => h2 ⟨h3.1, Or.inr h3.2⟩⟩

/-- an access to an unmapped page faults, which maps the page -/
theorem access_unmapped {va : ℕ} {e : FaultEnv} (h : Tracked s vma T u) (h1 : vma.range.start ≤ va)
    (h2 : va < vma.range.stop) (he : e.Succeeds) (hp : u.st.pte vma.mm (pageBase va) = none) :
    ∃ v, userStep vma.id vma.mm u (.access va e) = .ok v ∧ v.faults = pageBase va :: u.faults ∧
      Tracked s vma (insert (pageBase va) T) v := by
  have hd : ∃ hint nodeHint, doFault u.st vma (pageBase va) e =
      .ok (VM_FAULT_NOPAGE, installed u.st vma (pageAlign (pageBase va)) hint nodeHint) := doFault_succeeds he
  obtain ⟨hint, nodeHint, hd⟩ := hd
  have halign : pageAlign (pageBase va) = pageBase va :=
    pageAlign_of_dvd (pageSize_dvd_pageBase va) (((pageBase_le va).trans_lt h2).trans vma.range.stop_lt)
  rw [halign] at hd
  obtain ⟨hs, hT⟩ := (h.mapped vma.mm (pageBase va)).1 hp
  have hT : pageBase va ∉ T := fun hm => hT ⟨rfl, hm⟩
  have hnew : pageBase va ∉ u.faults := fun hm => hT ((h.faulted _).1 hm).1
  refine ⟨⟨installed u.st vma (pageBase va) hint nodeHint, pageBase va :: u.faults⟩, ?_, rfl, ?_⟩
  · simp [userStep, step, h.live, h1, h2, hp, pagingVmaFault, hd, Except.map]
  · refine ⟨h.live, List.nodup_cons.2 ⟨hnew, h.nodup⟩, fun a => ?_, fun m a => ?_, ?_⟩
    · rw [List.mem_cons, Finset.mem_insert, h.faulted]
      constructor
      · rintro (rfl | ⟨h3, h4⟩)
        · exact ⟨Or.inl rfl, hs⟩
        · exact ⟨Or.inr h3, h4⟩
      · rintro ⟨rfl | h3, h4⟩
        · exact Or.inl rfl
        · exact Or.inr ⟨h3, h4⟩
    · have hpte : (installed u.st vma (pageBase va) hint nodeHint).pte m a = none ↔
          ¬ (m = vma.mm ∧ a = pageBase va) ∧ u.st.pte m a = none := by
        unfold installed
        simp only
        split_ifs with hc
        · simp [hc]
        · simp [hc]
      rw [hpte, h.mapped, Finset.mem_insert]
      tauto
    · refine h.grew.trans ⟨rfl, ?_⟩
      simp only [installed, atomicInc, wordSize]
      omega

theorem userStep_tracked {ev : UserEvent} (h : Tracked s vma T u) (hev : ev.Within vma.range) :
    ∃ v, userStep vma.id vma.mm u ev = .ok v ∧ Tracked s vma (T ∪ touchedPages [ev]) v := by
  cases ev with
  | access va e =>
    have hT : T ∪ touchedPages [.access va e] = insert (pageBase va) T := by
      simp [touchedPages]
    rw [hT]
    by_cases hp : u.st.pte vma.mm (pageBase va) = none
    · obtain ⟨v, hv, -, ht⟩ := access_unmapped h hev.1 hev.2.1 hev.2.2 hp
      exact ⟨v, hv, ht⟩
    · exact ⟨u, access_mapped h hp⟩
  | toggle v =>
    have hT : T ∪ touchedPages [.toggle v] = T := by simp [touchedPages]
    rw [hT]
    exact ⟨_, rfl, h.live, h.nodup, h.faulted, h.mapped, h.grew⟩

theorem touchedPages_cons (ev : UserEvent) (evs : List UserEvent) :
    touchedPages (ev :: evs) = touchedPages [ev] ∪ touchedPages evs := by
  cases ev <;> simp [touchedPages]

/-- **Accesses.** Whatever the order and the repetitions, and whatever is written to the parameter meanwhile, the
pages mapped are the touched ones, each faulted once. -/
theorem userRun_tracked {evs : List UserEvent} (h : Tracked s vma T u) (hevs : ∀ ev ∈ evs, ev.Within vma.range) :
    ∃ v, evs.foldlM (userStep vma.id vma.mm) u = .ok v ∧ Tracked s vma (T ∪ touchedPages evs) v := by
  induction evs generalizing u T with
  | nil => exact ⟨u, rfl, by simpa [touchedPages] using h⟩
  | cons ev evs ih =>
    obtain ⟨w, hw, ht⟩ := userStep_tracked h (hevs ev List.mem_cons_self)
    obtain ⟨v, hv, hr⟩ := ih ht fun ev' hm => hevs ev' (List.mem_cons_of_mem _ hm)
    refine ⟨v, ?_, ?_⟩
    · rw [List.foldlM_cons, bind_ok]
      exact ⟨w, hw, hv⟩
    · rw [touchedPages_cons, ← Finset.union_assoc]
      exact hr

end Accesses

/-! ## The two modes -/

/-- the module with its parameter set to `d` -/
def inMode (s : St) (d : ℕ) : St := { s with demandPaging := d }

/-- the allocations and remaps of an mmap of the range all succeed -/
def MmapEnv.Succeeds (e : MmapEnv) (r : VmRange) : Prop := e.kmalloc ≠ none ∧ ∀ i < r.pages, (e.fault i).Succeeds

section Modes

variable {s : St} {mm d : ℕ} {r : VmRange} {e : MmapEnv}

/-- the pre-paging loop terminates and maps the whole range -/
theorem pagingMmap_prepaged {vma : VmArea} (hd : s.demandPaging = 0) (he : e.Succeeds vma.range) :
    ∃ x t, pagingMmap s vma e = .ok (0, attach vma x, t) ∧ Prepaged (attach vma x) 0 (withPas s x) t := by
  obtain ⟨hint, hk⟩ := Option.ne_none_iff_exists'.1 he.1
  have hloop : ∃ t, prepage (withPas s (kmallocAddr s hint)) (attach vma (kmallocAddr s hint)) e.fault 0
      ((attach vma (kmallocAddr s hint)).range.page 0) = .ok (0, t) :=
    prepage_succeeds fun i _ hi => he.2 i hi
  obtain ⟨t, ht⟩ := hloop
  refine ⟨kmallocAddr s hint, t, ?_, prepage_zero ht⟩
  rw [VmRange.page_zero] at ht
  rw [pagingMmap_prepage hk hd, map_ok]
  exact ⟨(0, t), ht, rfl⟩

/-- the same for the VMA the kernel hands to the driver -/
theorem newVma_prepaged (s : St) (hint mm : ℕ) (he : e.Succeeds r) :
    ∃ x t, pagingMmap (zap (inMode s 0) mm r) (newVma s hint mm r) e = .ok (0, attach (newVma s hint mm r) x, t) ∧
      Prepaged (attach (newVma s hint mm r) x) 0 (withPas (zap (inMode s 0) mm r) x) t :=
  pagingMmap_prepaged rfl he

/-- an mmap whose driver call returned 0 has a live VMA at the expected address -/
theorem vmaOf_finish (s t : St) (hint x : ℕ) :
    vmaOf (finishMmap mm r (0, attach (newVma s hint mm r) x, t)) (vmaAddr s hint) =
      some (attach (newVma s hint mm r) x) := by
  simp [vmaOf, finishMmap, attach, newVma]

/-- the pages of the range are mapped after a pre-paging mmap, and no others besides those mapped before -/
theorem mmap_prepaged (hint : ℕ) (hu : Unused s mm r) (he : e.Succeeds r) :
    ∃ vma t, step (inMode s 0) (.mmap hint mm r e) = .ok t ∧ vma.id = vmaAddr s hint ∧ vma.mm = mm ∧ vma.range = r ∧
      vmaOf t vma.id = some vma ∧ Grew s t r.pages ∧
      ∀ m a, t.pte m a = none ↔ (zap s mm r).pte m a = none ∧ ¬ (m = mm ∧ a ∈ r.allPages) := by
  obtain ⟨x, t, hp, ht⟩ := newVma_prepaged s hint mm he
  refine ⟨attach (newVma s hint mm r) x, finishMmap mm r (0, attach (newVma s hint mm r) x, t), ?_, rfl, rfl, rfl,
    vmaOf_finish s t hint x, ⟨ht.length, ht.count⟩, fun m a => ?_⟩
  · have hu' : Unused (inMode s 0) mm r := hu
    simp only [step, if_pos hu', map_ok]
    exact ⟨_, hp, rfl⟩
  · have hpte : (finishMmap mm r (0, attach (newVma s hint mm r) x, t)).pte = t.pte := rfl
    rw [hpte]
    by_cases hm : m = mm ∧ a ∈ r.allPages
    · obtain ⟨rfl, ha⟩ := hm
      obtain ⟨i, hi, rfl⟩ := VmRange.mem_allPages.1 ha
      obtain ⟨p, hp, -⟩ := ht.fresh i (Nat.zero_le i) hi
      have hp : t.pte m (r.page i) = some p := hp
      simp [hp, ha]
    · have hf : t.pte m a = (zap s mm r).pte m a :=
        ht.frame m a fun i _ hi hc => hm ⟨hc.1, VmRange.mem_allPages.2 ⟨i, hi, hc.2.symm⟩⟩
      simp [hf, hm]

/-- a demand-paging mmap maps nothing -/
theorem mmap_demand (hint : ℕ) (hd : d ≠ 0) (hu : Unused s mm r) (he : e.kmalloc ≠ none) :
    ∃ vma t, step (inMode s d) (.mmap hint mm r e) = .ok t ∧ vma.id = vmaAddr s hint ∧ vma.mm = mm ∧ vma.range = r ∧
      vmaOf t vma.id = some vma ∧ Grew s t 0 ∧ t.pte = (zap s mm r).pte := by
  obtain ⟨kh, hk⟩ := Option.ne_none_iff_exists'.1 he
  set t₀ := zap (inMode s d) mm r
  set x := kmallocAddr t₀ kh
  have hp : pagingMmap t₀ (newVma s hint mm r) e = .ok (0, attach (newVma s hint mm r) x, withPas t₀ x) :=
    pagingMmap_demand hk hd
  refine ⟨attach (newVma s hint mm r) x, finishMmap mm r (0, attach (newVma s hint mm r) x, withPas t₀ x), ?_, rfl,
    rfl, rfl, vmaOf_finish s _ hint x, ⟨rfl, rfl⟩, rfl⟩
  have hu' : Unused (inMode s d) mm r := hu
  simp only [step, if_pos hu', map_ok]
  exact ⟨_, hp, rfl⟩

theorem zap_pte_page {a : ℕ} (s : St) (mm : ℕ) (h : a ∈ r.allPages) : (zap s mm r).pte mm a = none := by
  obtain ⟨i, hi, rfl⟩ := VmRange.mem_allPages.1 h
  have h1 : r.start ≤ r.page i := Nat.le_add_right _ _
  simp [zap, h1, VmRange.page_lt_stop.2 hi]

/-- a session in demand mode -/
theorem session_demand (hint : ℕ) {evs : List UserEvent} (hd : d ≠ 0) (hu : Unused s mm r) (he : e.kmalloc ≠ none)
    (hevs : ∀ ev ∈ evs, ev.Within r) :
    ∃ u, session (inMode s d) hint mm r e evs = .ok u ∧ u.faults.Nodup ∧ u.faults.toFinset = touchedPages evs ∧
      Grew s u.st (touchedPages evs).card ∧
      ∀ m a, u.st.pte m a = none ↔ (zap s mm r).pte m a = none ∧ ¬ (m = mm ∧ a ∈ touchedPages evs) := by
  obtain ⟨vma, t, hst, hid, rfl, rfl, hv, hg, hpte⟩ := mmap_demand hint hd hu he
  obtain ⟨u, hrun, hu⟩ := userRun_tracked (tracked_refl hv) hevs
  rw [Finset.empty_union] at hu
  have hfaults : u.faults.toFinset = touchedPages evs := by
    ext a
    rw [List.mem_toFinset, hu.faulted, and_iff_left_iff_imp]
    intro ha
    rw [hpte]
    exact zap_pte_page s _ (touchedPages_subset hevs ha)
  have hcard : (touchedPages evs).card = u.faults.length := by
    rw [← hfaults, List.toFinset_card_of_nodup hu.nodup]
  refine ⟨u, ?_, hu.nodup, hfaults, ?_, fun m a => ?_⟩
  · rw [session, bind_ok]
    refine ⟨t, hst, ?_⟩
    rw [hid] at hrun
    exact hrun
  · have hgrew := hg.trans hu.grew
    rwa [Nat.zero_add, ← hcard] at hgrew
  · rw [hu.mapped, hpte]

/-- a session in pre-paging mode: no access faults -/
theorem session_prepaged (hint : ℕ) {evs : List UserEvent} (hu : Unused s mm r) (he : e.Succeeds r)
    (hevs : ∀ ev ∈ evs, ev.Within r) :
    ∃ u, session (inMode s 0) hint mm r e evs = .ok u ∧ u.faults = [] ∧ Grew s u.st r.pages ∧
      ∀ m a, u.st.pte m a = none ↔ (zap s mm r).pte m a = none ∧ ¬ (m = mm ∧ a ∈ r.allPages) := by
  obtain ⟨vma, t, hst, hid, rfl, rfl, hv, hg, hpte⟩ := mmap_prepaged hint hu he
  obtain ⟨u, hrun, hu⟩ := userRun_tracked (tracked_refl hv) hevs
  rw [Finset.empty_union] at hu
  have hfaults : u.faults = [] := by
    refine List.eq_nil_iff_forall_not_mem.2 fun a ha => ?_
    obtain ⟨h1, h2⟩ := (hu.faulted a).1 ha
    exact ((hpte _ _).1 h2).2 ⟨rfl, touchedPages_subset hevs h1⟩
  refine ⟨u, ?_, hfaults, ?_, fun m a => ?_⟩
  · rw [session, bind_ok]
    refine ⟨t, hst, ?_⟩
    rw [hid] at hrun
    exact hrun
  · have hgrew := hg.trans hu.grew
    rwa [hfaults] at hgrew
  · rw [hu.mapped, hpte]
    have := touchedPages_subset hevs
    constructor
    · intro ⟨h1, _⟩
      exact h1
    · intro h1
      exact ⟨h1, fun h2 => h1.2 ⟨h2.1, this h2.2⟩⟩

/-- **Demand paging and pre-paging agree.** For an mmap of any range whose allocations and remaps all succeed:
pre-paging terminates and maps every page of the range to a fresh page of its own, and counts them; after demand
paging, any accesses inside the range map exactly the touched pages, each faulted and counted once; so when the
accesses touch every page, the mapped pages and the growth of list and counter are those of pre-paging. -/
theorem modes_agree (s : St) (hint mm : ℕ) (r : VmRange) (e : MmapEnv) (hu : Unused s mm r) (he : e.Succeeds r) :
    (∃ vma t, pagingMmap (zap (inMode s 0) mm r) (newVma s hint mm r) e = .ok (0, vma, t) ∧
      (∀ i < r.pages, ∃ p, t.pte mm (r.page i) = some p ∧ p ∉ s.pages) ∧
      (∀ i j, i < j → j < r.pages → t.pte mm (r.page i) ≠ t.pte mm (r.page j)) ∧
      Grew s t r.pages) ∧
    (∀ d ≠ 0, ∀ evs : List UserEvent, (∀ ev ∈ evs, ev.Within r) →
      ∃ u, session (inMode s d) hint mm r e evs = .ok u ∧
        (∀ a ∈ r.allPages, u.st.pte mm a ≠ none ↔ a ∈ touchedPages evs) ∧
        u.faults.Nodup ∧ u.faults.toFinset = touchedPages evs ∧ Grew s u.st (touchedPages evs).card) ∧
    (∀ d ≠ 0, ∀ evs evs' : List UserEvent, (∀ ev ∈ evs, ev.Within r) → (∀ ev ∈ evs', ev.Within r) →
      touchedPages evs' = r.allPages →
      ∃ u v, session (inMode s 0) hint mm r e evs = .ok u ∧ session (inMode s d) hint mm r e evs' = .ok v ∧
        (∀ m a, u.st.pte m a = none ↔ v.st.pte m a = none) ∧ Grew s u.st r.pages ∧ Grew s v.st r.pages) := by
  refine ⟨?_, ?_, ?_⟩
  · obtain ⟨x, t, hp, ht⟩ := newVma_prepaged s hint mm he
    exact ⟨_, t, hp, fun i hi => ht.fresh i (Nat.zero_le i) hi,
      fun i j hij hj => ht.distinct i j (Nat.zero_le i) hij hj, ht.length, ht.count⟩
  · intro d hd evs hevs
    obtain ⟨u, hrun, hnodup, hfaults, hgrew, hpte⟩ := session_demand hint hd hu he.1 hevs
    refine ⟨u, hrun, fun a ha => ?_, hnodup, hfaults, hgrew⟩
    rw [ne_eq, hpte, zap_pte_page s mm ha]
    simp
  · intro d hd evs evs' hevs hevs' hall
    obtain ⟨u, hrun, -, hgrew, hpte⟩ := session_prepaged hint hu he hevs
    obtain ⟨v, hrun', -, -, hgrew', hpte'⟩ := session_demand hint hd hu he.1 hevs'
    refine ⟨u, v, hrun, hrun', fun m a => ?_, hgrew, ?_⟩
    · rw [hpte, hpte', hall]
    · rwa [hall, r.card_allPages] at hgrew'

end Modes

/-- the second page, the first, the second again, with a change of the parameter in between -/
def backwards : List UserEvent :=
  [.access 8200 allSucceed, .toggle 0, .access 4096 allSucceed, .access 8192 allSucceed]

theorem modes_agree_two :
    ∃ u v, session (inMode (init 1) 0) 0 0 twoPages ⟨some 0, fun _ => allSucceed⟩ backwards = .ok u ∧
      session (inMode (init 1) 1) 0 0 twoPages ⟨some 0, fun _ => allSucceed⟩ backwards = .ok v ∧
      (∀ m a, u.st.pte m a = none ↔ v.st.pte m a = none) ∧ Grew (init 1) u.st 2 ∧ Grew (init 1) v.st 2 := by
  have hu : Unused (init 1) 0 twoPages := by decide
  have hall : allSucceed.Succeeds := by decide
  have he : MmapEnv.Succeeds ⟨some 0, fun _ => allSucceed⟩ twoPages := ⟨by simp, fun _ _ => hall⟩
  have hw : ∀ ev ∈ backwards, ev.Within twoPages := by
    simp [backwards, UserEvent.Within, twoPages, allSucceed, FaultEnv.Succeeds]
  exact (modes_agree (init 1) 0 0 twoPages _ hu he).2.2 1 (by decide) backwards backwards hw hw (by decide)

end Cse422.Paging
