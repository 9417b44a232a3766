/-
The invariant of the paging module, and what every step of the system can do.

`Inv` has two parts that no step mixes:
- `Ledger`: the allocated pages and nodes are those on `ref_page_list`, without repetition, and `alloc_count =
  free_count + length` modulo 2^32;
- `Refs`: every live VMA points to an allocated `pa_state_struct` that belongs to no failed mmap, and the reference
  count of such a structure is the number of live VMAs that point to it, which is not zero. `size` bounds that
  number: the VMAs of one mapping are disjoint parts of one range, so they have at most 2^20 pages together and a
  32-bit count cannot wrap.

`Effect s o t` lists the effects a step `o` from `s` can have, with their guards. Every later result is a case
analysis on it:
- `step_effect`: a step from an invariant state that completes has one of these effects;
- `step_inv`, `run_inv`: the invariant holds in every state a run reaches;
- `step_oops`: the only way a step can break is the NULL dereference of `do_fault`; `run_total`: if the kmalloc of
  the list nodes succeeds, every run completes.
-/
import Cse422.Paging.Spec

namespace Cse422.Paging

/-! ## Growing by pages -/

/-- `t` is `s` with some more pages installed in the VMA -/
def Grows (vma : VmArea) : St → St → Prop :=
  Relation.ReflTransGen fun u u' => ∃ a hint nodeHint, u' = installed u vma a hint nodeHint

theorem prepage_grows {s t : St} {vma : VmArea} {e : ℕ → FaultEnv} {k addr : ℕ} {r : ℤ}
    (h : prepage s vma e k addr = .ok (r, t)) : Grows vma s t :=
  prepage_keeps (P := Grows vma s) (fun _ a hint nodeHint hu => hu.tail ⟨pageAlign a, hint, nodeHint, rfl⟩) .refl h

/-- the state the reference counts depend on is the same -/
structure SameRefs (s t : St) : Prop where
  vmas : t.vmas = s.vmas
  pas : t.pas = s.pas
  refCount : t.refCount = s.refCount
  orphans : t.orphans = s.orphans
  demandPaging : t.demandPaging = s.demandPaging

theorem Grows.sameRefs {s t : St} {vma : VmArea} (h : Grows vma s t) : SameRefs s t := by
  induction h with
  | refl => exact ⟨rfl, rfl, rfl, rfl, rfl⟩
  | tail _ h ih =>
    obtain ⟨a, hint, nodeHint, rfl⟩ := h
    exact ⟨ih.vmas, ih.pas, ih.refCount, ih.orphans, ih.demandPaging⟩

/-! ## The ledger -/

structure Ledger (s : St) : Prop where
  pages : s.pages = s.refPageList.map RefPageNode.page
  nodes : s.nodes = s.refPageList.map RefPageNode.addr
  pagesNodup : s.pages.Nodup
  nodesNodup : s.nodes.Nodup
  freeLt : s.freeCount < wordSize
  count : s.allocCount = (s.freeCount + s.refPageList.length) % wordSize

theorem Ledger.mem_pages {s : St} (h : Ledger s) {p : ℕ} : p ∈ s.pages ↔ ∃ n ∈ s.refPageList, n.page = p := by
  rw [h.pages, List.mem_map]

theorem ledger_installed {s : St} (h : Ledger s) (vma : VmArea) (a hint nodeHint : ℕ) :
    Ledger (installed s vma a hint nodeHint) where
  pages := by simp [installed, newNode, h.pages]
  nodes := by simp [installed, newNode, h.nodes]
  pagesNodup := List.nodup_cons.2 ⟨fresh_notMem _ _, h.pagesNodup⟩
  nodesNodup := List.nodup_cons.2
    ⟨fun hm => fresh_notMem (s.pas ++ s.nodes) nodeHint (List.mem_append_right _ hm), h.nodesNodup⟩
  freeLt := h.freeLt
  count := by
    have hc := h.count
    simp only [installed, atomicInc, List.length_cons, wordSize] at hc ⊢
    omega

theorem Grows.ledger {s t : St} {vma : VmArea} (h : Grows vma s t) (hs : Ledger s) : Ledger t := by
  induction h with
  | refl => exact hs
  | tail _ h ih =>
    obtain ⟨a, hint, nodeHint, rfl⟩ := h
    exact ledger_installed ih _ _ _ _

theorem ledger_tornDown {s : St} (x : ℕ) (h : Ledger s) : Ledger (tornDown s x) where
  pages := rfl
  nodes := rfl
  pagesNodup := List.nodup_nil
  nodesNodup := List.nodup_nil
  freeLt := Nat.mod_lt _ (by decide)
  count := by
    have hc := h.count
    simp only [tornDown, setCount, List.length_nil, wordSize] at hc ⊢
    omega

/-! ## Counting VMAs -/

/-- the number of VMAs in a list that belong to mapping `x` -/
def liveIn (l : List VmArea) (x : ℕ) : ℕ := l.countP fun v => v.vmPrivateData = some x

/-- the number of pages of the VMAs in a list that belong to mapping `x` -/
def spanIn (l : List VmArea) (x : ℕ) : ℕ := (l.map fun v => if v.vmPrivateData = some x then v.range.pages else 0).sum

theorem live_eq (s : St) (x : ℕ) : live s x = liveIn s.vmas x := rfl

@[simp] theorem liveIn_cons (v : VmArea) (l : List VmArea) (x : ℕ) :
    liveIn (v :: l) x = liveIn l x + if v.vmPrivateData = some x then 1 else 0 := by
  simp [liveIn, List.countP_cons]

@[simp] theorem spanIn_cons (v : VmArea) (l : List VmArea) (x : ℕ) :
    spanIn (v :: l) x = (if v.vmPrivateData = some x then v.range.pages else 0) + spanIn l x := by
  simp [spanIn]

theorem liveIn_erase {v : VmArea} {l : List VmArea} (h : v ∈ l) (x : ℕ) :
    liveIn l x = liveIn (l.erase v) x + if v.vmPrivateData = some x then 1 else 0 := by
  rw [← liveIn_cons]
  exact (List.perm_cons_erase h).countP_eq _

/-- a VMA that is taken away counts for its own mapping and for no other -/
theorem liveIn_erase_self {v : VmArea} {l : List VmArea} {x : ℕ} (h : v ∈ l) (hx : v.vmPrivateData = some x) :
    liveIn l x = liveIn (l.erase v) x + 1 := by
  rw [liveIn_erase h, if_pos hx]

theorem liveIn_erase_of_ne {v : VmArea} {l : List VmArea} {x y : ℕ} (h : v ∈ l) (hx : v.vmPrivateData = some x)
    (hyx : y ≠ x) : liveIn (l.erase v) y = liveIn l y := by
  rw [liveIn_erase h, if_neg fun hy => hyx (Option.some.inj (hy.symm.trans hx))]
  rfl

theorem spanIn_erase {v : VmArea} {l : List VmArea} (h : v ∈ l) (x : ℕ) :
    spanIn l x = (if v.vmPrivateData = some x then v.range.pages else 0) + spanIn (l.erase v) x := by
  rw [← spanIn_cons]
  exact ((List.perm_cons_erase h).map _).sum_eq

theorem VmRange.pages_mul (r : VmRange) : r.pages * pageSize = r.stop - r.start :=
  Nat.div_mul_cancel (Nat.dvd_sub r.dvd_stop r.dvd_start)

theorem VmRange.pages_pos (r : VmRange) : 0 < r.pages := by
  have h1 := r.pages_mul
  have h2 := r.start_lt_stop
  simp only [pageSize] at h1
  omega

theorem VmRange.pages_le (r : VmRange) : r.pages ≤ wordSize / pageSize := by
  have h1 := r.pages_mul
  have h2 := r.stop_lt
  simp only [pageSize, wordSize] at *
  omega

/-- the two parts of a cut range have its pages -/
theorem VmRange.cut_pages {r lo hi : VmRange} {c : ℕ} (h : r.cut c = some (lo, hi)) :
    lo.pages + hi.pages = r.pages := by
  have h1 := r.pages_mul
  have h2 := lo.pages_mul
  have h3 := hi.pages_mul
  unfold VmRange.cut at h
  split_ifs at h with hc
  cases h
  simp only [pageSize] at h1 h2 h3
  omega

theorem liveIn_le_spanIn (l : List VmArea) (x : ℕ) : liveIn l x ≤ spanIn l x := by
  induction l with
  | nil => simp [liveIn]
  | cons v l ih =>
    have := v.range.pages_pos
    simp only [liveIn_cons, spanIn_cons]
    split_ifs <;> omega

theorem spanIn_eq_zero {l : List VmArea} {x : ℕ} (h : liveIn l x = 0) : spanIn l x = 0 := by
  induction l with
  | nil => rfl
  | cons v l ih =>
    simp only [liveIn_cons, spanIn_cons] at h ⊢
    split_ifs at h ⊢ with hv
    rw [ih (by omega)]

theorem liveIn_pos {l : List VmArea} {x : ℕ} : 0 < liveIn l x ↔ ∃ v ∈ l, v.vmPrivateData = some x := by
  simp [liveIn, List.countP_pos_iff]

/-! ## Reference counts -/

structure Refs (s : St) : Prop where
  ids : (s.vmas.map VmArea.id).Nodup
  ops : ∀ v ∈ s.vmas, v.vmOps = .paging
  attached : ∀ v ∈ s.vmas, ∃ x ∈ s.pas, v.vmPrivateData = some x ∧ x ∉ s.orphans
  counts : ∀ x ∈ s.pas, x ∉ s.orphans → s.refCount x = live s x ∧ 0 < live s x
  leaked : ∀ x ∈ s.orphans, x ∈ s.pas
  pasNodup : s.pas.Nodup
  size : ∀ x, spanIn s.vmas x ≤ wordSize / pageSize

theorem SameRefs.refs {s t : St} (e : SameRefs s t) (h : Refs s) : Refs t := by
  obtain ⟨e1, e2, e3, e4, -⟩ := e
  constructor
  · rw [e1]; exact h.ids
  · rw [e1]; exact h.ops
  · rw [e1, e2, e4]; exact h.attached
  · rw [e2, e3, e4]; simp only [live, e1]; exact h.counts
  · rw [e2, e4]; exact h.leaked
  · rw [e2]; exact h.pasNodup
  · rw [e1]; exact h.size

/-- a mapping has fewer VMAs than a 32-bit count can hold -/
theorem Refs.live_lt {s : St} (h : Refs s) (x : ℕ) : live s x + 1 < wordSize := by
  have h1 := liveIn_le_spanIn s.vmas x
  have h2 := h.size x
  rw [live_eq]
  simp only [wordSize, pageSize] at *
  omega

theorem Refs.not_live {s : St} (h : Refs s) {x : ℕ} (hx : x ∉ s.pas) : liveIn s.vmas x = 0 := by
  by_contra h0
  obtain ⟨v, hv, hvx⟩ := liveIn_pos.1 (Nat.pos_of_ne_zero h0)
  obtain ⟨y, hy, hvy, -⟩ := h.attached v hv
  rw [hvx] at hvy
  cases hvy
  exact hx hy

/-- what a live VMA tells about its mapping -/
theorem Refs.of_mem {s : St} (h : Refs s) {v : VmArea} (hv : v ∈ s.vmas) :
    ∃ x ∈ s.pas, v.vmPrivateData = some x ∧ x ∉ s.orphans ∧ s.refCount x = live s x ∧ 0 < live s x := by
  obtain ⟨x, hx, hvx, ho⟩ := h.attached v hv
  exact ⟨x, hx, hvx, ho, h.counts x hx ho⟩

/-- the same, when the mapping is known -/
theorem Refs.of_private {s : St} (h : Refs s) {v : VmArea} {x : ℕ} (hv : v ∈ s.vmas) (hx : v.vmPrivateData = some x) :
    x ∈ s.pas ∧ x ∉ s.orphans ∧ s.refCount x = live s x ∧ 0 < live s x := by
  obtain ⟨y, hy, hvy, ho, hcount⟩ := h.of_mem hv
  obtain rfl : x = y := Option.some.inj (hx.symm.trans hvy)
  exact ⟨hy, ho, hcount⟩

theorem vmaOf_mem {s : St} {id : ℕ} {v : VmArea} (h : vmaOf s id = some v) : v ∈ s.vmas ∧ v.id = id :=
  ⟨List.mem_of_find?_eq_some h, by simpa using List.find?_some h⟩

/-! ## The invariant -/

structure Inv (s : St) : Prop where
  ledger : Ledger s
  refs : Refs s

theorem inv_init (d : ℕ) : Inv (init d) where
  ledger := by constructor <;> simp [init, wordSize]
  refs := by constructor <;> simp [init, spanIn, live]

/-! ## What a step can do -/

/-- does the kernel deliver the event? -/
def Delivered (s : St) : Op → Prop
  | .setDemandPaging _ => True
  | .mmap _ mm r _ => Unused s mm r
  | .fault id addr _ => ∃ vma, vmaOf s id = some vma ∧ vma.range.start ≤ addr ∧ addr < vma.range.stop ∧
      s.pte vma.mm (pageBase addr) = none
  | .split id _ c => ∃ vma, vmaOf s id = some vma ∧ vma.range.cut c ≠ none
  | .close id => ∃ vma, vmaOf s id = some vma

/-- the VMA the kernel passes to `paging_mmap` -/
def newVma (s : St) (hint mm : ℕ) (r : VmRange) : VmArea := ⟨vmaAddr s hint, mm, r, .dummy, none⟩

inductive Effect (s : St) : Op → St → Prop
  | skip {o : Op} (h : ¬ Delivered s o) : Effect s o s
  | setDemandPaging (v : ℕ) : Effect s (.setDemandPaging v) { s with demandPaging := v % wordSize }
  | mmapNoMem {hint mm : ℕ} {r : VmRange} {e : MmapEnv} (hu : Unused s mm r) (hk : e.kmalloc = none) :
      Effect s (.mmap hint mm r e) (zap (zap s mm r) mm r)
  | mmapDone {hint mm x : ℕ} {r : VmRange} {e : MmapEnv} {u : St} (hu : Unused s mm r) (hx : x ∉ s.pas)
      (hm : pagingMmap (zap s mm r) (newVma s hint mm r) e = .ok (0, attach (newVma s hint mm r) x, u))
      (hg : Grows (attach (newVma s hint mm r) x) (withPas (zap s mm r) x) u) :
      Effect s (.mmap hint mm r e) { u with vmas := attach (newVma s hint mm r) x :: u.vmas }
  | mmapFailed {hint mm x : ℕ} {r : VmRange} {e : MmapEnv} {u : St} {result : ℤ} (hu : Unused s mm r) (hx : x ∉ s.pas)
      (hm : pagingMmap (zap s mm r) (newVma s hint mm r) e = .ok (result, attach (newVma s hint mm r) x, u))
      (h0 : result ≠ 0) (hg : Grows (attach (newVma s hint mm r) x) (withPas (zap s mm r) x) u) :
      Effect s (.mmap hint mm r e) (zap { u with orphans := x :: u.orphans } mm r)
  | faultFailed {id addr : ℕ} {e : FaultEnv} (hd : Delivered s (.fault id addr e)) (hf : e.Fails) :
      Effect s (.fault id addr e) s
  | faulted {id addr : ℕ} {e : FaultEnv} {vma : VmArea} (hv : vmaOf s id = some vma) (h1 : vma.range.start ≤ addr)
      (h2 : addr < vma.range.stop) (h3 : s.pte vma.mm (pageBase addr) = none) (hs : e.Succeeds) (hint nodeHint : ℕ) :
      Effect s (.fault id addr e) (installed s vma (pageBase addr) hint nodeHint)
  | split {id hint c x : ℕ} {vma : VmArea} {lo hi : VmRange} (hv : vmaOf s id = some vma)
      (hc : vma.range.cut c = some (lo, hi)) (hx : vma.vmPrivateData = some x) :
      Effect s (.split id hint c) { setCount s x (live s x + 1) with
        vmas := { vma with id := vmaAddr s hint, range := hi } :: { vma with range := lo } :: s.vmas.erase vma }
  | closeShared {id x : ℕ} {vma : VmArea} (hv : vmaOf s id = some vma) (hx : vma.vmPrivateData = some x)
      (hl : 1 < live s x) :
      Effect s (.close id)
        { setCount (zap s vma.mm vma.range) x (live s x - 1) with vmas := s.vmas.erase vma }
  | closeLast {id x : ℕ} {vma : VmArea} (hv : vmaOf s id = some vma) (hx : vma.vmPrivateData = some x)
      (hl : live s x = 1) :
      Effect s (.close id) { tornDown (zap s vma.mm vma.range) x with vmas := s.vmas.erase vma }

theorem zap_ledger {s : St} (mm : ℕ) (r : VmRange) (h : Ledger s) : Ledger (zap s mm r) :=
  ⟨h.pages, h.nodes, h.pagesNodup, h.nodesNodup, h.freeLt, h.count⟩

/-- a paging_mmap that returns has failed in its first kmalloc, or has attached a `pa_state_struct` -/
theorem pagingMmap_ok {s u : St} {vma vma' : VmArea} {e : MmapEnv} {r : ℤ}
    (h : pagingMmap s vma e = .ok (r, vma', u)) :
    (e.kmalloc = none ∧ r = ENOMEM ∧ vma' = { vma with vmOps := .paging } ∧ u = s) ∨
      ∃ x, x ∉ s.pas ∧ vma' = attach vma x ∧ Grows vma' (withPas s x) u := by
  cases hk : e.kmalloc with
  | none =>
    rw [pagingMmap_enomem hk] at h
    cases h
    exact Or.inl ⟨rfl, rfl, rfl, rfl⟩
  | some hint =>
    right
    have hx : kmallocAddr s hint ∉ s.pas := fun hm =>
      fresh_notMem (s.pas ++ s.nodes) hint (List.mem_append_left _ hm)
    by_cases hd : s.demandPaging = 0
    · rw [pagingMmap_prepage hk hd, map_ok] at h
      obtain ⟨⟨r', t⟩, hp, he⟩ := h
      cases he
      exact ⟨_, hx, rfl, prepage_grows hp⟩
    · rw [pagingMmap_demand hk hd] at h
      cases h
      exact ⟨_, hx, rfl, .refl⟩

/-- the count of a mapping with live VMAs goes up and down without wrapping -/
theorem Refs.atomicInc_live {s : St} (h : Refs s) (x : ℕ) : atomicInc (live s x) = live s x + 1 :=
  Nat.mod_eq_of_lt (h.live_lt x)

theorem Refs.atomicDec_live {s : St} (h : Refs s) {x : ℕ} (hx : 0 < live s x) :
    atomicDec (live s x) = live s x - 1 := by
  have := h.live_lt x
  simp only [atomicDec, wordSize] at *
  omega

/-- **Step inversion.** A step from an invariant state that completes has one of the listed effects. -/
theorem step_effect {s t : St} {o : Op} (h : Inv s) (hs : step s o = .ok t) : Effect s o t := by
  cases o with
  | setDemandPaging v => cases hs; exact .setDemandPaging v
  | mmap hint mm r e =>
    by_cases hu : Unused s mm r
    · simp only [step, if_pos hu] at hs
      obtain ⟨⟨result, vma, u⟩, hm, rfl⟩ := map_ok.1 hs
      rcases pagingMmap_ok hm with ⟨hk, rfl, rfl, rfl⟩ | ⟨x, hx, rfl, hg⟩
      · exact .mmapNoMem hu hk
      · by_cases h0 : result = 0
        · subst h0
          simp only [finishMmap, if_true]
          exact .mmapDone hu hx hm hg
        · simp only [finishMmap, if_neg h0]
          exact .mmapFailed hu hx hm h0 hg
    · simp only [step, if_neg hu, Except.ok.injEq] at hs
      subst hs
      exact .skip hu
  | fault id addr e =>
    cases hv : vmaOf s id with
    | none =>
      simp only [step, hv, Except.ok.injEq] at hs
      subst hs
      exact .skip (by simp [Delivered, hv])
    | some vma =>
      by_cases hc : vma.range.start ≤ addr ∧ addr < vma.range.stop ∧ s.pte vma.mm (pageBase addr) = none
      · simp only [step, hv, if_pos hc, pagingVmaFault] at hs
        obtain ⟨⟨result, u⟩, hf, rfl⟩ := map_ok.1 hs
        rcases doFault_ok hf with ⟨hfail, -, rfl⟩ | ⟨hsucc, -, hint, nodeHint, rfl⟩
        · exact .faultFailed ⟨vma, hv, hc⟩ hfail
        · have hlt : pageBase addr < wordSize := ((pageBase_le addr).trans_lt hc.2.1).trans vma.range.stop_lt
          rw [pageAlign_of_dvd (pageSize_dvd_pageBase addr) hlt]
          exact .faulted hv hc.1 hc.2.1 hc.2.2 hsucc hint nodeHint
      · simp only [step, hv, if_neg hc, Except.ok.injEq] at hs
        subst hs
        exact .skip (by simpa [Delivered, hv] using hc)
  | split id hint c =>
    cases hv : vmaOf s id with
    | none =>
      simp only [step, hv, Except.ok.injEq] at hs
      subst hs
      exact .skip (by simp [Delivered, hv])
    | some vma =>
      cases hc : vma.range.cut c with
      | none =>
        simp only [step, hv, hc, Except.ok.injEq] at hs
        subst hs
        exact .skip (by simp [Delivered, hv, hc])
      | some parts =>
        obtain ⟨lo, hi⟩ := parts
        obtain ⟨x, hx, hvx, -, hcount, -⟩ := h.refs.of_mem (vmaOf_mem hv).1
        have ho : pagingVmaOpen s { vma with id := vmaAddr s hint, range := hi } =
            .ok (setCount s x (live s x + 1)) := by
          rw [pagingVmaOpen_eq (by exact hvx) hx, hcount, h.refs.atomicInc_live]
        simp only [step, hv, hc, ho, Except.map, Except.ok.injEq] at hs
        subst hs
        exact .split hv hc hvx
  | close id =>
    cases hv : vmaOf s id with
    | none =>
      simp only [step, hv, Except.ok.injEq] at hs
      subst hs
      exact .skip (by simp [Delivered, hv])
    | some vma =>
      obtain ⟨x, hx, hvx, -, hcount, hpos⟩ := h.refs.of_mem (vmaOf_mem hv).1
      have hdec : atomicDec ((zap s vma.mm vma.range).refCount x) = live s x - 1 := by
        rw [show (zap s vma.mm vma.range).refCount x = s.refCount x from rfl, hcount, h.refs.atomicDec_live hpos]
      by_cases hl : live s x = 1
      · have hz := zap_ledger vma.mm vma.range h.ledger
        have hc := close_last (s := zap s vma.mm vma.range) hvx hx (by rw [hdec, hl]) hz.pages hz.nodes hz.freeLt
        simp only [step, hv, hc, Except.map, Except.ok.injEq] at hs
        subst hs
        exact .closeLast hv hvx hl
      · have hc := close_shared (s := zap s vma.mm vma.range) hvx hx (by rw [hdec]; omega)
        rw [hdec] at hc
        simp only [step, hv, hc, Except.map, Except.ok.injEq] at hs
        subst hs
        exact .closeShared hv hvx (by omega)

/-! ## The invariant is kept -/

theorem effect_ledger {s t : St} {o : Op} (h : Ledger s) (he : Effect s o t) : Ledger t := by
  cases he with
  | skip | setDemandPaging | mmapNoMem | faultFailed | split | closeShared =>
    exact ⟨h.pages, h.nodes, h.pagesNodup, h.nodesNodup, h.freeLt, h.count⟩
  | mmapDone _ _ _ hg | mmapFailed _ _ _ _ hg =>
    have hu := hg.ledger ⟨h.pages, h.nodes, h.pagesNodup, h.nodesNodup, h.freeLt, h.count⟩
    exact ⟨hu.pages, hu.nodes, hu.pagesNodup, hu.nodesNodup, hu.freeLt, hu.count⟩
  | faulted => exact ledger_installed h _ _ _ _
  | @closeLast id x vma =>
    have hu := ledger_tornDown x (zap_ledger vma.mm vma.range h)
    exact ⟨hu.pages, hu.nodes, hu.pagesNodup, hu.nodesNodup, hu.freeLt, hu.count⟩

theorem vmaAddr_notMem (s : St) (hint : ℕ) : vmaAddr s hint ∉ s.vmas.map VmArea.id := fresh_notMem _ _

/-- a successful mmap: one more VMA, alone in a mapping of its own -/
theorem refs_attach {s u : St} {hint mm x : ℕ} {r : VmRange} (h : Refs s) (hx : x ∉ s.pas)
    (e : SameRefs (withPas (zap s mm r) x) u) :
    Refs { u with vmas := attach (newVma s hint mm r) x :: u.vmas } := by
  have e1 : u.vmas = s.vmas := e.vmas
  have e2 : u.pas = x :: s.pas := e.pas
  have e3 : u.refCount = Function.update s.refCount x 1 := e.refCount
  have e4 : u.orphans = s.orphans := e.orphans
  have hxo : x ∉ s.orphans := fun hm => hx (h.leaked x hm)
  have hx0 : liveIn s.vmas x = 0 := h.not_live hx
  refine ⟨?_, ?_, ?_, ?_, ?_, ?_, ?_⟩
  · simp only [List.map_cons, e1]
    exact List.nodup_cons.2 ⟨vmaAddr_notMem s hint, h.ids⟩
  · intro v hv
    rw [e1] at hv
    rcases List.mem_cons.1 hv with rfl | hv
    · rfl
    · exact h.ops v hv
  · intro v hv
    rw [e1] at hv
    simp only [e2, e4]
    rcases List.mem_cons.1 hv with rfl | hv
    · exact ⟨x, List.mem_cons_self, rfl, hxo⟩
    · obtain ⟨y, hy, hvy, hyo⟩ := h.attached v hv
      exact ⟨y, List.mem_cons_of_mem x hy, hvy, hyo⟩
  · intro y hy hyo
    simp only [live_eq, liveIn_cons, e1, e2, e3, e4] at hy hyo ⊢
    by_cases hyx : y = x
    · subst hyx
      simp [hx0, attach]
    · obtain ⟨h1, h2⟩ := h.counts y ((List.mem_cons.1 hy).resolve_left hyx) hyo
      rw [live_eq] at h1 h2
      simp [attach, Function.update_of_ne hyx, Ne.symm hyx, h1, h2]
  · intro y hy
    simp only [e2, e4] at hy ⊢
    exact List.mem_cons_of_mem x (h.leaked y hy)
  · simp only [e2]
    exact List.nodup_cons.2 ⟨hx, h.pasNodup⟩
  · intro y
    have h1 := h.size y
    simp only [spanIn_cons, e1]
    split_ifs with hy
    · have hyx : x = y := by simpa [attach] using hy
      subst hyx
      rw [spanIn_eq_zero hx0]
      exact r.pages_le
    · omega

/-- a failed mmap: its `pa_state_struct` stays allocated, and nothing points to it -/
theorem refs_orphan {s u : St} {mm x : ℕ} {r : VmRange} (h : Refs s) (hx : x ∉ s.pas)
    (e : SameRefs (withPas (zap s mm r) x) u) : Refs (zap { u with orphans := x :: u.orphans } mm r) := by
  have e1 : u.vmas = s.vmas := e.vmas
  have e2 : u.pas = x :: s.pas := e.pas
  have e3 : u.refCount = Function.update s.refCount x 1 := e.refCount
  have e4 : u.orphans = s.orphans := e.orphans
  refine ⟨?_, ?_, ?_, ?_, ?_, ?_, ?_⟩
  · simp only [zap, e1]; exact h.ids
  · simp only [zap, e1]; exact h.ops
  · intro v hv
    simp only [zap, e1] at hv
    obtain ⟨y, hy, hvy, hyo⟩ := h.attached v hv
    have hyx : y ≠ x := fun heq => hx (heq ▸ hy)
    simp only [zap, e2, e4, List.mem_cons]
    exact ⟨y, Or.inr hy, hvy, fun hm => hm.elim hyx hyo⟩
  · intro y hy hyo
    simp only [zap, e2, e4, List.mem_cons, not_or] at hy hyo
    obtain ⟨hyx, hyo⟩ := hyo
    simp only [live_eq, zap, e1, e3, Function.update_of_ne hyx]
    exact h.counts y (hy.resolve_left hyx) hyo
  · intro y hy
    simp only [zap, e2, e4, List.mem_cons] at hy ⊢
    exact hy.imp_right (h.leaked y)
  · simp only [zap, e2]
    exact List.nodup_cons.2 ⟨hx, h.pasNodup⟩
  · simp only [zap, e1]; exact h.size

/-- a split: the two parts stand for the VMA that was cut -/
theorem refs_split {s : St} {vma : VmArea} {lo hi : VmRange} {x c hint : ℕ} (h : Refs s) (hv : vma ∈ s.vmas)
    (hc : vma.range.cut c = some (lo, hi)) (hx : vma.vmPrivateData = some x) :
    Refs { setCount s x (live s x + 1) with
      vmas := { vma with id := vmaAddr s hint, range := hi } :: { vma with range := lo } :: s.vmas.erase vma } := by
  have hperm : (vma.id :: (s.vmas.erase vma).map VmArea.id).Perm (s.vmas.map VmArea.id) := by
    simpa using ((List.perm_cons_erase hv).map VmArea.id).symm
  have herase : ∀ v ∈ s.vmas.erase vma, v ∈ s.vmas := fun v => List.mem_of_mem_erase
  refine ⟨?_, ?_, ?_, ?_, h.leaked, h.pasNodup, ?_⟩
  · simp only [List.map_cons]
    exact List.nodup_cons.2 ⟨fun hm => vmaAddr_notMem s hint (hperm.mem_iff.1 hm), hperm.nodup_iff.2 h.ids⟩
  · intro v hm
    rcases List.mem_cons.1 hm with rfl | hm
    · exact h.ops vma hv
    · rcases List.mem_cons.1 hm with rfl | hm
      · exact h.ops vma hv
      · exact h.ops v (herase v hm)
  · intro v hm
    rcases List.mem_cons.1 hm with rfl | hm
    · exact h.attached vma hv
    · rcases List.mem_cons.1 hm with rfl | hm
      · exact h.attached vma hv
      · exact h.attached v (herase v hm)
  · intro y hy hyo
    obtain ⟨h1, h2⟩ := h.counts y hy hyo
    simp only [live_eq, liveIn_cons, setCount, hx, Option.some.injEq] at h1 h2 ⊢
    rcases eq_or_ne y x with rfl | hyx
    · have herase := liveIn_erase_self hv hx
      rw [Function.update_self, if_pos rfl]
      omega
    · rw [Function.update_of_ne hyx, if_neg hyx.symm, liveIn_erase_of_ne hv hx hyx]
      exact ⟨h1, h2⟩
  · intro y
    have h1 := h.size y
    have h2 := spanIn_erase hv y
    have h3 := VmRange.cut_pages hc
    simp only [spanIn_cons]
    split_ifs at h2 ⊢ <;> omega

/-- a close that is not the last of its mapping -/
theorem refs_closeShared {s : St} {vma : VmArea} {x : ℕ} (h : Refs s) (hv : vma ∈ s.vmas)
    (hx : vma.vmPrivateData = some x) (hl : 1 < live s x) :
    Refs { setCount (zap s vma.mm vma.range) x (live s x - 1) with vmas := s.vmas.erase vma } := by
  have herase : ∀ v ∈ s.vmas.erase vma, v ∈ s.vmas := fun v => List.mem_of_mem_erase
  refine ⟨?_, fun v hm => h.ops v (herase v hm), fun v hm => h.attached v (herase v hm), ?_, h.leaked,
    h.pasNodup, ?_⟩
  · exact h.ids.sublist (List.erase_sublist.map _)
  · intro y hy hyo
    obtain ⟨h1, h2⟩ := h.counts y hy hyo
    simp only [live_eq, setCount, zap] at h1 h2 hl ⊢
    rcases eq_or_ne y x with rfl | hyx
    · have herase := liveIn_erase_self hv hx
      rw [Function.update_self]
      omega
    · rw [Function.update_of_ne hyx, liveIn_erase_of_ne hv hx hyx]
      exact ⟨h1, h2⟩
  · intro y
    have h1 := h.size y
    have h2 := spanIn_erase hv y
    simp only
    omega

/-- the close of the last VMA of a mapping: no VMA is left that points to the freed `pa_state_struct` -/
theorem refs_closeLast {s : St} {vma : VmArea} {x : ℕ} (h : Refs s) (hv : vma ∈ s.vmas)
    (hx : vma.vmPrivateData = some x) (hl : live s x = 1) :
    Refs { tornDown (zap s vma.mm vma.range) x with vmas := s.vmas.erase vma } := by
  have herase : ∀ v ∈ s.vmas.erase vma, v ∈ s.vmas := fun v => List.mem_of_mem_erase
  have h0 : liveIn (s.vmas.erase vma) x = 0 := by
    have herase := liveIn_erase_self hv hx
    rw [live_eq] at hl
    omega
  have hxo := (h.of_private hv hx).2.1
  refine ⟨?_, fun v hm => h.ops v (herase v hm), ?_, ?_, ?_, ?_, ?_⟩
  · exact h.ids.sublist (List.erase_sublist.map _)
  · intro v hm
    obtain ⟨y, hy, hvy, hyo⟩ := h.attached v (herase v hm)
    have hyx : y ≠ x := by
      rintro rfl
      have := liveIn_pos.2 ⟨v, show v ∈ s.vmas.erase vma from hm, hvy⟩
      omega
    exact ⟨y, (List.mem_erase_of_ne hyx).2 hy, hvy, hyo⟩
  · intro y hy hyo
    have hy' : y ≠ x ∧ y ∈ s.pas := h.pasNodup.mem_erase_iff.1 hy
    obtain ⟨h1, h2⟩ := h.counts y hy'.2 hyo
    simp only [live_eq, tornDown, setCount, zap] at h1 h2 ⊢
    rw [Function.update_of_ne hy'.1, liveIn_erase_of_ne hv hx hy'.1]
    exact ⟨h1, h2⟩
  · intro y hyo
    have hyx : y ≠ x := fun heq => hxo (heq ▸ hyo)
    exact (List.mem_erase_of_ne hyx).2 (h.leaked y hyo)
  · exact h.pasNodup.erase x
  · intro y
    have h1 := h.size y
    have h2 := spanIn_erase hv y
    simp only
    omega

theorem effect_refs {s t : St} {o : Op} (h : Refs s) (he : Effect s o t) : Refs t := by
  cases he with
  | skip | setDemandPaging | mmapNoMem | faultFailed | faulted =>
    exact ⟨h.ids, h.ops, h.attached, h.counts, h.leaked, h.pasNodup, h.size⟩
  | mmapDone _ hx _ hg => exact refs_attach h hx hg.sameRefs
  | mmapFailed _ hx _ _ hg => exact refs_orphan h hx hg.sameRefs
  | split hv hc hx => exact refs_split h (vmaOf_mem hv).1 hc hx
  | closeShared hv hx hl => exact refs_closeShared h (vmaOf_mem hv).1 hx hl
  | closeLast hv hx hl => exact refs_closeLast h (vmaOf_mem hv).1 hx hl

/-- **Step invariant.** -/
theorem step_inv {s t : St} {o : Op} (h : Inv s) (hs : step s o = .ok t) : Inv t :=
  ⟨effect_ledger h.ledger (step_effect h hs), effect_refs h.refs (step_effect h hs)⟩

/-- **Run invariant.** The invariant holds in every state that a run from loading the module reaches. -/
theorem run_inv {d : ℕ} {ops : List Op} {s : St} (h : run (init d) ops = .ok s) : Inv s :=
  Lts.Run.inv (R := Lts.Ok step) (I := Inv) (fun _ _ _ hs ht => step_inv hs ht) (Lts.run_foldlM_iff.2 h) (inv_init d)

/-! ## What can break -/

/-- the kmalloc of every list node of the event succeeds -/
def Op.NodesOk : Op → Prop
  | .mmap _ _ _ e => ∀ k, (e.fault k).kmalloc ≠ none
  | .fault _ _ e => e.kmalloc ≠ none
  | _ => True

/-- **The only crash.** A step from an invariant state breaks only by the NULL dereference of `do_fault` after the
kmalloc of a list node has failed: there is no use after free and no double free. -/
theorem step_oops {s : St} {o : Op} {oops : Oops} (h : Inv s) (hs : step s o = .error oops) :
    oops = .nullDeref ∧ ¬ o.NodesOk := by
  cases o with
  | setDemandPaging v => cases hs
  | mmap hint mm r e =>
    by_cases hu : Unused s mm r
    · simp only [step, if_pos hu] at hs
      have hm := map_error.1 hs
      cases hk : e.kmalloc with
      | none => rw [pagingMmap_enomem hk] at hm; cases hm
      | some pasHint =>
        by_cases hd : (zap s mm r).demandPaging = 0
        · rw [pagingMmap_prepage hk hd] at hm
          obtain ⟨h1, j, h2⟩ := prepage_oops (map_error.1 hm)
          exact ⟨h1, fun hn => hn j h2⟩
        · rw [pagingMmap_demand hk hd] at hm; cases hm
    · simp only [step, if_neg hu] at hs; cases hs
  | fault id addr e =>
    simp only [step] at hs
    split at hs
    · cases hs
    · split_ifs at hs
      obtain ⟨h1, h2⟩ := doFault_error (map_error.1 hs)
      exact ⟨h1, fun hn => hn h2⟩
  | split id hint c =>
    cases hv : vmaOf s id with
    | none => simp only [step, hv] at hs; cases hs
    | some vma =>
      cases hc : vma.range.cut c with
      | none => simp only [step, hv, hc] at hs; cases hs
      | some parts =>
        obtain ⟨x, hx, hvx, -⟩ := h.refs.of_mem (vmaOf_mem hv).1
        simp only [step, hv, hc] at hs
        rw [map_error, pagingVmaOpen_eq (by exact hvx) hx] at hs
        cases hs
  | close id =>
    cases hv : vmaOf s id with
    | none => simp only [step, hv] at hs; cases hs
    | some vma =>
      obtain ⟨x, hx, hvx, -⟩ := h.refs.of_mem (vmaOf_mem hv).1
      simp only [step, hv] at hs
      rw [map_error] at hs
      have hz := zap_ledger vma.mm vma.range h.ledger
      by_cases h0 : atomicDec ((zap s vma.mm vma.range).refCount x) = 0
      · rw [close_last (s := zap s vma.mm vma.range) hvx hx h0 hz.pages hz.nodes hz.freeLt] at hs; cases hs
      · rw [close_shared (s := zap s vma.mm vma.range) hvx hx h0] at hs; cases hs

theorem step_total {s : St} {o : Op} (h : Inv s) (ho : o.NodesOk) : ∃ t, step s o = .ok t := by
  cases hs : step s o with
  | ok t => exact ⟨t, rfl⟩
  | error oops => exact absurd ho (step_oops h hs).2

/-- **Runs complete** when the kmalloc of the list nodes succeeds. -/
theorem run_total {s : St} {ops : List Op} (h : Inv s) (hops : ∀ o ∈ ops, o.NodesOk) : ∃ t, run s ops = .ok t := by
  induction ops generalizing s with
  | nil => exact ⟨s, rfl⟩
  | cons o ops ih =>
    obtain ⟨u, hu⟩ := step_total h (hops o List.mem_cons_self)
    obtain ⟨t, ht⟩ := ih (step_inv h hu) fun o' ho' => hops o' (List.mem_cons_of_mem o ho')
    exact ⟨t, by simpa [run, hu, bind, Except.bind] using ht⟩

/-- a run breaks only by the NULL dereference of `do_fault` -/
theorem run_oops {s : St} {ops : List Op} {oops : Oops} (h : Inv s) (hr : run s ops = .error oops) :
    oops = .nullDeref := by
  induction ops generalizing s with
  | nil => cases hr
  | cons o ops ih =>
    cases hs : step s o with
    | error oops' =>
      simp only [run, List.foldlM_cons, hs, bind, Except.bind, Except.error.injEq] at hr
      rw [← hr]
      exact (step_oops h hs).1
    | ok u =>
      simp only [run, List.foldlM_cons, hs, bind, Except.bind] at hr
      exact ih (step_inv h hs) hr

end Cse422.Paging
