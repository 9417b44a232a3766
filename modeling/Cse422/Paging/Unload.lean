/-
The lifetime of the module: `kmod_paging_init`, any events, `kmod_paging_exit`.

The kernel refuses to unload a module while an open file or a mapping pins it, and it pins the `.owner` of the
`file_operations`. `dev_ops` does not set `.owner`, so unloading is never refused (`exit_permitted`).

- `clean_unload_iff`: the module unloads cleanly if and only if no VMA is live at that moment and no mmap of the
  run failed in its pre-paging loop;
- `unload_dirty`: unloading with a live mapping, and unloading after a failed mmap.
-/
import Cse422.Paging.Accounting
import Cse422.Paging.MmapFailure

namespace Cse422.Paging

/-! ## Loading and unloading -/

inductive KernelModule where
  | thisModule

structure FileOperations where
  /-- the module that open files and mappings pin, or NULL -/
  owner : Option KernelModule
  mmap : St → VmArea → MmapEnv → Except Oops (ℤ × VmArea × St)

def devOps : FileOperations := { owner := none, mmap := pagingMmap }

/-- the module and the open files of its device -/
structure Machine where
  st : St
  openFiles : ℕ

/-- `misc_register` answers 0 or an error; the status is what the loader gets -/
def kmodPagingInit (s : St) (miscRegister : ℤ) : ℤ × St :=
  let s₁ := { s with allocCount := 0, freeCount := 0 }
  if miscRegister ≠ 0 then (miscRegister, s₁) else (0, s₁)

/-- the state it leaves, and the two numbers it prints -/
def kmodPagingExit (s : St) : St × ℕ × ℕ := (s, s.allocCount, s.freeCount)

/-- when the kernel lets the module go -/
def ExitPermitted (fops : FileOperations) (m : Machine) : Prop :=
  fops.owner = none ∨ (m.openFiles = 0 ∧ m.st.vmas = [])

inductive LifeEvent where
  | openFile
  | release
  | op (o : Op)

/-- an mmap needs an open file; the other events come from VMAs and from sysfs -/
def Enabled (m : Machine) : Op → Prop
  | .mmap _ _ _ _ => 0 < m.openFiles
  | _ => True

instance (m : Machine) (o : Op) : Decidable (Enabled m o) := by cases o <;> unfold Enabled <;> infer_instance

def lifeStep (m : Machine) : LifeEvent → Except Oops Machine
  | .openFile => .ok { m with openFiles := m.openFiles + 1 }
  | .release => .ok { m with openFiles := m.openFiles - 1 }
  | .op o => if Enabled m o then (step m.st o).map fun t => { m with st := t } else .ok m

/-- the machine when `kmod_paging_init` has returned 0 -/
def loaded (d : ℕ) : Machine := ⟨(kmodPagingInit (init d) 0).2, 0⟩

/-- from loading the module to the moment before its exit -/
def lifetime (d : ℕ) (evs : List LifeEvent) : Except Oops Machine := evs.foldlM lifeStep (loaded d)

/-- nothing of the module is left behind -/
structure CleanExit (s : St) : Prop where
  list : s.refPageList = []
  counts : s.allocCount = s.freeCount
  pas : s.pas = []
  vmas : ∀ v ∈ s.vmas, v.vmOps ≠ .paging

/-- every exit that the kernel permits after these events is clean -/
def CleanUnload (d : ℕ) (evs : List LifeEvent) : Prop :=
  ∀ m, lifetime d evs = .ok m → ExitPermitted devOps m → CleanExit (kmodPagingExit m.st).1

theorem exit_permitted (m : Machine) : ExitPermitted devOps m := Or.inl rfl

/-! ## Failed mmaps -/

/-- the event is an mmap that fails in its pre-paging loop -/
def FailsPrepage (s : St) (o : Op) : Prop :=
  ∃ hint mm r e, o = .mmap hint mm r e ∧ Unused s mm r ∧ PrepageFails s r e

/-- no mmap fails in its pre-paging loop -/
def PrepageDone (m : Machine) (ev : LifeEvent) (_ : Machine) : Prop :=
  ∀ o, ev = .op o → Enabled m o → ¬ FailsPrepage m.st o

/-- a step leaves a `pa_state_struct` behind exactly when it fails in its pre-paging loop -/
theorem effect_orphans {s t : St} {o : Op} (he : Effect s o t) :
    (t.orphans = s.orphans ∧ ¬ FailsPrepage s o) ∨ (∃ x, t.orphans = x :: s.orphans) ∧ FailsPrepage s o := by
  have not_mmap : ∀ {o : Op}, (∀ hint mm r e, o ≠ .mmap hint mm r e) → ¬ FailsPrepage s o := by
    rintro o ho ⟨hint, mm, r, e, rfl, -⟩
    exact ho hint mm r e rfl
  cases he with
  | skip hd =>
    refine Or.inl ⟨rfl, ?_⟩
    rintro ⟨hint, mm, r, e, rfl, hu, -⟩
    exact hd hu
  | mmapNoMem hu hk =>
    refine Or.inl ⟨rfl, ?_⟩
    intro ⟨hint, mm, r, e, ho, _, hf⟩
    cases ho
    exact hf.1 hk
  | @mmapDone hint mm x r e u hu hx hm hg =>
    refine Or.inl ⟨hg.sameRefs.orphans, ?_⟩
    intro ⟨hint', mm', r', e', ho, _, hf⟩
    cases ho
    have hfail : ∃ result y t', pagingMmap (zap s mm r) (newVma s hint mm r) e =
        .ok (result, attach (newVma s hint mm r) y, t') ∧ (result = VM_FAULT_OOM ∨ result = VM_FAULT_SIGBUS) ∧
        t'.pas = y :: s.pas := pagingMmap_prepageFails hf
    obtain ⟨result, y, t', hm', hr', -⟩ := hfail
    rw [hm] at hm'
    cases hm'
    rcases hr' with hr' | hr' <;> cases hr'
  | @mmapFailed hint mm x r e u result hu hx hm h0 hg =>
    refine Or.inr ⟨⟨x, ?_⟩, hint, mm, r, e, rfl, hu, ?_⟩
    · show x :: u.orphans = x :: s.orphans
      rw [hg.sameRefs.orphans]
      rfl
    · rcases pagingMmap_result hm with ⟨hk, -, -⟩ | ⟨hf, -⟩ | ⟨-, hr, -⟩
      · rw [pagingMmap_enomem hk] at hm
        cases hm
      · exact hf
      · exact absurd hr h0
  | setDemandPaging | faultFailed | faulted | split | closeShared | closeLast =>
    exact Or.inl ⟨rfl, not_mmap (by simp)⟩

/-! ## What the list hangs on -/

/-- pages are on the list only while some VMA is live or some failed mmap is left -/
def Held (s : St) : Prop := s.refPageList ≠ [] → s.vmas ≠ [] ∨ s.orphans ≠ []

theorem effect_held {s t : St} {o : Op} (h : Held s) (he : Effect s o t) : Held t := by
  cases he with
  | skip | setDemandPaging | mmapNoMem | faultFailed => exact h
  | mmapDone => exact fun _ => Or.inl (List.cons_ne_nil _ _)
  | mmapFailed => exact fun _ => Or.inr (List.cons_ne_nil _ _)
  | faulted hv => exact fun _ => Or.inl (List.ne_nil_of_mem (vmaOf_mem hv).1)
  | split => exact fun _ => Or.inl (List.cons_ne_nil _ _)
  | @closeShared id x vma hv hx hl =>
    -- another VMA of the mapping is left
    refine fun _ => Or.inl ?_
    have herase := liveIn_erase_self (vmaOf_mem hv).1 hx
    rw [live_eq] at hl
    obtain ⟨w, hw, -⟩ := liveIn_pos.1 (show 0 < liveIn (s.vmas.erase vma) x by omega)
    exact List.ne_nil_of_mem hw
  | closeLast => exact fun hl => absurd rfl hl

/-! ## Whole lifetimes -/

structure LifeInv (m : Machine) : Prop where
  inv : Inv m.st
  held : Held m.st

theorem lifeInv_loaded (d : ℕ) : LifeInv (loaded d) := ⟨inv_init d, fun h => absurd rfl h⟩

/-- an event leaves the module alone, or is one step of it -/
theorem lifeStep_ok {m m' : Machine} {ev : LifeEvent} (h : lifeStep m ev = .ok m') :
    (m'.st = m.st ∧ ∀ o, ev = .op o → ¬ Enabled m o) ∨ ∃ o, ev = .op o ∧ Enabled m o ∧ step m.st o = .ok m'.st := by
  cases ev with
  | openFile | release =>
    cases h
    exact Or.inl ⟨rfl, by simp⟩
  | op o =>
    simp only [lifeStep] at h
    split_ifs at h with he
    · obtain ⟨t, ht, rfl⟩ := map_ok.1 h
      exact Or.inr ⟨o, rfl, he, ht⟩
    · cases h
      refine Or.inl ⟨rfl, ?_⟩
      intro o' ho
      cases ho
      exact he

theorem lifeStep_inv {m m' : Machine} {ev : LifeEvent} (h : LifeInv m) (hs : lifeStep m ev = .ok m') : LifeInv m' := by
  rcases lifeStep_ok hs with ⟨he, -⟩ | ⟨o, -, -, ht⟩
  · exact ⟨he ▸ h.inv, he ▸ h.held⟩
  · exact ⟨step_inv h.inv ht, effect_held h.held (step_effect h.inv ht)⟩

theorem lifetime_inv {d : ℕ} {evs : List LifeEvent} {m : Machine} (h : lifetime d evs = .ok m) : LifeInv m :=
  Lts.Run.inv (R := Lts.Ok lifeStep) (I := LifeInv) (fun _ _ _ hm hs => lifeStep_inv hm hs) (Lts.run_foldlM_iff.2 h)
    (lifeInv_loaded d)

/-- one event keeps "no failed mmap is left" exactly when it does not fail in a pre-paging loop -/
theorem lifeStep_orphans {m m' : Machine} {ev : LifeEvent} (h : LifeInv m) (hs : lifeStep m ev = .ok m') :
    m'.st.orphans = [] ↔ m.st.orphans = [] ∧ PrepageDone m ev m' := by
  rcases lifeStep_ok hs with ⟨he, hn⟩ | ⟨o, rfl, hen, ht⟩
  · rw [he]
    exact ⟨fun h0 => ⟨h0, fun o ho hen => absurd hen (hn o ho)⟩, fun h0 => h0.1⟩
  · rcases effect_orphans (step_effect h.inv ht) with ⟨ho, hf⟩ | ⟨⟨x, ho⟩, hf⟩
    · rw [ho]
      refine ⟨fun h0 => ⟨h0, fun o' ho' _ => ?_⟩, fun h0 => h0.1⟩
      cases ho'
      exact hf
    · rw [ho]
      refine ⟨fun h0 => absurd h0 (List.cons_ne_nil _ _), fun h0 => absurd hf (h0.2 o rfl hen)⟩

theorem run_orphans {m m' : Machine} {evs : List LifeEvent} (h : LifeInv m) (hr : Lts.Run (Lts.Ok lifeStep) m evs m') :
    m'.st.orphans = [] ↔ m.st.orphans = [] ∧ Lts.Along (Lts.Ok lifeStep) PrepageDone m evs := by
  induction hr with
  | nil => exact ⟨fun h0 => ⟨h0, Lts.along_nil _⟩, fun h0 => h0.1⟩
  | @cons m u m' ev evs hs _ ih =>
    rw [ih (lifeStep_inv h hs), lifeStep_orphans h hs, and_assoc, Lts.along_cons]
    refine and_congr_right fun _ => ⟨?_, fun ha => ha u hs⟩
    intro hq v hv
    rw [Lts.Ok] at hs hv
    rw [hs] at hv
    cases hv
    exact hq

/-- the exit is clean exactly when nothing hangs on to the module -/
theorem cleanExit_iff {m : Machine} (h : LifeInv m) : CleanExit m.st ↔ m.st.vmas = [] ∧ m.st.orphans = [] := by
  constructor
  · intro hc
    constructor
    · refine List.eq_nil_iff_forall_not_mem.2 fun v hv => ?_
      exact hc.vmas v hv (h.inv.refs.ops v hv)
    · refine List.eq_nil_iff_forall_not_mem.2 fun x hx => ?_
      have hp := h.inv.refs.leaked x hx
      rw [hc.pas] at hp
      cases hp
  · intro ⟨hv, ho⟩
    have hlist : m.st.refPageList = [] := by
      by_contra hl
      rcases h.held hl with h1 | h1
      · exact h1 hv
      · exact h1 ho
    refine ⟨hlist, h.inv.ledger.counters_eq hlist, ?_, by simp [hv]⟩
    refine List.eq_nil_iff_forall_not_mem.2 fun x hx => ?_
    have hpos := (h.inv.refs.counts x hx (by simp [ho])).2
    simp [live, hv] at hpos

/-- no VMA is live when the module goes, and no mmap of the run has failed in its pre-paging loop -/
def Idle (d : ℕ) (evs : List LifeEvent) : Prop :=
  ∀ m, lifetime d evs = .ok m → m.st.vmas = [] ∧ Lts.Along (Lts.Ok lifeStep) PrepageDone (loaded d) evs

theorem lifetime_clean_iff {d : ℕ} {evs : List LifeEvent} {m : Machine} (h : lifetime d evs = .ok m) :
    CleanExit (kmodPagingExit m.st).1 ↔
      m.st.vmas = [] ∧ Lts.Along (Lts.Ok lifeStep) PrepageDone (loaded d) evs := by
  have hleft := run_orphans (lifeInv_loaded d) (Lts.run_foldlM_iff.2 h)
  calc CleanExit (kmodPagingExit m.st).1
      ↔ m.st.vmas = [] ∧ m.st.orphans = [] := cleanExit_iff (lifetime_inv h)
    _ ↔ m.st.vmas = [] ∧ Lts.Along (Lts.Ok lifeStep) PrepageDone (loaded d) evs := by
      rw [hleft]
      exact and_congr_right fun _ => and_iff_right rfl

/-- **Clean unload** exactly when no VMA is live at the exit and no mmap failed in its pre-paging loop. -/
theorem clean_unload_iff (d : ℕ) (evs : List LifeEvent) : CleanUnload d evs ↔ Idle d evs := by
  constructor
  · intro h m hm
    exact (lifetime_clean_iff hm).1 (h m hm (exit_permitted m))
  · intro h m hm _
    exact (lifetime_clean_iff hm).2 (h m hm)

/-- **Unclean exits.** A mapping with one touched page is live; and a mapping of which half the pages were allocated
has failed. -/
theorem unload_dirty :
    ¬ CleanUnload 1 [.openFile, .op (.mmap 0 0 twoPages ⟨some 0, fun _ => allSucceed⟩), .op (.fault 0 4096 allSucceed)] ∧
      ¬ CleanUnload 0 [.openFile, .op (.mmap 0 0 twoPages onePageLeft), .release] := by
  constructor
  · intro h
    have hobs : (lifetime 1 [.openFile, .op (.mmap 0 0 twoPages ⟨some 0, fun _ => allSucceed⟩),
        .op (.fault 0 4096 allSucceed)]).map (fun m => m.st.pas) = .ok [0] := by rfl
    obtain ⟨m, hm, hp⟩ := map_ok.1 hobs
    have hc := (h m hm (exit_permitted m)).pas
    simp only [kmodPagingExit, hp] at hc
    cases hc
  · intro h
    have hnodes : Op.NodesOk (.mmap 0 0 twoPages onePageLeft) := by
      intro k
      simp only [onePageLeft]
      split_ifs <;> simp [allSucceed]
    obtain ⟨t, ht⟩ := step_total (inv_init 0) hnodes
    have hstep : lifeStep ⟨init 0, 1⟩ (.op (.mmap 0 0 twoPages onePageLeft)) = .ok ⟨t, 1⟩ := by
      simp only [lifeStep, ht, Except.map]
      rfl
    have hm : lifetime 0 [.openFile, .op (.mmap 0 0 twoPages onePageLeft), .release] = .ok ⟨t, 0⟩ := by
      rw [lifetime, List.foldlM_cons, bind_ok]
      refine ⟨⟨init 0, 1⟩, rfl, ?_⟩
      rw [List.foldlM_cons, bind_ok]
      exact ⟨⟨t, 1⟩, hstep, rfl⟩
    have hdone := ((lifetime_clean_iff hm).1 (h _ hm (exit_permitted _))).2
    have hfails : FailsPrepage (init 0) (.mmap 0 0 twoPages onePageLeft) := by
      refine ⟨0, 0, twoPages, onePageLeft, rfl, by decide, by decide, rfl, 1, by decide, ?_, by decide⟩
      intro i hi
      obtain rfl : i = 0 := by omega
      decide
    exact hdone [.openFile] _ [.release] ⟨init 0, 1⟩ ⟨t, 1⟩ rfl (.cons rfl (.nil _)) hstep _ rfl Nat.one_pos hfails

end Cse422.Paging
