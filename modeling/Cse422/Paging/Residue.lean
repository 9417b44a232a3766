/-
Old page contents. `do_fault` takes a page from `alloc_page(GFP_KERNEL)`, without `__GFP_ZERO`, and maps it as it
is.

A run of the system with user accesses keeps one value for each byte of each physical page (`CellSt`). What a byte
holds when its page is handed out is a parameter of the run (`old`), as is the memory the run starts from. The same
machine over `Bool` records which bytes have been written since their page was handed out.

- `cellRun_map`, `cellRun_all`: the machine treats the values it moves uniformly, so a map of the values commutes
  with a run, and a predicate of all values put in holds of all values read;
- `no_leak_iff`: the values read are the same whatever the pages contained before they were handed out if and only
  if every byte read has been written since then;
- `residue_read`: one fault and one read show the old contents.
-/
import Cse422.Paging.Invariant

namespace Cse422.Paging

/-! ## User accesses -/

inductive UserOp where
  | kernel (o : Op)
  | write (id va : ℕ) (x : UInt8)
  | read (id va : ℕ)

structure CellSt (α : Type) where
  st : St
  /-- the value of each byte: page, offset -/
  cells : ℕ → ℕ → α
  /-- the number of events so far -/
  clock : ℕ
  /-- the values read so far, latest first -/
  reads : List α

/-- the physical byte at a virtual address of a VMA, if its page is mapped -/
def translate (s : St) (id va : ℕ) : Option (ℕ × ℕ) :=
  match vmaOf s id with
  | none => none
  | some vma =>
    if vma.range.start ≤ va ∧ va < vma.range.stop then
      (s.pte vma.mm (pageBase va)).map fun p => (p, va % pageSize)
    else none

section Machine

variable {α β : Type}

/-- one event: a page handed out by it holds `old`, at the time of the event; an access to an unmapped page does
nothing, since it is retried after its fault -/
def cellStep (old : ℕ → ℕ → ℕ → α) (put : UInt8 → α) (m : CellSt α) : UserOp → Except Oops (CellSt α)
  | .kernel o => (step m.st o).map fun t => { m with
      st := t
      cells := fun p i => if p ∈ t.pages ∧ p ∉ m.st.pages then old m.clock p i else m.cells p i
      clock := m.clock + 1 }
  | .write id va x =>
    match translate m.st id va with
    | none => .ok { m with clock := m.clock + 1 }
    | some (p, i) => .ok { m with
        cells := fun q j => if q = p ∧ j = i then put x else m.cells q j
        clock := m.clock + 1 }
  | .read id va =>
    match translate m.st id va with
    | none => .ok { m with clock := m.clock + 1 }
    | some (p, i) => .ok { m with reads := m.cells p i :: m.reads, clock := m.clock + 1 }

def cellRun (old : ℕ → ℕ → ℕ → α) (put : UInt8 → α) (m : CellSt α) (ops : List UserOp) : Except Oops (CellSt α) :=
  ops.foldlM (cellStep old put) m

/-- the module right after loading, with the given memory -/
def cellInit (d : ℕ) (mem : ℕ → ℕ → α) : CellSt α := ⟨init d, mem, 0, []⟩

def CellSt.map (f : α → β) (m : CellSt α) : CellSt β := ⟨m.st, fun p i => f (m.cells p i), m.clock, m.reads.map f⟩

theorem cellStep_map (f : α → β) (old : ℕ → ℕ → ℕ → α) (put : UInt8 → α) (m : CellSt α) (o : UserOp) :
    cellStep (fun t p i => f (old t p i)) (fun x => f (put x)) (m.map f) o =
      (cellStep old put m o).map (CellSt.map f) := by
  cases o with
  | kernel o =>
    simp only [cellStep, CellSt.map]
    cases step m.st o with
    | error e => rfl
    | ok t =>
      simp only [Except.map, CellSt.map, apply_ite f]
      rfl
  | write id va x =>
    simp only [cellStep, CellSt.map]
    cases translate m.st id va with
    | none => rfl
    | some q => simp only [Except.map, CellSt.map, apply_ite f]
  | read id va =>
    simp only [cellStep, CellSt.map]
    cases translate m.st id va with
    | none => rfl
    | some q => rfl

/-- **Uniformity.** A map of the values commutes with a run. -/
theorem cellRun_map (f : α → β) (old : ℕ → ℕ → ℕ → α) (put : UInt8 → α) (m : CellSt α) (ops : List UserOp) :
    cellRun (fun t p i => f (old t p i)) (fun x => f (put x)) (m.map f) ops =
      (cellRun old put m ops).map (CellSt.map f) := by
  induction ops generalizing m with
  | nil => rfl
  | cons o ops ih =>
    simp only [cellRun, List.foldlM_cons] at ih ⊢
    rw [cellStep_map]
    cases cellStep old put m o with
    | error e => rfl
    | ok u => exact ih u

/-- all values in memory and all values read satisfy `Q` -/
def CellsAll (Q : α → Prop) (m : CellSt α) : Prop := (∀ p i, Q (m.cells p i)) ∧ ∀ v ∈ m.reads, Q v

theorem cellStep_all {Q : α → Prop} {old : ℕ → ℕ → ℕ → α} {put : UInt8 → α} (hold : ∀ t p i, Q (old t p i))
    (hput : ∀ x, Q (put x)) {m m' : CellSt α} {o : UserOp} (h : CellsAll Q m) (hs : cellStep old put m o = .ok m') :
    CellsAll Q m' := by
  obtain ⟨hc, hr⟩ := h
  cases o with
  | kernel o =>
    obtain ⟨t, -, rfl⟩ := map_ok.1 hs
    refine ⟨fun p i => ?_, hr⟩
    simp only
    split_ifs
    · exact hold _ _ _
    · exact hc p i
  | write id va x =>
    simp only [cellStep] at hs
    split at hs
    · cases hs; exact ⟨hc, hr⟩
    · cases hs
      refine ⟨fun p i => ?_, hr⟩
      simp only
      split_ifs
      · exact hput x
      · exact hc p i
  | read id va =>
    simp only [cellStep] at hs
    split at hs
    · cases hs; exact ⟨hc, hr⟩
    · cases hs
      refine ⟨hc, fun v hv => ?_⟩
      rcases List.mem_cons.1 hv with rfl | hv
      · exact hc _ _
      · exact hr v hv

/-- **What is read was put in.** -/
theorem cellRun_all {Q : α → Prop} {old : ℕ → ℕ → ℕ → α} {put : UInt8 → α} (hold : ∀ t p i, Q (old t p i))
    (hput : ∀ x, Q (put x)) {m m' : CellSt α} {ops : List UserOp} (h : CellsAll Q m)
    (hs : cellRun old put m ops = .ok m') : CellsAll Q m' :=
  Lts.Run.inv (R := Lts.Ok (cellStep old put)) (I := CellsAll Q) (fun _ _ _ hq ht => cellStep_all hold hput hq ht)
    (Lts.run_foldlM_iff.2 hs) h

end Machine

/-! ## Two runs -/

/-- a run over the real contents: a written byte holds what was written -/
def memRun (d : ℕ) (old : ℕ → ℕ → ℕ → UInt8) (mem : ℕ → ℕ → UInt8) (ops : List UserOp) : Except Oops (CellSt UInt8) :=
  cellRun old id (cellInit d mem) ops

/-- a run over the history of the bytes: has the byte been written since its page was handed out? -/
def writtenRun (d : ℕ) (ops : List UserOp) : Except Oops (CellSt Bool) :=
  cellRun (fun _ _ _ => false) (fun _ => true) (cellInit d fun _ _ => false) ops

/-- at every point of the events, the values read so far do not depend on what the pages contained before they were
handed out -/
def NoLeak (d : ℕ) (ops : List UserOp) : Prop :=
  ∀ ops₁, ops₁ <+: ops → ∀ old old' mem mem' m m',
    memRun d old mem ops₁ = .ok m → memRun d old' mem' ops₁ = .ok m' → m.reads = m'.reads

/-- every byte read has been written since its page was handed out -/
def ReadsWritten (d : ℕ) (ops : List UserOp) : Prop :=
  ∀ ops₁, ops₁ <+: ops → ∀ w, writtenRun d ops₁ = .ok w → ∀ b ∈ w.reads, b = true

/-- two runs and the history of the bytes, side by side -/
def tripleRun (d : ℕ) (old old' : ℕ → ℕ → ℕ → UInt8) (mem mem' : ℕ → ℕ → UInt8) (ops : List UserOp) :
    Except Oops (CellSt (UInt8 × UInt8 × Bool)) :=
  cellRun (fun t p i => (old t p i, old' t p i, false)) (fun x => (x, x, true))
    (cellInit d fun p i => (mem p i, mem' p i, false)) ops

section Triple

variable (d : ℕ) (old old' : ℕ → ℕ → ℕ → UInt8) (mem mem' : ℕ → ℕ → UInt8) (ops : List UserOp)

theorem tripleRun_fst :
    memRun d old mem ops = (tripleRun d old old' mem mem' ops).map (CellSt.map fun v => v.1) := by
  unfold tripleRun
  rw [← cellRun_map]
  rfl

theorem tripleRun_snd :
    memRun d old' mem' ops = (tripleRun d old old' mem mem' ops).map (CellSt.map fun v => v.2.1) := by
  unfold tripleRun
  rw [← cellRun_map]
  rfl

theorem tripleRun_written :
    writtenRun d ops = (tripleRun d old old' mem mem' ops).map (CellSt.map fun v => v.2.2) := by
  unfold tripleRun
  rw [← cellRun_map]
  rfl

end Triple

/-- **No leak, exactly when.** What a process reads is independent of the old contents of its pages if and only if
every byte it reads has been written since its page was handed out. -/
theorem no_leak_iff (d : ℕ) (ops : List UserOp) : NoLeak d ops ↔ ReadsWritten d ops := by
  constructor
  · -- old contents 0 in one run and 1 in the other: a byte not written since reads differently
    intro h ops₁ hp w hw b hb
    rw [tripleRun_written d (fun _ _ _ => 0) (fun _ _ _ => 1) (fun _ _ => 0) (fun _ _ => 1), map_ok] at hw
    obtain ⟨m, hm, rfl⟩ := hw
    have h1 := tripleRun_fst d (fun _ _ _ => 0) (fun _ _ _ => 1) (fun _ _ => 0) (fun _ _ => 1) ops₁
    have h2 := tripleRun_snd d (fun _ _ _ => 0) (fun _ _ _ => 1) (fun _ _ => 0) (fun _ _ => 1) ops₁
    rw [hm] at h1 h2
    have heq := h ops₁ hp _ _ _ _ _ _ h1 h2
    have hall : CellsAll (fun v : UInt8 × UInt8 × Bool => v.2.2 = false → v.1 ≠ v.2.1) m :=
      cellRun_all (fun _ _ _ _ => by simp) (fun _ hx => by simp at hx)
        ⟨fun _ _ _ => by simp [cellInit], by simp [cellInit]⟩ hm
    obtain ⟨v, hv, rfl⟩ := List.mem_map.1 hb
    by_contra hf
    exact hall.2 v hv (by simpa using hf) (List.map_inj_left.1 heq v hv)
  · -- side by side, a written byte is the same in both runs
    intro h ops₁ hp old old' mem mem' m m' hm hm'
    rw [tripleRun_fst d old old' mem mem', map_ok] at hm
    rw [tripleRun_snd d old old' mem mem', map_ok] at hm'
    obtain ⟨u, hu, rfl⟩ := hm
    obtain ⟨u', hu', rfl⟩ := hm'
    rw [hu] at hu'
    cases hu'
    have hw := tripleRun_written d old old' mem mem' ops₁
    rw [hu] at hw
    have hall : CellsAll (fun v : UInt8 × UInt8 × Bool => v.2.2 = true → v.1 = v.2.1) u :=
      cellRun_all (fun _ _ _ hx => by simp at hx) (fun _ _ => rfl)
        ⟨fun _ _ hx => by simp [cellInit] at hx, by simp [cellInit]⟩ hu
    refine List.map_congr_left fun v hv => hall.2 v hv ?_
    exact h ops₁ hp _ hw v.2.2 (List.mem_map_of_mem hv)

/-- map two pages, touch the first one, and read it -/
def faultAndRead : List UserOp :=
  [.kernel (.mmap 0 0 twoPages ⟨some 0, fun _ => allSucceed⟩), .kernel (.fault 0 4096 allSucceed), .read 0 4096]

/-- **Old contents are read.** A page that held 1 before is read as 1, a page that held 0 as 0. -/
theorem residue_read : ¬ NoLeak 1 faultAndRead := by
  intro h
  have h0 : (memRun 1 (fun _ _ _ => 0) (fun _ _ => 0) faultAndRead).map CellSt.reads = .ok [0] := by rfl
  have h1 : (memRun 1 (fun _ _ _ => 1) (fun _ _ => 0) faultAndRead).map CellSt.reads = .ok [1] := by rfl
  obtain ⟨m, hm, hr⟩ := map_ok.1 h0
  obtain ⟨m', hm', hr'⟩ := map_ok.1 h1
  have heq := h faultAndRead (List.prefix_refl _) _ _ _ _ m m' hm hm'
  rw [hr, hr'] at heq
  cases heq

end Cse422.Paging
