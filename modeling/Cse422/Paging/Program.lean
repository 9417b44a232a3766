/-
User programs on the module: a process, and between any two of its events whatever other processes do. The process maps the
ranges `ι`; memory is counted in doubles, and an access to a page that is not mapped faults.

Premises: the address space of the program is its own, nobody maps or unmaps anything in it meanwhile, and an access of
eight bytes is not interrupted. What other processes may do is `Considerate`.

- `load_spec`, `store_spec`: an access returns, and reaches its own double;
- `touch_behind`: the address where a mapping ends is in none of its pages;
- `mmapMalloc_spec`: a mapping, and what stays free for the next ones.
-/
import Cse422.Paging.Process

namespace Cse422.Paging.Program

/-! ## The process -/

/-- why a program does not get to its end -/
inductive Stopped where
  /-- the kernel has crashed -/
  | oops (o : Oops)
  /-- an access that is not in the mapping -/
  | segmentationFault
  /-- of the model: a loop has not come to its end in the turns that it was given -/
  | unfinished

/-- what the kernel answers and what other processes do -/
structure Env (ι α : Type) where
  /-- the address space of the program -/
  mm : ℕ
  hint : ι → ℕ
  range : ι → VmRange
  mmap : ι → MmapEnv
  /-- the events of other processes before the `k`-th event of this one -/
  others : ℕ → Memory α → List (Event α)
  fault : ℕ → FaultEnv
  /-- what the pages hold that are handed out in the `k`-th event -/
  old : ℕ → ℕ → ℕ → α

structure Process (α : Type) where
  memory : Memory α
  /-- the number of events so far -/
  clock : ℕ

variable {ι α : Type}

def meanwhile (E : Env ι α) (s : Process α) : Except Stopped (Process α) :=
  match (E.others s.clock s.memory).foldlM Memory.event s.memory with
  | .error o => .error (.oops o)
  | .ok m => .ok ⟨m, s.clock + 1⟩

def kernel (E : Env ι α) (s : Process α) (o : Op) : Except Stopped (Process α) :=
  match s.memory.event (.kernel o (E.old s.clock)) with
  | .error e => .error (.oops e)
  | .ok m => .ok ⟨m, s.clock + 1⟩

/-- the VMA behind the pointer, and none where the pointer is NULL or what a failed `mmap` returned -/
def mmapMalloc (E : Env ι α) (x : ι) (bytes : ℕ) (s : Process α) : Except Stopped (Option VmArea × Process α) :=
  (meanwhile E s).bind fun s₁ =>
    if bytes = 0 then .ok (none, s₁)
    else (kernel E s₁ (.mmap (E.hint x) E.mm (E.range x) (E.mmap x))).map fun t =>
      (vmaOf t.memory.st (vmaAddr s₁.memory.st (E.hint x)), t)

/-- `&M[i]` -/
def element (r : VmRange) (i : ℕ) : ℕ := (r.start + 8 * i) % 2 ^ 32

/-- the page and the offset of an address, after the fault that may be needed -/
def touch (E : Env ι α) (v : VmArea) (va : ℕ) (s : Process α) : Except Stopped ((ℕ × ℕ) × Process α) :=
  (meanwhile E s).bind fun s₁ => (kernel E s₁ (.fault v.id va (E.fault s₁.clock))).bind fun t =>
    match Paging.translate t.memory.st v.id va with
    | none => .error .segmentationFault
    | some q => .ok (q, t)

/-- `M[i]` -/
def load (E : Env ι α) (M : Option VmArea) (i : ℕ) (s : Process α) : Except Stopped (α × Process α) :=
  match M with
  | none => .error .segmentationFault
  | some v => (touch E v (element v.range i) s).map fun r => (r.2.memory.doubles r.1.1 (r.1.2 / 8), r.2)

/-- `M[i] = d` -/
def store (E : Env ι α) (M : Option VmArea) (i : ℕ) (d : α) (s : Process α) : Except Stopped (Process α) :=
  match M with
  | none => .error .segmentationFault
  | some v => (touch E v (element v.range i) s).map fun r =>
      { r.2 with memory := r.2.memory.put r.1.1 (r.1.2 / 8) d }

/-! ## What the kernel grants -/

variable {E : Env ι α} {m₀ : Memory α}

/-- every call succeeds, and the ranges are free and apart -/
structure Granted (E : Env ι α) (m : Memory α) : Prop where
  mmap : ∀ x, (E.mmap x).Succeeds (E.range x)
  fault : ∀ k, (E.fault k).Succeeds
  unused : ∀ x, Unused m.st E.mm (E.range x)
  disjoint : ∀ x y, x ≠ y → (E.range x).stop ≤ (E.range y).start ∨ (E.range y).stop ≤ (E.range x).start

/-- other processes never close the last VMA of a mapping while pages are mapped elsewhere, and the kmallocs of list nodes
succeed for them, which the module does not test -/
def Considerate (E : Env ι α) : Prop := ∀ k m, Sound m → AllCalm E.mm m (E.others k m)

/-- element `i` is in the range of `x` -/
def Within (E : Env ι α) (x : ι) (i : ℕ) : Prop := (E.range x).start + 8 * i < (E.range x).stop

/-- the addresses of the elements: in their range, and a multiple of eight -/
theorem element_spec {x : ι} {i : ℕ} (hi : Within E x i) :
    element (E.range x) i = (E.range x).start + 8 * i ∧ 8 ∣ element (E.range x) i := by
  have hstop : (E.range x).stop < 2 ^ 32 := (E.range x).stop_lt
  have helement : element (E.range x) i = (E.range x).start + 8 * i := Nat.mod_eq_of_lt (Nat.lt_trans hi hstop)
  refine ⟨helement, ?_⟩
  obtain ⟨k, hk⟩ := (E.range x).dvd_start
  simp only [pageSize] at hk
  rw [helement]
  omega

/-- different elements have different addresses -/
theorem element_injective (hG : Granted E m₀) {x y : ι} {i j : ℕ} (hi : Within E x i) (hj : Within E y j)
    (h : element (E.range x) i = element (E.range y) j) : x = y ∧ i = j := by
  rw [(element_spec hi).1, (element_spec hj).1] at h
  have hx : (E.range x).start + 8 * i < (E.range x).stop := hi
  have hy : (E.range y).start + 8 * j < (E.range y).stop := hj
  by_cases hxy : x = y
  · subst hxy
    exact ⟨rfl, by omega⟩
  · rcases hG.disjoint x y hxy with hd | hd
    · omega
    · omega

/-- nothing is mapped in a free range -/
theorem unmapped_element (hG : Granted E m₀) (hs : Sound m₀) {x : ι} {i : ℕ} (hi : Within E x i) :
    m₀.value E.mm (element (E.range x) i) = none := by
  rw [value_none, (element_spec hi).1]
  apply hs.coherent.unmapped (hG.unused x)
  · exact VmRange.start_le_pageBase (Nat.le_add_right _ _)
  · exact (pageBase_le _).trans_lt hi

/-! ## Accesses -/

/-- the program has its mappings -/
structure Ready (E : Env ι α) (V : ι → VmArea) (s : Process α) : Prop where
  sound : Sound s.memory
  live : ∀ x, V x ∈ s.memory.st.vmas
  mm : ∀ x, (V x).mm = E.mm
  range : ∀ x, (V x).range = E.range x

variable {V : ι → VmArea} {s t : Process α}

theorem Ready.extends (h : Ready E V s) (hs : Sound t.memory) (he : Extends E.mm s.memory t.memory) : Ready E V t :=
  ⟨hs, fun x => he.vmas _ (h.live x) (h.mm x), h.mm, h.range⟩

theorem meanwhile_spec (hC : Considerate E) (hs : Sound s.memory) :
    ∃ t, meanwhile E s = .ok t ∧ Sound t.memory ∧ Untouched E.mm s.memory t.memory := by
  obtain ⟨m, hm, hsound, hun⟩ := events_calm hs (hC s.clock s.memory hs)
  refine ⟨⟨m, s.clock + 1⟩, ?_, hsound, hun⟩
  rw [meanwhile, hm]

/-- **Touch.** -/
theorem touch_spec (hG : Granted E m₀) (hC : Considerate E) (h : Ready E V s) {x : ι} {i : ℕ} (hi : Within E x i) :
    ∃ p t, touch E (V x) (element (E.range x) i) s = .ok ((p, element (E.range x) i % pageSize), t) ∧ Ready E V t ∧
      Extends E.mm s.memory t.memory ∧ t.memory.st.pte E.mm (pageBase (element (E.range x) i)) = some p := by
  obtain ⟨s₁, hs₁, hsound₁, hun⟩ := meanwhile_spec hC h.sound
  have h₁ : Ready E V s₁ := h.extends hsound₁ hun.extends
  have haddr := (element_spec hi).1
  set va := element (E.range x) i
  have hlo : (V x).range.start ≤ va := by
    rw [h.range, haddr]
    exact Nat.le_add_right _ _
  have hhi : va < (V x).range.stop := by
    rw [h.range, haddr]
    exact hi
  obtain ⟨m, hm, hsound, hext, hvmas, hmapped⟩ := fault_maps hsound₁ (h₁.live x) hlo hhi (hG.fault s₁.clock) (E.old s₁.clock)
  rw [h.mm] at hext hmapped
  obtain ⟨p, hp⟩ := Option.ne_none_iff_exists'.1 hmapped
  have h₂ : Ready E V ⟨m, s₁.clock + 1⟩ := h₁.extends (t := ⟨m, s₁.clock + 1⟩) hsound hext
  have htranslate : Paging.translate m.st (V x).id va = some (p, va % pageSize) := by
    rw [Paging.translate, vmaOf_of_mem hsound.inv.refs (h₂.live x)]
    simp only [if_pos (And.intro hlo hhi), h.mm, hp, Option.map_some]
  refine ⟨p, ⟨m, s₁.clock + 1⟩, ?_, h₂, hun.extends.trans hext, hp⟩
  simp only [touch, hs₁, kernel, hm, htranslate, Except.bind]

/-- where the range ends -/
theorem touch_behind (hC : Considerate E) (h : Ready E V s) {x : ι} {i : ℕ}
    (hi : (E.range x).start + 8 * i = (E.range x).stop) :
    touch E (V x) (element (E.range x) i) s = .error .segmentationFault := by
  obtain ⟨s₁, hs₁, hsound₁, hun⟩ := meanwhile_spec hC h.sound
  have h₁ : Ready E V s₁ := h.extends hsound₁ hun.extends
  have haddr : element (E.range x) i = (V x).range.stop := by
    rw [h.range, element, hi]
    exact Nat.mod_eq_of_lt (E.range x).stop_lt
  have hvma : vmaOf s₁.memory.st (V x).id = some (V x) := vmaOf_of_mem hsound₁.inv.refs (h₁.live x)
  -- the kernel maps nothing, since the address is not in the VMA
  have hstep : step s₁.memory.st (.fault (V x).id (V x).range.stop (E.fault s₁.clock)) = .ok s₁.memory.st := by
    simp only [step, hvma]
    rw [if_neg fun hc => Nat.lt_irrefl _ hc.2.1]
  have hevent : ∃ m, s₁.memory.event (.kernel (.fault (V x).id (V x).range.stop (E.fault s₁.clock)) (E.old s₁.clock)) =
      .ok m ∧ m.st = s₁.memory.st := ⟨_, map_ok.2 ⟨_, hstep, rfl⟩, rfl⟩
  obtain ⟨m, hm, hst⟩ := hevent
  have htranslate : Paging.translate m.st (V x).id (V x).range.stop = none := by
    rw [hst, Paging.translate, hvma]
    exact if_neg fun hc => Nat.lt_irrefl _ hc.2
  rw [haddr]
  simp only [touch, hs₁, kernel, hm, htranslate, Except.bind]

theorem load_spec (hG : Granted E m₀) (hC : Considerate E) (h : Ready E V s) {x : ι} {i : ℕ} (hi : Within E x i) :
    ∃ d t, load E (some (V x)) i s = .ok (d, t) ∧ Ready E V t ∧ Extends E.mm s.memory t.memory ∧
      t.memory.value E.mm (element (E.range x) i) = some d := by
  obtain ⟨p, t, ht, hready, hext, hp⟩ := touch_spec hG hC h hi
  refine ⟨t.memory.doubles p (slot (element (E.range x) i)), t, ?_, hready, hext, value_some hp⟩
  simp only [load, h.range, ht, Except.map]
  rfl

theorem store_spec [DecidableEq ι] (hG : Granted E m₀) (hC : Considerate E) (h : Ready E V s) {x : ι} {i : ℕ}
    (hi : Within E x i) (d : α) :
    ∃ t u, store E (some (V x)) i d s = .ok u ∧ Ready E V t ∧ Ready E V u ∧ Extends E.mm s.memory t.memory ∧
      t.memory.value E.mm (element (E.range x) i) ≠ none ∧ u.memory.found = t.memory.found ∧
      ∀ y j, Within E y j → u.memory.value E.mm (element (E.range y) j) =
        if y = x ∧ j = i then some d else t.memory.value E.mm (element (E.range y) j) := by
  obtain ⟨p, t, ht, hready, hext, hp⟩ := touch_spec hG hC h hi
  have hmapped : t.memory.value E.mm (element (E.range x) i) ≠ none := by
    rw [value_some hp]
    exact Option.some_ne_none _
  refine ⟨t, { t with memory := t.memory.put p (slot (element (E.range x) i)) d }, ?_, hready, ?_, hext, hmapped, rfl, ?_⟩
  · simp only [store, h.range, ht, Except.map]
    rfl
  · exact ⟨⟨hready.sound.inv, hready.sound.coherent⟩, hready.live, hready.mm, hready.range⟩
  · intro y j hj
    have hiff : element (E.range y) j = element (E.range x) i ↔ y = x ∧ j = i := by
      constructor
      · exact element_injective hG hj hi
      · rintro ⟨rfl, rfl⟩
        rfl
    rw [store_value hready.sound.coherent hp (element_spec hi).2 E.mm _ (element_spec hj).2]
    simp only [true_and, hiff]

theorem load_behind (hC : Considerate E) (h : Ready E V s) {x : ι} {i : ℕ}
    (hi : (E.range x).start + 8 * i = (E.range x).stop) : load E (some (V x)) i s = .error .segmentationFault := by
  simp only [load, h.range, touch_behind hC h hi, Except.map]

theorem store_behind (hC : Considerate E) (h : Ready E V s) {x : ι} {i : ℕ}
    (hi : (E.range x).start + 8 * i = (E.range x).stop) (d : α) :
    store E (some (V x)) i d s = .error .segmentationFault := by
  simp only [store, h.range, touch_behind hC h hi, Except.map]

/-- **Mmap.** The program has one more mapping, and the ranges that are apart from it are as free as before. -/
theorem mmapMalloc_spec (hG : Granted E m₀) (hC : Considerate E) (hs : Sound s.memory) {x : ι}
    (hu : Unused s.memory.st E.mm (E.range x)) {bytes : ℕ} (hbytes : bytes ≠ 0) :
    ∃ v t, mmapMalloc E x bytes s = .ok (some v, t) ∧ Sound t.memory ∧ Extends E.mm s.memory t.memory ∧
      v ∈ t.memory.st.vmas ∧ v.mm = E.mm ∧ v.range = E.range x ∧
      ∀ y, y ≠ x → Unused s.memory.st E.mm (E.range y) → Unused t.memory.st E.mm (E.range y) := by
  obtain ⟨s₁, hs₁, hsound₁, hun⟩ := meanwhile_spec hC hs
  obtain ⟨v, m, hm, hsound, hext, hvmas, hmm, hrange, hid⟩ :=
    mmap_maps hsound₁ (hun.unused hu) (hG.mmap x) (E.hint x) (E.old s₁.clock)
  have hv : v ∈ m.st.vmas := hvmas ▸ List.mem_cons_self
  refine ⟨v, ⟨m, s₁.clock + 1⟩, ?_, hsound, hun.extends.trans hext, hv, hmm, hrange, ?_⟩
  · have hof : vmaOf m.st (vmaAddr s₁.memory.st (E.hint x)) = some v := hid ▸ vmaOf_of_mem hsound.inv.refs hv
    simp only [mmapMalloc, hs₁, kernel, hm, Except.bind, Except.map, if_neg hbytes, hof]
  · intro y hyx hy w hw hwm
    rw [show (⟨m, s₁.clock + 1⟩ : Process α).memory.st.vmas = v :: s₁.memory.st.vmas from hvmas] at hw
    rcases List.mem_cons.1 hw with rfl | hw
    · rw [hrange]
      exact hG.disjoint x y hyx.symm
    · exact hun.unused hy w hw hwm

/-- a request of no bytes -/
theorem mmapMalloc_zero (hC : Considerate E) (hs : Sound s.memory) (x : ι) :
    ∃ t, mmapMalloc E x 0 s = .ok (none, t) ∧ Sound t.memory := by
  obtain ⟨t, ht, hsound, -⟩ := meanwhile_spec hC hs
  refine ⟨t, ?_, hsound⟩
  simp only [mmapMalloc, ht, Except.bind, if_true]

/-! ## Data of the examples -/

theorem pageAt_stop_lt (k : Fin 8) : pageSize * k + pageSize < wordSize := by
  have hk := k.isLt
  unfold pageSize wordSize
  omega

/-- the range of one page -/
def pageAt (k : Fin 8) : VmRange where
  start := pageSize * k
  stop := pageSize * k + pageSize
  start_lt_stop := Nat.lt_add_of_pos_right (Nat.succ_pos 4095)
  stop_lt := pageAt_stop_lt k
  dvd_start := Nat.dvd_mul_right _ _
  dvd_stop := Nat.dvd_add (Nat.dvd_mul_right _ _) (Nat.dvd_refl _)

def firstPage : VmRange := pageAt 1
def secondPage : VmRange := pageAt 2
def thirdPage : VmRange := pageAt 3

theorem succeeds_allSucceed : allSucceed.Succeeds := by decide

/-- while another process maps two pages again and again -/
def sharing (range : ι → VmRange) (old : ℕ → ℕ → ℕ → α) : Env ι α where
  mm := 0
  hint _ := 0
  range := range
  mmap _ := ⟨some 0, fun _ => allSucceed⟩
  others k _ := [.kernel (.mmap 0 1 twoPages ⟨some 0, fun _ => allSucceed⟩) (old k)]
  fault _ := allSucceed
  old := old

theorem considerate_sharing (range : ι → VmRange) (old : ℕ → ℕ → ℕ → α) : Considerate (sharing range old) := by
  intro k m _
  refine ⟨⟨Nat.one_ne_zero, ?_, ?_⟩, fun _ _ => trivial⟩
  · rintro o old h
    cases h
    exact fun _ => Option.some_ne_none 0
  · rintro o old h s id v x ho
    cases h
    cases ho

theorem granted_sharing {range : ι → VmRange} (old : ℕ → ℕ → ℕ → α) (d : ℕ) (doubles found : ℕ → ℕ → α)
    (hrange : ∀ x y, x ≠ y → (range x).stop ≤ (range y).start ∨ (range y).stop ≤ (range x).start) :
    Granted (sharing range old) ⟨init d, doubles, found⟩ where
  mmap _ := ⟨Option.some_ne_none 0, fun _ _ => succeeds_allSucceed⟩
  fault _ := succeeds_allSucceed
  unused _ _ hv := absurd hv (List.not_mem_nil)
  disjoint := hrange

end Cse422.Paging.Program
