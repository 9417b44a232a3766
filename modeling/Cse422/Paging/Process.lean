/-
The mapped memory of one process, while other processes use the module as well. Memory is counted in doubles: a double at
an address that 8 divides lies in one page.

- `kernel_values`: an event of the kernel leaves the doubles in mapped pages, and what is mapped then is a page as it was
  found;
- `events_calm`: for the process, events of other processes change nothing (`Untouched`), as long as none of their closes
  drops a reference count to zero while pages are mapped elsewhere, and the module finds memory for the list nodes of
  their pages (`Calm`);
- `fault_maps`, `mmap_maps`: the process's own faults and mmaps add to its memory (`Extends`);
- `store_value`: a store changes the double at its address and no other.
-/
import Cse422.Paging.Memory

namespace Cse422.Paging

/-! ## Memory -/

structure Memory (α : Type) where
  st : St
  /-- the doubles of each page -/
  doubles : ℕ → ℕ → α
  /-- history: what the double at an address of an address space was when its page was mapped there -/
  found : ℕ → ℕ → α

/-- the place of a double in its page -/
def slot (va : ℕ) : ℕ := va % pageSize / 8

/-- what happens to memory: `old` is what a page holds that is handed out; a store to an unmapped page does nothing, since it
is retried after its fault -/
inductive Event (α : Type) where
  | kernel (o : Op) (old : ℕ → ℕ → α)
  | store (id va : ℕ) (x : α)

variable {α : Type}

/-- the double at place `i` of the page `p` is `x` -/
def Memory.put (m : Memory α) (p i : ℕ) (x : α) : Memory α :=
  { m with doubles := fun q j => if q = p ∧ j = i then x else m.doubles q j }

def Memory.event (m : Memory α) : Event α → Except Oops (Memory α)
  | .kernel o old => (step m.st o).map fun t =>
      { st := t
        doubles := fun p i => if p ∈ t.pages ∧ p ∉ m.st.pages then old p i else m.doubles p i
        found := appear m.st t (fun p offset => old p (offset / 8)) m.found }
  | .store id va x =>
    match translate m.st id va with
    | none => .ok m
    | some (p, offset) => .ok (m.put p (offset / 8) x)

/-- the double at an address of an address space, if its page is mapped -/
def Memory.value (m : Memory α) (mm va : ℕ) : Option α := (m.st.pte mm (pageBase va)).map fun p => m.doubles p (slot va)

/-- the invariants of the module and of its page tables -/
structure Sound (m : Memory α) : Prop where
  inv : Inv m.st
  coherent : Coherent m.st

variable {m t u : Memory α} {mm : ℕ}

theorem value_some {va p : ℕ} (h : m.st.pte mm (pageBase va) = some p) : m.value mm va = some (m.doubles p (slot va)) := by
  rw [Memory.value, h, Option.map_some]

theorem put_value_some {va p q i : ℕ} {x : α} (h : m.st.pte mm (pageBase va) = some p) :
    (m.put q i x).value mm va = some (if p = q ∧ slot va = i then x else m.doubles p (slot va)) :=
  value_some (m := m.put q i x) h

theorem value_none {va : ℕ} : m.value mm va = none ↔ m.st.pte mm (pageBase va) = none := Option.map_eq_none_iff

/-! ## What an event of the kernel does -/

/-- from `m` to `t` the memory of a process has been added to -/
structure Extends (mm : ℕ) (m t : Memory α) : Prop where
  vmas : ∀ v ∈ m.st.vmas, v.mm = mm → v ∈ t.st.vmas
  kept : ∀ va x, m.value mm va = some x → t.value mm va = some x ∧ t.found mm va = m.found mm va
  added : ∀ va x, m.value mm va = none → t.value mm va = some x → x = t.found mm va

theorem Extends.refl (mm : ℕ) (m : Memory α) : Extends mm m m where
  vmas _ hv _ := hv
  kept _ _ hx := ⟨hx, rfl⟩
  added va x hnone hx := by
    rw [hnone] at hx
    cases hx

theorem Extends.trans (h : Extends mm m t) (h' : Extends mm t u) : Extends mm m u where
  vmas v hv hmm := h'.vmas v (h.vmas v hv hmm) hmm
  kept va x hx := by
    obtain ⟨ht, hfound⟩ := h.kept va x hx
    obtain ⟨hu, hfound'⟩ := h'.kept va x ht
    exact ⟨hu, hfound'.trans hfound⟩
  added va x hnone hx := by
    cases ht : t.value mm va with
    | none => exact h'.added va x ht hx
    | some y =>
      obtain ⟨hu, hfound⟩ := h'.kept va y ht
      obtain rfl : x = y := Option.some.inj (hx.symm.trans hu)
      exact (h.added va x hnone ht).trans hfound.symm

theorem Extends.mapped (h : Extends mm m t) {va : ℕ} (hva : m.value mm va ≠ none) : t.value mm va ≠ none := by
  obtain ⟨x, hx⟩ := Option.ne_none_iff_exists'.1 hva
  rw [(h.kept va x hx).1]
  exact Option.some_ne_none x

/-- **An event of the kernel.** What stays mapped stays as it is, and what is mapped now is as it was found. -/
theorem kernel_values {o : Op} {old : ℕ → ℕ → α} (hs : Sound m) (ho : ∀ s, ClosesAlone m.st o s)
    (he : m.event (.kernel o old) = .ok t) :
    step m.st o = .ok t.st ∧ Sound t ∧ ∀ mm va p, t.st.pte mm (pageBase va) = some p →
      (m.st.pte mm (pageBase va) = some p ∧ t.value mm va = m.value mm va ∧ t.found mm va = m.found mm va) ∨
      (m.st.pte mm (pageBase va) = none ∧ t.value mm va = some (t.found mm va)) := by
  obtain ⟨s, hstep, rfl⟩ := map_ok.1 he
  obtain ⟨hco, hentries⟩ := coherent_step hs.inv hs.coherent (ho s) hstep
  refine ⟨hstep, ⟨step_inv hs.inv hstep, hco⟩, ?_⟩
  intro mm va p hp
  rcases hentries mm _ p hp with hold | ⟨hnone, hnew, hfree⟩
  · left
    have hpage : ¬ (p ∈ s.pages ∧ p ∉ m.st.pages) := fun h => h.2 (hs.coherent.backed mm _ p hold)
    refine ⟨hold, ?_, ?_⟩
    · rw [value_some hp, value_some hold]
      exact congrArg some (if_neg hpage)
    · simp only [appear, hold]
  · right
    refine ⟨hnone, ?_⟩
    rw [value_some hp]
    have hp' : s.pte mm (pageBase va) = some p := hp
    simp only [appear, hnone, hp', if_pos (And.intro hnew hfree)]
    rfl

/-- an event that leaves what is mapped for the process adds to its memory -/
theorem kernel_extends {o : Op} {old : ℕ → ℕ → α} (hs : Sound m) (ho : ∀ s, ClosesAlone m.st o s)
    (he : m.event (.kernel o old) = .ok t) (hvmas : ∀ v ∈ m.st.vmas, v.mm = mm → v ∈ t.st.vmas)
    (hpte : ∀ a p, m.st.pte mm a = some p → t.st.pte mm a = some p) : Sound t ∧ Extends mm m t := by
  obtain ⟨-, hsound, hvalues⟩ := kernel_values hs ho he
  refine ⟨hsound, hvmas, ?_, ?_⟩
  · intro va x hx
    obtain ⟨p, hp, -⟩ := Option.map_eq_some_iff.1 hx
    rcases hvalues mm va p (hpte _ p hp) with ⟨-, hvalue, hfound⟩ | ⟨hnone, -⟩
    · exact ⟨hvalue.trans hx, hfound⟩
    · rw [hp] at hnone
      cases hnone
  · intro va x hnone hx
    obtain ⟨p, hp, -⟩ := Option.map_eq_some_iff.1 hx
    rcases hvalues mm va p hp with ⟨hold, -⟩ | ⟨-, hvalue⟩
    · rw [value_none.1 hnone] at hold
      cases hold
    · exact Option.some.inj (hx.symm.trans hvalue)

/-! ## Other processes -/

/-- the event is of a process with another address space -/
def Event.Elsewhere (mm : ℕ) (s : St) : Event α → Prop
  | .kernel (.setDemandPaging _) _ => True
  | .kernel (.mmap _ mm' _ _) _ => mm' ≠ mm
  | .kernel (.fault id _ _) _ | .kernel (.split id _ _) _ | .kernel (.close id) _ | .store id _ _ =>
    ∀ v, vmaOf s id = some v → v.mm ≠ mm

/-- the event is of another process, the kmalloc of its list nodes succeeds, and if it is a close it closes alone -/
structure Calm (mm : ℕ) (m : Memory α) (e : Event α) : Prop where
  elsewhere : e.Elsewhere mm m.st
  nodesOk : ∀ o old, e = .kernel o old → o.NodesOk
  closesAlone : ∀ o old, e = .kernel o old → ∀ s, ClosesAlone m.st o s

/-- each event is, where it happens -/
def AllCalm (mm : ℕ) : Memory α → List (Event α) → Prop
  | _, [] => True
  | m, e :: es => Calm mm m e ∧ ∀ t, m.event e = .ok t → AllCalm mm t es

/-- nothing has changed for the process -/
structure Untouched (mm : ℕ) (m t : Memory α) : Prop where
  vmas : ∀ v, v.mm = mm → (v ∈ t.st.vmas ↔ v ∈ m.st.vmas)
  value : ∀ va, t.value mm va = m.value mm va
  found : ∀ va, m.value mm va ≠ none → t.found mm va = m.found mm va

theorem Untouched.refl (mm : ℕ) (m : Memory α) : Untouched mm m m := ⟨fun _ _ => Iff.rfl, fun _ => rfl, fun _ _ => rfl⟩

theorem Untouched.trans (h : Untouched mm m t) (h' : Untouched mm t u) : Untouched mm m u where
  vmas v hv := (h'.vmas v hv).trans (h.vmas v hv)
  value va := (h'.value va).trans (h.value va)
  found va hva := (h'.found va (h.value va ▸ hva)).trans (h.found va hva)

theorem Untouched.extends (h : Untouched mm m t) : Extends mm m t where
  vmas v hv hmm := (h.vmas v hmm).2 hv
  kept va x hx := ⟨(h.value va).trans hx, h.found va (by rw [hx]; exact Option.some_ne_none x)⟩
  added va x hnone hx := by
    rw [h.value, hnone] at hx
    cases hx

/-- an address range stays unused -/
theorem Untouched.unused (h : Untouched mm m t) {r : VmRange} (hr : Unused m.st mm r) : Unused t.st mm r := by
  intro v hv hmm
  exact hr v ((h.vmas v hmm).1 hv) hmm

/-- **Frame.** An event in another address space leaves the VMAs and the page tables of this one. -/
theorem elsewhere_frame {s s' : St} {o : Op} {old : ℕ → ℕ → α} (hco : Coherent s) (he : Effect s o s')
    (ho : (Event.kernel o old).Elsewhere mm s) :
    (∀ v, v.mm = mm → (v ∈ s'.vmas ↔ v ∈ s.vmas)) ∧ ∀ a, s'.pte mm a = s.pte mm a := by
  have hzap : ∀ {mm' : ℕ} (s : St) (r : VmRange) (a : ℕ), mm' ≠ mm → (zap s mm' r).pte mm a = s.pte mm a := by
    intro mm' s r a hne
    exact if_neg fun h => hne h.1.symm
  have hfilled : ∀ {mm' hint x : ℕ} {r : VmRange} {u : St}, mm' ≠ mm →
      Filled (attach (newVma s hint mm' r) x) (zap s mm' r) u → ∀ a, u.pte mm a = s.pte mm a := by
    intro mm' hint x r u hne hf a
    rw [hf.kept mm a fun h => hne h.1.symm]
    exact hzap s r a hne
  have herase : ∀ {w v : VmArea}, w.mm ≠ mm → v.mm = mm → (v ∈ s.vmas.erase w ↔ v ∈ s.vmas) := by
    intro w v hw hv
    exact List.mem_erase_of_ne fun h => hw (h ▸ hv)
  cases he with
  | skip | setDemandPaging | faultFailed => exact ⟨fun _ _ => Iff.rfl, fun _ => rfl⟩
  | mmapNoMem hu hk =>
    refine ⟨fun _ _ => Iff.rfl, ?_⟩
    intro a
    rw [hzap _ _ a ho, hzap _ _ a ho]
  | @mmapDone hint mm' x r e u hu hx hm hg =>
    have hf := pagingMmap_filled (zap_coherent _ _ hco) hm
    have hvmas : u.vmas = s.vmas := hf.vmas
    have hpte := hfilled ho hf
    refine ⟨?_, hpte⟩
    intro v hv
    have hne : v ≠ attach (newVma s hint mm' r) x := fun h => ho ((congrArg VmArea.mm h).symm.trans hv)
    rw [List.mem_cons, or_iff_right hne, hvmas]
  | @mmapFailed hint mm' x r e u result hu hx hm h0 hg =>
    have hf := pagingMmap_filled (zap_coherent _ _ hco) hm
    have hvmas : u.vmas = s.vmas := hf.vmas
    refine ⟨?_, ?_⟩
    · intro v hv
      change v ∈ u.vmas ↔ v ∈ s.vmas
      rw [hvmas]
    · intro a
      rw [hzap _ _ a ho]
      exact hfilled ho hf a
  | faulted hv h1 h2 h3 hs hint nodeHint =>
    refine ⟨fun _ _ => Iff.rfl, ?_⟩
    intro a
    exact if_neg fun h => ho _ hv h.1.symm
  | split hv hc hx =>
    refine ⟨?_, fun _ => rfl⟩
    intro v hmm
    have hne := ho _ hv
    have hother : ∀ w : VmArea, w.mm ≠ mm → v ≠ w := fun w hw h => hw (h ▸ hmm)
    rw [List.mem_cons, List.mem_cons, or_iff_right, or_iff_right]
    · exact herase hne hmm
    · exact hother _ hne
    · exact hother _ hne
  | closeShared hv hx hl =>
    have hne := ho _ hv
    exact ⟨fun v hmm => herase hne hmm, fun a => hzap s _ a hne⟩
  | closeLast hv hx hl =>
    have hne := ho _ hv
    exact ⟨fun v hmm => herase hne hmm, fun a => hzap s _ a hne⟩

/-! ## Accesses -/

/-- the VMA and the page that an address is translated with -/
theorem translate_vma {s : St} {id va p offset : ℕ} (h : translate s id va = some (p, offset)) :
    ∃ v, vmaOf s id = some v ∧ s.pte v.mm (pageBase va) = some p := by
  unfold translate at h
  cases hv : vmaOf s id with
  | none => simp only [hv] at h; cases h
  | some v =>
    simp only [hv] at h
    split_ifs at h
    obtain ⟨q, hq, heq⟩ := Option.map_eq_some_iff.1 h
    obtain ⟨rfl, -⟩ := Prod.mk.inj heq
    exact ⟨v, rfl, hq⟩

/-- a store at a mapped address: one physical double, one address -/
theorem store_value {va p : ℕ} {x : α} (hco : Coherent m.st) (hp : m.st.pte mm (pageBase va) = some p) (h8 : 8 ∣ va) :
    ∀ mm' va', 8 ∣ va' →
      (m.put p (slot va) x).value mm' va' = if mm' = mm ∧ va' = va then some x else m.value mm' va' := by
  intro mm' va' h8'
  cases hp' : m.st.pte mm' (pageBase va') with
  | none =>
    have hne : ¬ (mm' = mm ∧ va' = va) := by
      rintro ⟨rfl, rfl⟩
      rw [hp] at hp'
      cases hp'
    rw [if_neg hne, value_none.2 hp']
    exact value_none.2 hp'
  | some p' =>
    have hiff : p' = p ∧ slot va' = slot va ↔ mm' = mm ∧ va' = va := by
      constructor
      · rintro ⟨rfl, hslot⟩
        obtain ⟨rfl, hbase⟩ := hco.single _ _ _ _ _ hp' hp
        refine ⟨rfl, eq_of_page_offset hbase ?_⟩
        simp only [slot, pageSize] at hslot ⊢
        omega
      · rintro ⟨rfl, rfl⟩
        exact ⟨Option.some.inj (hp'.symm.trans hp), rfl⟩
    rw [value_some hp', put_value_some hp']
    simp only [hiff]
    exact apply_ite some _ _ _

/-- a store of another process is to another page -/
theorem store_untouched {id va : ℕ} {x : α} (hco : Coherent m.st) (ho : (Event.store id va x).Elsewhere mm m.st)
    (he : m.event (.store id va x) = .ok t) : t.st = m.st ∧ Untouched mm m t := by
  simp only [Memory.event] at he
  cases hq : translate m.st id va with
  | none =>
    simp only [hq, Except.ok.injEq] at he
    subst he
    exact ⟨rfl, .refl mm m⟩
  | some q =>
    obtain ⟨p, offset⟩ := q
    simp only [hq, Except.ok.injEq] at he
    subst he
    refine ⟨rfl, fun _ _ => Iff.rfl, ?_, fun _ _ => rfl⟩
    intro va'
    cases hp : m.st.pte mm (pageBase va') with
    | none =>
      rw [value_none.2 hp]
      exact value_none.2 hp
    | some p' =>
      have hne : p' ≠ p := by
        rintro rfl
        obtain ⟨v, hv, hpv⟩ := translate_vma hq
        exact ho v hv (hco.single _ _ _ _ _ hpv hp).1
      rw [value_some hp, put_value_some hp, if_neg fun h => hne h.1]

theorem event_calm {e : Event α} (hs : Sound m) (hc : Calm mm m e) : ∃ t, m.event e = .ok t ∧ Sound t ∧ Untouched mm m t := by
  cases e with
  | kernel o old =>
    obtain ⟨s, hstep⟩ := step_total hs.inv (hc.nodesOk o old rfl)
    have he : m.event (.kernel o old) = .ok _ := map_ok.2 ⟨s, hstep, rfl⟩
    obtain ⟨hvmas, hpte⟩ := elsewhere_frame hs.coherent (step_effect hs.inv hstep) hc.elsewhere
    obtain ⟨-, hsound, hvalues⟩ := kernel_values hs (hc.closesAlone o old rfl) he
    refine ⟨_, he, hsound, hvmas, ?_, ?_⟩
    · intro va
      cases hp : m.st.pte mm (pageBase va) with
      | none => rw [value_none.2 hp, value_none.2 ((hpte _).trans hp)]
      | some p =>
        rcases hvalues mm va p ((hpte _).trans hp) with ⟨-, hvalue, -⟩ | ⟨hnone, -⟩
        · exact hvalue
        · rw [hp] at hnone
          cases hnone
    · intro va hva
      obtain ⟨p, hp⟩ := Option.ne_none_iff_exists'.1 (mt value_none.2 hva)
      rcases hvalues mm va p ((hpte _).trans hp) with ⟨-, -, hfound⟩ | ⟨hnone, -⟩
      · exact hfound
      · rw [hp] at hnone
        cases hnone
  | store id va x =>
    cases hq : translate m.st id va with
    | none =>
      have he : m.event (.store id va x) = .ok m := by simp only [Memory.event, hq]
      exact ⟨m, he, hs, (store_untouched hs.coherent hc.elsewhere he).2⟩
    | some q =>
      have he : m.event (.store id va x) = .ok (m.put q.1 (q.2 / 8) x) := by simp only [Memory.event, hq]
      obtain ⟨hst, hun⟩ := store_untouched hs.coherent hc.elsewhere he
      exact ⟨_, he, ⟨hs.inv, hs.coherent⟩, hun⟩

/-- **Other processes.** For the process nothing changes, whatever they do. -/
theorem events_calm {es : List (Event α)} (hs : Sound m) (hc : AllCalm mm m es) :
    ∃ t, es.foldlM Memory.event m = .ok t ∧ Sound t ∧ Untouched mm m t := by
  induction es generalizing m with
  | nil => exact ⟨m, rfl, hs, .refl mm m⟩
  | cons e es ih =>
    obtain ⟨u, hu, hsu, hmu⟩ := event_calm hs hc.1
    obtain ⟨t, ht, hst, hut⟩ := ih hsu (hc.2 u hu)
    refine ⟨t, ?_, hst, hmu.trans hut⟩
    rw [List.foldlM_cons]
    exact bind_ok.2 ⟨u, hu, ht⟩

/-! ## The process itself -/

theorem not_fails_of_succeeds {e : FaultEnv} (h : e.Succeeds) : ¬ e.Fails := by
  rintro (ha | hr)
  · exact h.1 ha
  · rw [h.2.1] at hr
    cases hr

/-- **Fault.** After it the page is mapped. -/
theorem fault_maps {v : VmArea} {va : ℕ} {e : FaultEnv} (hs : Sound m) (hv : v ∈ m.st.vmas) (h1 : v.range.start ≤ va)
    (h2 : va < v.range.stop) (he : e.Succeeds) (old : ℕ → ℕ → α) :
    ∃ t, m.event (.kernel (.fault v.id va e) old) = .ok t ∧ Sound t ∧ Extends v.mm m t ∧ t.st.vmas = m.st.vmas ∧
      t.st.pte v.mm (pageBase va) ≠ none := by
  have hid := vmaOf_of_mem hs.inv.refs hv
  have hnodes : Op.NodesOk (.fault v.id va e) := he.2.2
  obtain ⟨s, hstep⟩ := step_total hs.inv hnodes
  have hevent : m.event (.kernel (.fault v.id va e) old) = .ok _ := map_ok.2 ⟨s, hstep, rfl⟩
  have hstate : s.vmas = m.st.vmas ∧ (∀ a p, m.st.pte v.mm a = some p → s.pte v.mm a = some p) ∧
      s.pte v.mm (pageBase va) ≠ none := by
    cases step_effect hs.inv hstep with
    | skip hd => exact ⟨rfl, fun _ _ hp => hp, fun hnone => hd ⟨v, hid, h1, h2, hnone⟩⟩
    | faultFailed hd hf => exact absurd hf (not_fails_of_succeeds he)
    | faulted hv' _ _ hnone _ hint nodeHint =>
      obtain rfl := Option.some.inj (hid.symm.trans hv')
      refine ⟨rfl, ?_, ?_⟩
      · intro a p hp
        have hne : ¬ (v.mm = v.mm ∧ a = pageBase va) := by
          rintro ⟨-, rfl⟩
          rw [hnone] at hp
          cases hp
        exact (if_neg hne).trans hp
      · have hnew : (installed m.st v (pageBase va) hint nodeHint).pte v.mm (pageBase va) = some _ := if_pos ⟨rfl, rfl⟩
        rw [hnew]
        exact Option.some_ne_none _
  obtain ⟨hvmas, hpte, hmapped⟩ := hstate
  have halone : ∀ u, ClosesAlone m.st (.fault v.id va e) u := by
    intro u id w x ho
    cases ho
  obtain ⟨hsound, hext⟩ := kernel_extends hs halone hevent (fun w hw _ => hvmas.symm ▸ hw) hpte
  exact ⟨_, hevent, hsound, hext, hvmas, hmapped⟩

/-- **Mmap.** In either mode, the process has one more VMA. -/
theorem mmap_maps {r : VmRange} {e : MmapEnv} (hs : Sound m) (hu : Unused m.st mm r) (he : e.Succeeds r) (hint : ℕ)
    (old : ℕ → ℕ → α) :
    ∃ v t, m.event (.kernel (.mmap hint mm r e) old) = .ok t ∧ Sound t ∧ Extends mm m t ∧ t.st.vmas = v :: m.st.vmas ∧
      v.mm = mm ∧ v.range = r ∧ v.id = vmaAddr m.st hint := by
  have hmmap : ∃ x u, pagingMmap (zap m.st mm r) (newVma m.st hint mm r) e = .ok (0, attach (newVma m.st hint mm r) x, u) := by
    by_cases hd : m.st.demandPaging = 0
    · have hd' : (zap m.st mm r).demandPaging = 0 := hd
      have he' : e.Succeeds (newVma m.st hint mm r).range := he
      obtain ⟨x, u, hm, -⟩ := pagingMmap_prepaged hd' he'
      exact ⟨x, u, hm⟩
    · obtain ⟨kh, hk⟩ := Option.ne_none_iff_exists'.1 he.1
      exact ⟨_, _, pagingMmap_demand hk hd⟩
  obtain ⟨x, u, hm⟩ := hmmap
  have hfilled := pagingMmap_filled (zap_coherent mm r hs.coherent) hm
  have hvmas : u.vmas = m.st.vmas := hfilled.vmas
  have hstep : step m.st (.mmap hint mm r e) = .ok { u with vmas := attach (newVma m.st hint mm r) x :: u.vmas } := by
    simp only [step, if_pos hu]
    exact map_ok.2 ⟨_, hm, rfl⟩
  have hevent : m.event (.kernel (.mmap hint mm r e) old) = .ok _ := map_ok.2 ⟨_, hstep, rfl⟩
  have halone : ∀ s, ClosesAlone m.st (.mmap hint mm r e) s := by
    intro s id w y ho
    cases ho
  have hkept : ∀ v ∈ m.st.vmas, v.mm = mm → v ∈ attach (newVma m.st hint mm r) x :: u.vmas :=
    fun v hv _ => List.mem_cons_of_mem _ (hvmas.symm ▸ hv)
  have hpte : ∀ a p, m.st.pte mm a = some p → u.pte mm a = some p := by
    intro a p hp
    -- nothing was mapped in the range
    have hout : ¬ (mm = mm ∧ r.start ≤ a ∧ a < r.stop) := by
      rintro ⟨-, h1, h2⟩
      rw [hs.coherent.unmapped hu h1 h2] at hp
      cases hp
    exact (hfilled.kept mm a hout).trans ((if_neg hout).trans hp)
  obtain ⟨hsound, hext⟩ := kernel_extends hs halone hevent hkept hpte
  exact ⟨attach (newVma m.st hint mm r) x, _, hevent, hsound, hext, congrArg _ hvmas, rfl, rfl, rfl⟩

end Cse422.Paging
