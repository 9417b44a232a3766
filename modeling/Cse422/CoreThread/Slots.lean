/-
What `mod_init` leaves in `arr_taskptr`: in the runs in which it finds its own values in `i`, the slots hold the threads
in the order of their creation and errors, and nothing else.

- `stored_run`: this, and the invariant of `Module` (`Owned`), wherever `mod_init` has not lost its way.
-/
import Cse422.CoreThread.Termination

namespace Cse422.CoreThread

open Lts Kthread

def TaskPtr.task? : TaskPtr → Option ℕ
  | .task k => some k
  | .null | .err => none

/-- the threads in the slots -/
def tasks (slots : List TaskPtr) : List ℕ := slots.filterMap TaskPtr.task?

/-- the answer of `kthread_create` that has not been stored -/
def ModPc.unstored : ModPc → List TaskPtr
  | .assign p _ => [p]
  | _ => []

/-- the slots that have been filled, and the answer to come -/
structure Stored (s : Loaded) : Prop where
  tasks : tasks (s.arrTaskptr.take s.stores.length ++ s.modInit.unstored) = List.range s.threads.length
  noNull : TaskPtr.null ∉ s.arrTaskptr.take s.stores.length ++ s.modInit.unstored

section Stored

variable {src : Source} {T iters k : ℕ} {s t : Loaded} {created : Bool}

theorem stored_loaded (T : ℕ) : Stored (loaded T) := ⟨rfl, by simp [loaded, ModPc.unstored]⟩

/-- a step that changes no slot and makes no thread -/
structure Leaves (s t : Loaded) : Prop where
  slots : t.arrTaskptr = s.arrTaskptr
  stores : t.stores = s.stores
  threads : t.threads.length = s.threads.length

theorem Stored.leaves (h : Stored s) (hst : Leaves s t) (hs : s.modInit.unstored = []) (ht : t.modInit.unstored = []) :
    Stored t := by
  obtain ⟨htasks, hnull⟩ := h
  rw [hs] at htasks hnull
  exact ⟨by rw [hst.slots, hst.stores, hst.threads, ht]; exact htasks, by rw [hst.slots, hst.stores, ht]; exact hnull⟩

theorem access_leaves {f : Loaded → ℕ → TaskPtr → Loaded} {P : ModPc → Prop} (x : BitVec 32) (hoops : P .oops)
    (hf : ∀ s k p, Leaves s (f s k p) ∧ P (f s k p).modInit) : Leaves s (access s x f) ∧ P (access s x f).modInit := by
  have hlogged := hf { s with accesses := s.accesses ++ [x.toInt] } x.toInt.toNat
  unfold access
  dsimp only
  split_ifs
  · cases s.arrTaskptr[x.toInt.toNat]? with
    | none => exact ⟨⟨rfl, rfl, rfl⟩, hoops⟩
    | some p => exact ⟨⟨(hlogged p).1.slots, (hlogged p).1.stores, (hlogged p).1.threads⟩, (hlogged p).2⟩
  · exact ⟨⟨rfl, rfl, rfl⟩, hoops⟩

/-- the steps of `mod_init` besides the creation and the store of its answer -/
theorem modInit_leaves (hst : modInit src T s created = some t) (hcreate : s.modInit ≠ .create)
    (hassign : ∀ p slot, s.modInit ≠ .assign p slot) : Leaves s t ∧ t.modInit.unstored = [] := by
  obtain ⟨i, sharedData, arrTaskptr, threads, pc, wrote, accesses, stores, failed⟩ := s
  cases pc with
  | test =>
    dsimp only [modInit] at hst
    split_ifs at hst <;> cases src <;> obtain rfl := Option.some.inj hst <;> exact ⟨⟨rfl, rfl, rfl⟩, rfl⟩
  | create => exact absurd rfl hcreate
  | assign p slot => exact absurd rfl (hassign p slot)
  | isErr =>
    obtain rfl := Option.some.inj hst
    refine access_leaves (P := fun pc => pc.unstored = []) i rfl fun s k p => ?_
    split_ifs
    · exact ⟨⟨rfl, rfl, rfl⟩, rfl⟩
    · cases src <;> exact ⟨⟨rfl, rfl, rfl⟩, rfl⟩
  | wake =>
    obtain rfl := Option.some.inj hst
    refine access_leaves (P := fun pc => pc.unstored = []) i rfl fun s _ p => ?_
    cases p with
    | task k => exact ⟨⟨rfl, rfl, List.length_modify _ _ _⟩, rfl⟩
    | null => exact ⟨⟨rfl, rfl, rfl⟩, rfl⟩
    | err => exact ⟨⟨rfl, rfl, rfl⟩, rfl⟩
  | bindTask =>
    obtain rfl := Option.some.inj hst
    exact access_leaves (P := fun pc => pc.unstored = []) i rfl fun _ _ _ => ⟨⟨rfl, rfl, rfl⟩, rfl⟩
  | bindCpu p => cases p <;> obtain rfl := Option.some.inj hst <;> exact ⟨⟨rfl, rfl, rfl⟩, rfl⟩
  | done => cases hst
  | oops => cases hst
  | _ =>
    obtain rfl := Option.some.inj hst
    exact ⟨⟨rfl, rfl, rfl⟩, rfl⟩

theorem create_stored (h : Stored s) (hpc : s.modInit = .create) (hst : modInit src T s created = some t) : Stored t := by
  obtain ⟨htasks, hnull⟩ := h
  have hnone : s.modInit.unstored = [] := by rw [hpc]; rfl
  rw [hnone, List.append_nil] at htasks hnull
  simp only [modInit, hpc] at hst
  split_ifs at hst
  · obtain rfl := Option.some.inj hst
    refine ⟨?_, by simpa [ModPc.unstored] using hnull⟩
    simp only [ModPc.unstored, tasks, List.filterMap_append, List.length_append, List.length_singleton,
      List.range_succ]
    exact congrArg (· ++ [s.threads.length]) htasks
  · obtain rfl := Option.some.inj hst
    refine ⟨?_, by simpa [ModPc.unstored] using hnull⟩
    simp only [ModPc.unstored, tasks, List.filterMap_append]
    exact (List.append_nil _).trans htasks

/-- the store goes to the first slot that has not been filled -/
theorem assign_stored {p : TaskPtr} {slot : BitVec 32} (h : Stored s) (hown : Owned T s) (hpc : s.modInit = .assign p slot)
    (hst : modInit src T s created = some t) : t.modInit = .oops ∨ Stored t := by
  have hturns := hown.pc
  rw [hpc] at hturns
  obtain ⟨⟨hle, hn⟩, -, hlt, hslot⟩ := hturns
  rw [← hslot] at hn hlt
  obtain ⟨htasks, hnull⟩ := h
  have hone : s.modInit.unstored = [p] := by rw [hpc]; rfl
  rw [hone] at htasks hnull
  simp only [modInit, hpc] at hst
  obtain rfl := Option.some.inj hst
  rcases lt_or_ge slot.toInt 0 with hneg | hlo
  · refine Or.inl ?_
    rw [access, if_neg (not_le.2 hneg)]
  · obtain ⟨k, q, hk, hf⟩ := access_slot hown hlo hlt
    rw [hf]
    have hkn : k = s.stores.length := by omega
    have hlen : k < s.arrTaskptr.length := by
      rw [hown.slots]
      omega
    have htake : (s.arrTaskptr.set k p).take (s.stores ++ [(k : ℤ)]).length = s.arrTaskptr.take s.stores.length ++ [p] := by
      rw [List.length_append, List.length_singleton, ← hkn, List.take_add_one, List.take_set_of_le le_rfl,
        List.getElem?_set_self hlen]
      rfl
    refine Or.inr ⟨?_, ?_⟩
    · dsimp only [ModPc.unstored]
      rw [htake, List.append_nil]
      exact htasks
    · dsimp only [ModPc.unstored]
      rw [htake, List.append_nil]
      exact hnull

theorem step_stored {ev : Ev} (h : Stored s) (hown : Owned T s) (hst : step src T iters s ev = some t) : t.modInit = .oops ∨ Stored t := by
  cases ev with
  | modInit created =>
    have hst : modInit src T s created = some t := hst
    cases hpc : s.modInit with
    | create => exact Or.inr (create_stored h hpc hst)
    | assign p slot => exact assign_stored h hown hpc hst
    | _ =>
      obtain ⟨hleaves, ht⟩ := modInit_leaves hst (by simp [hpc]) (by simp [hpc])
      exact Or.inr (h.leaves hleaves (by rw [hpc]; rfl) ht)
  | thread k =>
    obtain ⟨htasks, hnull⟩ := h
    obtain ⟨a, -, ⟨a', -, -, rfl⟩ | ⟨b, r, -, -, rfl⟩⟩ := thread_eq_some hst
    · exact Or.inr ⟨by simpa using htasks, hnull⟩
    · exact Or.inr ⟨by simpa using htasks, hnull⟩

/-- a module that has lost its way stays there -/
theorem step_oops {ev : Ev} (h : s.modInit = .oops) (hst : step src T iters s ev = some t) : t.modInit = .oops := by
  cases ev with
  | modInit created => simp [step, modInit, h] at hst
  | thread k =>
    obtain ⟨a, -, ⟨a', -, -, rfl⟩ | ⟨b, r, -, -, rfl⟩⟩ := thread_eq_some hst
    · exact h
    · exact h

theorem stored_run {l : List Ev} (hrun : Run (Takes (step src T iters)) (loaded T) l s)
    (hown : Along (Takes (step src T iters)) (fun s ev _ => ModOwn s ev) (loaded T) l) (hpc : s.modInit ≠ .oops) :
    Stored s ∧ Owned T s := by
  have hinv : Owned T s ∧ (s.modInit = .oops ∨ Stored s) := by
    refine Along.inv (I := fun s => Owned T s ∧ (s.modInit = .oops ∨ Stored s)) ?_ hown hrun
      ⟨owned_loaded T, Or.inr (stored_loaded T)⟩
    intro s ev t hs hmod hst
    refine ⟨step_owned hs.1 hmod hst, ?_⟩
    obtain hoops | hstored := hs.2
    · exact Or.inl (step_oops hoops hst)
    · exact step_stored hstored hs.1 hst
  exact ⟨hinv.2.resolve_left hpc, hinv.1⟩

end Stored

end Cse422.CoreThread
