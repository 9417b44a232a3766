/-
The modules `core_thread.c` and `core_thread_atomic.c` of studio 8. `mod_init` creates and wakes a thread for each slot
of `arr_taskptr`, and each thread runs `boring_func`, which counts. The loop of `mod_init` and the loops of the threads
all have the one static variable `i` as their counter.

A step of the model is one access to `i`, to `shared_data` or to `arr_taskptr`. In
`arr_taskptr[i] = kthread_create(.., i)` the index is read before the call, together with the `i` of the name, as the
compiled modules of the repository do; every other access to a slot reads `i` anew. What follows an access outside of
`arr_taskptr`, or a pointer that is no thread, is not modelled.

Premises about the kernel and its compiler:
- it is built with `-fno-strict-overflow`, so the counters are words; steps interleave sequentially consistently;
- `kthread_create` answers with a thread of its own, or fails; the thread does not run before it has been woken;
- `wake_up_process` and `kthread_bind` dereference their argument, which must be a thread.

- `thread_eq_some`: what a step of a thread does;
- `owned_run`: an invariant of `mod_init` for the runs in which it finds its own values in `i`.
-/
import Cse422.Core.Kthread
import Cse422.Core.Interleave

namespace Cse422.CoreThread

open Lts Kthread

inductive Source where
  | coreThread | coreThreadAtomic
  deriving DecidableEq, Repr

/-! ## The thread function -/

inductive BoringPc where
  /-- `i = 0` -/
  | init
  /-- `i < iters` -/
  | test
  /-- `atomic_add(1, &shared_data)`, or the read of `shared_data++` -/
  | add
  /-- the write of `shared_data++` -/
  | store (x : BitVec 32)
  /-- the read and the write of `i++` -/
  | readI
  | writeI (x : BitVec 32)
  /-- in the loop that waits for `kthread_should_stop` -/
  | left
  deriving DecidableEq, Repr

structure Boring where
  pc : BoringPc
  /-- what this thread has written to `i` last -/
  wrote : BitVec 32
  deriving DecidableEq, Repr

/-- one access of `boring_func`: the new values of `i` and `shared_data`, and where the thread is then -/
def boringFunc (src : Source) (iters : ℕ) (i sharedData : BitVec 32) (b : Boring) :
    Option (BitVec 32 × BitVec 32 × Boring) :=
  match b.pc with
  | .init => some (0, sharedData, ⟨.test, 0⟩)
  | .test => some (i, sharedData, { b with pc := if i.toInt < iters then .add else .left })
  | .add =>
    match src with
    | .coreThread => some (i, sharedData, { b with pc := .store sharedData })
    | .coreThreadAtomic => some (i, sharedData + 1, { b with pc := .readI })
  | .store x => some (i, x + 1, { b with pc := .readI })
  | .readI => some (i, sharedData, { b with pc := .writeI i })
  | .writeI x => some (x + 1, sharedData, ⟨.test, x + 1⟩)
  | .left => none

abbrev Thread := TaskStruct Boring

/-! ## The module -/

/-- a `struct task_struct *` -/
inductive TaskPtr where
  | null
  /-- `ERR_PTR(...)` -/
  | err
  | task (k : ℕ)
  deriving DecidableEq, Repr

inductive ModPc where
  /-- `i = 0` -/
  | init
  /-- `i < 4` -/
  | test
  /-- the message with `i` at the start of a turn -/
  | announce
  /-- `kthread_create`, with `i` in the name; the slot for its answer is `arr_taskptr[i]` of this moment -/
  | create
  /-- the store of the answer into that slot -/
  | assign (p : TaskPtr) (slot : BitVec 32)
  /-- `IS_ERR(arr_taskptr[i])` -/
  | isErr
  /-- `wake_up_process(arr_taskptr[i])` -/
  | wake
  /-- the message about the binding -/
  | binding
  /-- `kthread_bind(arr_taskptr[i], i)`, its arguments one after the other -/
  | bindTask
  | bindCpu (p : TaskPtr)
  /-- the message about a failure -/
  | couldNot
  /-- the read and the write of `++i` -/
  | readI
  | writeI (x : BitVec 32)
  /-- `atomic_set(&shared_data, 0)` -/
  | atomicSet
  | done
  | oops
  deriving DecidableEq, Repr

structure Loaded where
  i : BitVec 32
  sharedData : BitVec 32
  arrTaskptr : List TaskPtr
  threads : List Thread
  modInit : ModPc
  /-- what `mod_init` has written to `i` last -/
  wrote : BitVec 32
  /-- the indices of the accesses of `mod_init` to `arr_taskptr`, and of the stores among them -/
  accesses : List ℤ
  stores : List ℤ
  /-- how often `kthread_create` has failed -/
  failed : ℕ
  deriving DecidableEq, Repr

/-- the module before `mod_init`, with `T` slots -/
def loaded (T : ℕ) : Loaded := ⟨0, 0, List.replicate T .null, [], .init, 0, [], [], 0⟩

/-- `mod_init` accesses `arr_taskptr[x]`; `f` gets the index and what is there -/
def access (s : Loaded) (x : BitVec 32) (f : Loaded → ℕ → TaskPtr → Loaded) : Loaded :=
  let s := { s with accesses := s.accesses ++ [x.toInt] }
  if 0 ≤ x.toInt then
    match s.arrTaskptr[x.toInt.toNat]? with
    | some p => f s x.toInt.toNat p
    | none => { s with modInit := .oops }
  else { s with modInit := .oops }

/-- `wake_up_process` -/
def wakeUpProcess (s : Loaded) (p : TaskPtr) : Loaded :=
  match p with
  | .task k => { s with threads := s.threads.modify k TaskStruct.wakeUp, modInit := .binding }
  | _ => { s with modInit := .oops }

/-- one access of `mod_init`; `created` is the answer of `kthread_create` -/
def modInit (src : Source) (T : ℕ) (s : Loaded) (created : Bool) : Option Loaded :=
  match s.modInit with
  | .init => some { s with i := 0, wrote := 0, modInit := .test }
  | .test =>
    if s.i.toInt < T then
      match src with
      | .coreThread => some { s with modInit := .create }
      | .coreThreadAtomic => some { s with modInit := .announce }
    else
      match src with
      | .coreThread => some { s with modInit := .done }
      | .coreThreadAtomic => some { s with modInit := .atomicSet }
  | .announce => some { s with modInit := .create }
  | .create =>
    if created then
      some { s with threads := s.threads ++ [kthreadCreate], modInit := .assign (.task s.threads.length) s.i }
    else some { s with failed := s.failed + 1, modInit := .assign .err s.i }
  | .assign p slot =>
    some (access s slot fun s k _ =>
      { s with arrTaskptr := s.arrTaskptr.set k p, stores := s.stores ++ [(k : ℤ)], modInit := .isErr })
  | .isErr =>
    some (access s s.i fun s _ p =>
      if p ≠ .err then { s with modInit := .wake }
      else
        match src with
        | .coreThread => { s with modInit := .readI }
        | .coreThreadAtomic => { s with modInit := .couldNot })
  | .wake => some (access s s.i fun s _ p => wakeUpProcess s p)
  | .binding => some { s with modInit := .bindTask }
  | .bindTask => some (access s s.i fun s _ p => { s with modInit := .bindCpu p })
  | .bindCpu p =>
    match p with
    | .task _ => some { s with modInit := .readI }
    | _ => some { s with modInit := .oops }
  | .couldNot => some { s with modInit := .readI }
  | .readI => some { s with modInit := .writeI s.i }
  | .writeI x => some { s with i := x + 1, wrote := x + 1, modInit := .test }
  | .atomicSet => some { s with sharedData := 0, modInit := .done }
  | .done | .oops => none

/-- one step of thread `k` -/
def thread (src : Source) (iters : ℕ) (s : Loaded) (k : ℕ) : Option Loaded :=
  match s.threads[k]? with
  | none => none
  | some a =>
    match a.place with
    | .entry => (a.enter ⟨.init, 0⟩).map fun a => { s with threads := s.threads.set k a }
    | .fn b =>
      (boringFunc src iters s.i s.sharedData b).map fun r =>
        { s with i := r.1, sharedData := r.2.1, threads := s.threads.set k { a with place := .fn r.2.2 } }
    | .inSchedule _ | .exited => none

inductive Ev where
  | modInit (created : Bool)
  | thread (k : ℕ)
  deriving DecidableEq, Repr

def step (src : Source) (T iters : ℕ) (s : Loaded) : Ev → Option Loaded
  | .modInit created => modInit src T s created
  | .thread k => thread src iters s k

section Step

variable {src : Source} {iters k : ℕ} {s t : Loaded}

theorem thread_entry {a : Thread} (hk : s.threads[k]? = some a) (ha : a.place = .entry) :
    thread src iters s k = (a.enter ⟨.init, 0⟩).map fun a => { s with threads := s.threads.set k a } := by
  simp only [thread, hk, ha]

theorem thread_fn {a : Thread} {b : Boring} (hk : s.threads[k]? = some a) (ha : a.place = .fn b) :
    thread src iters s k = (boringFunc src iters s.i s.sharedData b).map fun r =>
      { s with i := r.1, sharedData := r.2.1, threads := s.threads.set k { a with place := .fn r.2.2 } } := by
  simp only [thread, hk, ha]

/-- a thread enters its function or takes a step of it -/
theorem thread_eq_some (h : thread src iters s k = some t) : ∃ a, s.threads[k]? = some a ∧
    ((∃ a', a.place = .entry ∧ a.enter ⟨.init, 0⟩ = some a' ∧ t = { s with threads := s.threads.set k a' }) ∨
      ∃ b r, a.place = .fn b ∧ boringFunc src iters s.i s.sharedData b = some r ∧
        t = { s with i := r.1, sharedData := r.2.1, threads := s.threads.set k { a with place := .fn r.2.2 } }) := by
  cases hk : s.threads[k]? with
  | none => simp only [thread, hk, reduceCtorEq] at h
  | some a =>
    refine ⟨a, rfl, ?_⟩
    cases ha : a.place with
    | entry =>
      rw [thread_entry hk ha] at h
      obtain ⟨a', henter, rfl⟩ := Option.map_eq_some_iff.1 h
      exact Or.inl ⟨a', rfl, henter, rfl⟩
    | fn b =>
      rw [thread_fn hk ha] at h
      obtain ⟨r, hr, rfl⟩ := Option.map_eq_some_iff.1 h
      exact Or.inr ⟨b, r, rfl, hr, rfl⟩
    | inSchedule b => simp only [thread, hk, ha, reduceCtorEq] at h
    | exited => simp only [thread, hk, ha, reduceCtorEq] at h

end Step

/-! ## The runs in which `mod_init` finds its own values -/

/-- the steps of `mod_init` that do more with the value of `i` than print it -/
def ModPc.usesI : ModPc → Bool
  | .test | .create | .isErr | .wake | .bindTask | .readI => true
  | _ => false

/-- when `mod_init` uses `i`, it finds the value that it has written there last -/
def ModOwn (s : Loaded) : Ev → Prop
  | .modInit _ => s.modInit.usesI → s.i = s.wrote
  | .thread _ => True

instance (s : Loaded) : ∀ ev, Decidable (ModOwn s ev)
  | .modInit _ => inferInstanceAs (Decidable (s.modInit.usesI → s.i = s.wrote))
  | .thread _ => isTrue trivial

section Owned

variable {src : Source} {T iters k : ℕ} {s t : Loaded} {created : Bool}

/-- `n` turns have been made; with more slots than a word can count, `i` gets negative after the last word -/
def Turns (T n : ℕ) (w : BitVec 32) : Prop := n ≤ T ∧ ((n : ℤ) = w.toInt ∨ (2 ^ 31 ≤ T ∧ w.toInt < 0))

/-- turn `n` has filled its slot, and `created` is the number of calls of `kthread_create` -/
def Filled (T n created : ℕ) (w : BitVec 32) : Prop := (n : ℤ) = w.toInt + 1 ∧ 0 ≤ w.toInt ∧ n ≤ T ∧ created = n

def PcOk (T n created : ℕ) (w : BitVec 32) : ModPc → Prop
  | .init => n = 0 ∧ created = 0
  | .test => Turns T n w ∧ created = n
  | .announce | .create => Turns T n w ∧ created = n ∧ w.toInt < T
  | .assign _ slot => Turns T n w ∧ created = n + 1 ∧ w.toInt < T ∧ slot = w
  | .isErr | .wake | .binding | .bindTask | .bindCpu _ | .couldNot | .readI => Filled T n created w
  | .writeI x => Filled T n created w ∧ x = w
  | .atomicSet | .done => n = T ∧ created = T
  | .oops => True

structure Owned (T : ℕ) (s : Loaded) : Prop where
  slots : s.arrTaskptr.length = T
  stores : s.stores = (List.range s.stores.length).map (↑)
  accesses : T < 2 ^ 31 → ∀ x ∈ s.accesses, 0 ≤ x ∧ x < (T : ℤ)
  pc : PcOk T s.stores.length (s.threads.length + s.failed) s.wrote s.modInit

theorem owned_loaded (T : ℕ) : Owned T (loaded T) :=
  ⟨List.length_replicate, rfl, fun _ _ hx => absurd hx List.not_mem_nil, rfl, rfl⟩

theorem Owned.goto (h : Owned T s) (pc : ModPc)
    (hpc : PcOk T s.stores.length (s.threads.length + s.failed) s.wrote pc) : Owned T { s with modInit := pc } :=
  ⟨h.slots, h.stores, h.accesses, hpc⟩

theorem Owned.logged (h : Owned T s) {x : ℤ} (hx : T < 2 ^ 31 → 0 ≤ x ∧ x < T) :
    Owned T { s with accesses := s.accesses ++ [x] } := by
  refine ⟨h.slots, h.stores, ?_, h.pc⟩
  intro hT y hy
  rcases List.mem_append.1 hy with hy | hy
  · exact h.accesses hT y hy
  · obtain rfl := List.mem_singleton.1 hy
    exact hx hT

/-- an access to a slot -/
theorem access_slot {x : BitVec 32} (h : Owned T s) (hlo : 0 ≤ x.toInt) (hhi : x.toInt < T) :
    ∃ (k : ℕ) (p : TaskPtr), (k : ℤ) = x.toInt ∧
      ∀ f, access s x f = f { s with accesses := s.accesses ++ [x.toInt] } k p := by
  have hlt : x.toInt.toNat < s.arrTaskptr.length := by
    rw [h.slots]
    omega
  refine ⟨x.toInt.toNat, s.arrTaskptr[x.toInt.toNat], Int.toNat_of_nonneg hlo, fun f => ?_⟩
  unfold access
  simp only [if_pos hlo, List.getElem?_eq_getElem hlt]

theorem toInt_succ_le (x : BitVec 32) : (x + 1).toInt ≤ x.toInt + 1 := by
  have hlo := BitVec.le_two_mul_toInt (x := x)
  rw [BitVec.toInt_add]
  have hone : (1 : BitVec 32).toInt = 1 := rfl
  rw [hone, Int.bmod_def]
  split_ifs <;> omega

/-- `i++` counts on or starts from the smallest word -/
theorem toInt_succ (x : BitVec 32) : (x + 1).toInt = x.toInt + 1 ∨ (x.toInt = 2 ^ 31 - 1 ∧ (x + 1).toInt < 0) := by
  have hlo := BitVec.le_two_mul_toInt (x := x)
  have hhi := BitVec.two_mul_toInt_lt (x := x)
  rw [BitVec.toInt_add]
  have hone : (1 : BitVec 32).toInt = 1 := rfl
  rw [hone, Int.bmod_def]
  split_ifs <;> omega

/-- the end of a turn -/
theorem turns_succ {n c : ℕ} {w : BitVec 32} (h : Filled T n c w) : Turns T n (w + 1) ∧ c = n := by
  obtain ⟨hn, hlo, hle, hc⟩ := h
  refine ⟨⟨hle, ?_⟩, hc⟩
  rcases toInt_succ w with hw | ⟨hw, hneg⟩
  · exact Or.inl (by omega)
  · exact Or.inr ⟨by omega, hneg⟩

/-- the test that ends the loop -/
theorem turns_end {n : ℕ} {w : BitVec 32} (h : Turns T n w) (hw : ¬ w.toInt < T) : n = T := by
  obtain ⟨hle, hn | ⟨-, hneg⟩⟩ := h <;> omega

theorem test_owned (h : Owned T s) (hpc : s.modInit = .test) (hi : s.i = s.wrote)
    (hst : modInit src T s created = some t) : Owned T t := by
  have hturns := h.pc
  rw [hpc] at hturns
  simp only [modInit, hpc] at hst
  rw [← hi] at hturns
  split_ifs at hst with hlt <;> cases src <;> obtain rfl := Option.some.inj hst
  · exact h.goto .create (hi ▸ ⟨hturns.1, hturns.2, hlt⟩)
  · exact h.goto .announce (hi ▸ ⟨hturns.1, hturns.2, hlt⟩)
  · have hend := turns_end hturns.1 hlt
    exact h.goto .done ⟨hend, hturns.2.trans hend⟩
  · have hend := turns_end hturns.1 hlt
    exact h.goto .atomicSet ⟨hend, hturns.2.trans hend⟩

/-- the index of the store is the one of the turn, whatever has become of `i` since it was read -/
theorem assign_owned {p : TaskPtr} {slot : BitVec 32} (h : Owned T s) (hpc : s.modInit = .assign p slot)
    (hst : modInit src T s created = some t) : Owned T t := by
  have hturns := h.pc
  rw [hpc] at hturns
  obtain ⟨⟨hle, hn⟩, hc, hhi, hslot⟩ := hturns
  rw [← hslot] at hn hhi
  simp only [modInit, hpc] at hst
  obtain rfl := Option.some.inj hst
  rcases lt_or_ge slot.toInt 0 with hneg | hlo
  · rw [access, if_neg (not_le.2 hneg)]
    have hlarge : 2 ^ 31 ≤ T := (hn.resolve_left (by omega)).1
    exact (h.logged fun hT => absurd hT (not_lt.2 hlarge)).goto .oops trivial
  · obtain ⟨k, q, hk, hf⟩ := access_slot h hlo hhi
    rw [hf]
    have hkn : k = s.stores.length := by omega
    refine ⟨List.length_set.trans h.slots, ?_, ?_, ?_⟩
    · dsimp only
      rw [List.length_append, List.length_singleton, List.range_succ, List.map_append, ← h.stores, hkn]
      rfl
    · exact (h.logged fun _ => ⟨hlo, hhi⟩).accesses
    · dsimp only [PcOk, Filled]
      rw [List.length_append, List.length_singleton, ← hslot]
      omega

/-- the accesses after the store -/
theorem later_owned (h : Owned T s) (hi : s.i = s.wrote)
    (hfilled : Filled T s.stores.length (s.threads.length + s.failed) s.wrote) (f : Loaded → ℕ → TaskPtr → Loaded)
    (hf : ∀ s, Owned T s → Filled T s.stores.length (s.threads.length + s.failed) s.wrote → ∀ k p, Owned T (f s k p)) :
    Owned T (access s s.i f) := by
  obtain ⟨hn, hlo, hle, hc⟩ := hfilled
  have hhi : s.wrote.toInt < T := by omega
  obtain ⟨k, p, -, heq⟩ := access_slot h (hi ▸ hlo) (hi ▸ hhi)
  rw [heq]
  exact hf _ (h.logged fun _ => by rw [hi]; exact ⟨hlo, hhi⟩) ⟨hn, hlo, hle, hc⟩ k p

theorem wakeUpProcess_owned (h : Owned T s) (hfilled : Filled T s.stores.length (s.threads.length + s.failed) s.wrote)
    (p : TaskPtr) : Owned T (wakeUpProcess s p) := by
  cases p with
  | task k =>
    refine ⟨h.slots, h.stores, h.accesses, ?_⟩
    dsimp only [wakeUpProcess, PcOk]
    rw [List.length_modify]
    exact hfilled
  | null => exact h.goto .oops trivial
  | err => exact h.goto .oops trivial

/-- a step of `mod_init` -/
theorem modInit_owned (h : Owned T s) (hown : s.modInit.usesI → s.i = s.wrote)
    (hst : modInit src T s created = some t) : Owned T t := by
  obtain ⟨i, sharedData, arrTaskptr, threads, pc, wrote, accesses, stores, failed⟩ := s
  have hpc := h.pc
  cases pc with
  | init =>
    obtain rfl := Option.some.inj hst
    obtain ⟨hn, hc⟩ := hpc
    refine ⟨h.slots, h.stores, h.accesses, ⟨hn.trans_le (Nat.zero_le T), Or.inl ?_⟩, hc.trans hn.symm⟩
    exact congrArg Nat.cast hn
  | test => exact test_owned h rfl (hown rfl) hst
  | announce =>
    obtain rfl := Option.some.inj hst
    exact h.goto .create hpc
  | create =>
    obtain ⟨hturns, hc, hlt⟩ := hpc
    dsimp only [modInit] at hst
    split_ifs at hst
    · obtain rfl := Option.some.inj hst
      refine ⟨h.slots, h.stores, h.accesses, hturns, ?_, hlt, hown rfl⟩
      dsimp only at hc ⊢
      rw [List.length_append, List.length_singleton]
      omega
    · obtain rfl := Option.some.inj hst
      refine ⟨h.slots, h.stores, h.accesses, hturns, ?_, hlt, hown rfl⟩
      dsimp only at hc ⊢
      omega
  | assign p slot => exact assign_owned h rfl hst
  | isErr =>
    obtain rfl := Option.some.inj hst
    refine later_owned h (hown rfl) hpc _ ?_
    intro s h hfilled k p
    split_ifs
    · exact h.goto .wake hfilled
    · cases src with
      | coreThread => exact h.goto .readI hfilled
      | coreThreadAtomic => exact h.goto .couldNot hfilled
  | wake =>
    obtain rfl := Option.some.inj hst
    exact later_owned h (hown rfl) hpc _ fun s h hfilled _ p => wakeUpProcess_owned h hfilled p
  | binding =>
    obtain rfl := Option.some.inj hst
    exact h.goto .bindTask hpc
  | bindTask =>
    obtain rfl := Option.some.inj hst
    exact later_owned h (hown rfl) hpc _ fun s h hfilled _ p => h.goto (.bindCpu p) hfilled
  | bindCpu p =>
    cases p with
    | task k =>
      obtain rfl := Option.some.inj hst
      exact h.goto .readI hpc
    | null =>
      obtain rfl := Option.some.inj hst
      exact h.goto .oops trivial
    | err =>
      obtain rfl := Option.some.inj hst
      exact h.goto .oops trivial
  | couldNot =>
    obtain rfl := Option.some.inj hst
    exact h.goto .readI hpc
  | readI =>
    obtain rfl := Option.some.inj hst
    exact h.goto (.writeI i) ⟨hpc, hown rfl⟩
  | writeI x =>
    obtain rfl := Option.some.inj hst
    obtain ⟨hfilled, rfl⟩ := hpc
    exact ⟨h.slots, h.stores, h.accesses, turns_succ hfilled⟩
  | atomicSet =>
    obtain rfl := Option.some.inj hst
    exact ⟨h.slots, h.stores, h.accesses, hpc⟩
  | done => cases hst
  | oops => cases hst

theorem thread_owned (h : Owned T s) (hst : thread src iters s k = some t) : Owned T t := by
  have keeps : ∀ i d a, Owned T { s with i := i, sharedData := d, threads := s.threads.set k a } := by
    intro i d a
    refine ⟨h.slots, h.stores, h.accesses, ?_⟩
    dsimp only
    rw [List.length_set]
    exact h.pc
  obtain ⟨a, -, ⟨a', -, -, rfl⟩ | ⟨b, r, -, -, rfl⟩⟩ := thread_eq_some hst
  · exact keeps s.i s.sharedData a'
  · exact keeps _ _ _

theorem step_owned {ev : Ev} (h : Owned T s) (hown : ModOwn s ev) (hst : step src T iters s ev = some t) :
    Owned T t := by
  cases ev with
  | modInit created => exact modInit_owned h hown hst
  | thread k => exact thread_owned h hst

/-- **`mod_init` alone with `i`.** -/
theorem owned_run {l : List Ev} (hrun : Run (Takes (step src T iters)) (loaded T) l s)
    (hown : Along (Takes (step src T iters)) (fun s ev _ => ModOwn s ev) (loaded T) l) : Owned T s := by
  refine Along.inv (I := Owned T) ?_ hown hrun (owned_loaded T)
  exact fun s ev t h hc hst => step_owned h hc hst

end Owned

end Cse422.CoreThread
