/-
What the threads of `core_thread_atomic.c` count. `atomic_add` loses nothing, but two other things do. The threads share
their loop variable, so a turn of one can be made for another, or undone. `mod_init` sets the counter to zero after it has
woken the threads.

- `none_lost`: in the runs in which everybody finds his own value whenever he uses `i`, and `atomic_set` finds a zero,
  the counter ends at the number of threads times `iters`;
- `runs_alone`: what a thread does while nobody else runs;
- `set_late`: four threads that count one after the other, and an `atomic_set` that comes last.
-/
import Mathlib.Data.BitVec
import Cse422.CoreThread.Module

namespace Cse422.CoreThread

open Lts Kthread

/-! ## The property -/

/-- the thread waits to be stopped -/
def Left (a : Thread) : Prop := ∃ b, a.place = .fn b ∧ b.pc = .left

/-- at the end `shared_data`, a word, is the number of threads times `iters`; `T` threads unless one could not be created -/
def NoneLost (T iters : ℕ) (s : Loaded) : Prop :=
  s.modInit = .done → (∀ a ∈ s.threads, Left a) →
    s.threads.length + s.failed = T ∧ s.sharedData = BitVec.ofNat 32 (s.threads.length * iters)

def BoringPc.usesI : BoringPc → Bool
  | .test | .readI => true
  | _ => false

/-- when a thread uses `i`, it finds the value that it has written there last -/
def ThreadOwn (s : Loaded) : Ev → Prop
  | .modInit _ => True
  | .thread k => ∀ b ∈ (s.threads[k]?).bind fun a => a.place.pc?, b.pc.usesI → s.i = b.wrote

instance (s : Loaded) : ∀ ev, Decidable (ThreadOwn s ev)
  | .modInit _ => isTrue trivial
  | .thread k => inferInstanceAs (Decidable (∀ b ∈ (s.threads[k]?).bind fun a => a.place.pc?, b.pc.usesI → s.i = b.wrote))

/-- `atomic_set` finds the zero that it writes -/
def SetFirst (s : Loaded) : Ev → Prop
  | .modInit _ => s.modInit = .atomicSet → s.sharedData = 0
  | .thread _ => True

instance (s : Loaded) : ∀ ev, Decidable (SetFirst s ev)
  | .modInit _ => inferInstanceAs (Decidable (s.modInit = .atomicSet → s.sharedData = 0))
  | .thread _ => isTrue trivial

structure Apart (s : Loaded) (ev : Ev) : Prop where
  modOwn : ModOwn s ev
  threadOwn : ThreadOwn s ev
  setFirst : SetFirst s ev

instance (s : Loaded) (ev : Ev) : Decidable (Apart s ev) :=
  decidable_of_iff (ModOwn s ev ∧ ThreadOwn s ev ∧ SetFirst s ev)
    ⟨fun h => ⟨h.1, h.2.1, h.2.2⟩, fun h => ⟨h.modOwn, h.threadOwn, h.setFirst⟩⟩

/-! ## The sum of what the threads have added -/

/-- what a thread at this place has added to `shared_data` -/
def Boring.added (iters : ℕ) (b : Boring) : BitVec 32 :=
  match b.pc with
  | .init => 0
  | .test | .add | .store _ => b.wrote
  | .readI | .writeI _ => b.wrote + 1
  | .left => BitVec.ofNat 32 iters

def added (iters : ℕ) (a : Thread) : BitVec 32 :=
  match a.place with
  | .fn b => b.added iters
  | _ => 0

/-- the store belongs to `shared_data++`, which the atomic module does not have -/
def Boring.Ok (iters : ℕ) (b : Boring) : Prop :=
  match b.pc with
  | .init | .left => True
  | .test => b.wrote.toInt ≤ iters
  | .add | .readI => b.wrote.toInt < iters
  | .writeI x => x = b.wrote ∧ b.wrote.toInt < iters
  | .store _ => False

structure Counted (iters : ℕ) (s : Loaded) : Prop where
  ok : ∀ a ∈ s.threads, ∀ b, a.place = .fn b → b.Ok iters
  sum : s.sharedData = (s.threads.map (added iters)).sum

section Counted

variable {T iters k : ℕ} {s t : Loaded} {created : Bool}

/-- a loop that ends has made `iters` turns -/
theorem eq_iters {w : BitVec 32} (hle : w.toInt ≤ iters) (hnot : ¬ w.toInt < iters) : w = BitVec.ofNat 32 iters := by
  have heq : w.toInt = iters := by omega
  calc w = BitVec.ofInt 32 w.toInt := (BitVec.ofInt_toInt).symm
    _ = BitVec.ofNat 32 iters := by rw [heq, BitVec.ofInt_natCast]

/-- one access of a thread -/
theorem boringFunc_added {i d : BitVec 32} {b : Boring} {r : BitVec 32 × BitVec 32 × Boring} (hok : b.Ok iters)
    (hown : b.pc.usesI → i = b.wrote) (hr : boringFunc .coreThreadAtomic iters i d b = some r) :
    r.2.2.Ok iters ∧ r.2.1 + b.added iters = d + r.2.2.added iters := by
  obtain ⟨pc, w⟩ := b
  cases pc with
  | init =>
    obtain rfl := Option.some.inj hr
    exact ⟨Int.natCast_nonneg iters, rfl⟩
  | test =>
    obtain rfl : i = w := hown rfl
    obtain rfl := Option.some.inj hr
    dsimp only
    split_ifs with hlt
    · exact ⟨hlt, rfl⟩
    · exact ⟨trivial, congrArg (d + ·) (eq_iters hok hlt)⟩
  | add =>
    obtain rfl := Option.some.inj hr
    refine ⟨hok, ?_⟩
    show d + 1 + w = d + (w + 1)
    ring
  | store x => exact hok.elim
  | readI =>
    obtain rfl := Option.some.inj hr
    exact ⟨⟨hown rfl, hok⟩, rfl⟩
  | writeI x =>
    obtain ⟨rfl, hlt⟩ := hok
    obtain rfl := Option.some.inj hr
    exact ⟨(toInt_succ_le x).trans hlt, rfl⟩
  | left => cases hr

theorem thread_counted (h : Counted iters s) (hown : ThreadOwn s (.thread k))
    (hst : thread .coreThreadAtomic iters s k = some t) : Counted iters t := by
  obtain ⟨a, hk, ⟨a', ha, henter, rfl⟩ | ⟨b, r, ha, hr, rfl⟩⟩ := thread_eq_some hst
  · have hplace : a'.place = .exited ∨ a'.place = .fn ⟨.init, 0⟩ := by
      obtain ⟨-, rfl⟩ := enter_eq_some henter
      dsimp only
      split_ifs
      · exact Or.inl rfl
      · exact Or.inr rfl
    have hadded : added iters a' = added iters a := by
      rcases hplace with hplace | hplace <;> simp only [added, hplace, ha, Boring.added]
    constructor
    · refine forall_mem_set h.ok ?_
      intro b hb
      rcases hplace with hplace | hplace
      · rw [hplace] at hb
        cases hb
      · rw [hplace] at hb
        cases hb
        trivial
    · have hsum := sum_map_set (b := a') (added iters) hk
      rw [hadded] at hsum
      exact h.sum.trans (add_right_cancel hsum).symm
  · have hb : b.pc.usesI → s.i = b.wrote := by
      apply hown b
      rw [hk, Option.bind_some, ha]
      rfl
    obtain ⟨hok, hadded⟩ := boringFunc_added (h.ok a (List.mem_of_getElem? hk) b ha) hb hr
    constructor
    · refine forall_mem_set h.ok ?_
      intro c hc
      cases hc
      exact hok
    · have hsum := sum_map_set (b := { a with place := .fn r.2.2 }) (added iters) hk
      have hold : added iters a = b.added iters := by simp only [added, ha]
      apply add_right_cancel (b := b.added iters)
      dsimp only
      rw [hadded, ← hold, hsum, h.sum]
      rfl

/-- what `mod_init` does to the threads -/
inductive ThreadsStep (ts : List Thread) : List Thread → Prop
  | same : ThreadsStep ts ts
  | create : ThreadsStep ts (ts ++ [kthreadCreate])
  | wake (k : ℕ) : ThreadsStep ts (ts.modify k TaskStruct.wakeUp)

/-- what all steps of `mod_init` but `atomic_set` leave of the threads and of `shared_data` -/
structure Quiet (s t : Loaded) : Prop where
  threads : ThreadsStep s.threads t.threads
  sharedData : t.sharedData = s.sharedData

theorem access_quiet {f : Loaded → ℕ → TaskPtr → Loaded} (x : BitVec 32) (hf : ∀ s k p, Quiet s (f s k p)) :
    Quiet s (access s x f) := by
  have hlogged := hf { s with accesses := s.accesses ++ [x.toInt] } x.toInt.toNat
  unfold access
  dsimp only
  split_ifs
  · cases s.arrTaskptr[x.toInt.toNat]? with
    | none => exact ⟨.same, rfl⟩
    | some p => exact ⟨(hlogged p).threads, (hlogged p).sharedData⟩
  · exact ⟨.same, rfl⟩

theorem modInit_quiet {src : Source} (hst : modInit src T s created = some t) :
    Quiet s t ∨ (s.modInit = .atomicSet ∧ t.threads = s.threads ∧ t.sharedData = 0) := by
  obtain ⟨i, sharedData, arrTaskptr, threads, pc, wrote, accesses, stores, failed⟩ := s
  cases pc with
  | test =>
    dsimp only [modInit] at hst
    split_ifs at hst <;> cases src <;> obtain rfl := Option.some.inj hst <;> exact Or.inl ⟨.same, rfl⟩
  | create =>
    dsimp only [modInit] at hst
    split_ifs at hst <;> obtain rfl := Option.some.inj hst
    · exact Or.inl ⟨.create, rfl⟩
    · exact Or.inl ⟨.same, rfl⟩
  | assign p slot =>
    obtain rfl := Option.some.inj hst
    exact Or.inl (access_quiet slot fun _ _ _ => ⟨.same, rfl⟩)
  | isErr =>
    obtain rfl := Option.some.inj hst
    refine Or.inl (access_quiet i fun s k p => ?_)
    split_ifs
    · exact ⟨.same, rfl⟩
    · cases src <;> exact ⟨.same, rfl⟩
  | wake =>
    obtain rfl := Option.some.inj hst
    refine Or.inl (access_quiet i fun s _ p => ?_)
    cases p with
    | task k => exact ⟨.wake k, rfl⟩
    | null => exact ⟨.same, rfl⟩
    | err => exact ⟨.same, rfl⟩
  | bindTask =>
    obtain rfl := Option.some.inj hst
    exact Or.inl (access_quiet i fun _ _ _ => ⟨.same, rfl⟩)
  | bindCpu p => cases p <;> obtain rfl := Option.some.inj hst <;> exact Or.inl ⟨.same, rfl⟩
  | atomicSet =>
    obtain rfl := Option.some.inj hst
    exact Or.inr ⟨rfl, rfl, rfl⟩
  | done => cases hst
  | oops => cases hst
  | _ =>
    obtain rfl := Option.some.inj hst
    exact Or.inl ⟨.same, rfl⟩

/-- a new thread has not added anything, and a wake-up does not move one -/
theorem threadsStep_added (iters : ℕ) {ts us : List Thread} (h : ThreadsStep ts us) :
    (us.map (added iters)).sum = (ts.map (added iters)).sum ∧
      ∀ a ∈ us, ∀ b, a.place = .fn b → ∃ c ∈ ts, c.place = .fn b := by
  cases h with
  | same => exact ⟨rfl, fun a ha b hb => ⟨a, ha, hb⟩⟩
  | create =>
    constructor
    · rw [List.map_append, List.sum_append, List.map_singleton, List.sum_singleton]
      exact add_zero _
    · intro a ha b hb
      rcases List.mem_append.1 ha with ha | ha
      · exact ⟨a, ha, hb⟩
      · obtain rfl := List.mem_singleton.1 ha
        cases hb
  | wake k =>
    cases hk : ts[k]? with
    | none =>
      rw [List.modify_eq_self (List.getElem?_eq_none_iff.1 hk)]
      exact ⟨rfl, fun a ha b hb => ⟨a, ha, hb⟩⟩
    | some c =>
      rw [List.modify_eq_set_getElem?, hk]
      constructor
      · have hsum := sum_map_set (b := c.wakeUp) (added iters) hk
        have hadded : added iters c.wakeUp = added iters c := rfl
        rw [hadded] at hsum
        exact add_right_cancel hsum
      · refine forall_mem_set (fun a ha b hb => ⟨a, ha, hb⟩) ?_
        exact fun b hb => ⟨c, List.mem_of_getElem? hk, hb⟩

theorem modInit_counted {src : Source} (h : Counted iters s) (hset : s.modInit = .atomicSet → s.sharedData = 0)
    (hst : modInit src T s created = some t) : Counted iters t := by
  rcases modInit_quiet hst with ⟨hthreads, hdata⟩ | ⟨hpc, hthreads, hdata⟩
  · obtain ⟨hsum, hplaces⟩ := threadsStep_added iters hthreads
    refine ⟨fun a ha b hb => ?_, ?_⟩
    · obtain ⟨c, hc, hcb⟩ := hplaces a ha b hb
      exact h.ok c hc b hcb
    · rw [hdata, h.sum, hsum]
  · refine ⟨hthreads ▸ h.ok, ?_⟩
    rw [hdata, hthreads, ← h.sum, hset hpc]

theorem step_counted {ev : Ev} (h : Counted iters s) (hc : Apart s ev)
    (hst : step .coreThreadAtomic T iters s ev = some t) : Counted iters t := by
  cases ev with
  | modInit created =>
    change modInit .coreThreadAtomic T s created = some t at hst
    exact modInit_counted h hc.setFirst hst
  | thread k => exact thread_counted h hc.threadOwn hst

/-- when all threads have left their loops -/
theorem sum_added_left {ts : List Thread} (h : ∀ a ∈ ts, Left a) :
    (ts.map (added iters)).sum = BitVec.ofNat 32 (ts.length * iters) := by
  induction ts with
  | nil => rw [List.length_nil, Nat.zero_mul]; rfl
  | cons a ts ih =>
    obtain ⟨b, ha, hb⟩ := h a List.mem_cons_self
    have hadded : added iters a = BitVec.ofNat 32 iters := by simp only [added, ha, Boring.added, hb]
    rw [List.map_cons, List.sum_cons, ih fun c hc => h c (List.mem_cons_of_mem a hc), hadded, List.length_cons,
      Nat.succ_mul, Nat.add_comm, BitVec.ofNat_add]

end Counted

/-! ## A thread alone -/

section Alone

variable {T iters k c : ℕ} {s : Loaded} {a : Thread}

/-- the state in which thread `k` is at `b`, and has written `i` and `shared_data` -/
def Loaded.at (s : Loaded) (k : ℕ) (a : Thread) (i sharedData : BitVec 32) (b : Boring) : Loaded :=
  { s with i := i, sharedData := sharedData, threads := s.threads.set k { a with place := .fn b } }

theorem step_at (hk : s.threads[k]? = some a) {i d : BitVec 32} {b : Boring} {r : BitVec 32 × BitVec 32 × Boring}
    (hr : boringFunc .coreThreadAtomic iters i d b = some r) :
    step .coreThreadAtomic T iters (s.at k a i d b) (.thread k) = some (s.at k a r.1 r.2.1 r.2.2) := by
  obtain ⟨hlt, -⟩ := List.getElem?_eq_some_iff.1 hk
  have hset : (s.at k a i d b).threads[k]? = some { a with place := .fn b } := List.getElem?_set_self hlt
  refine (thread_fn hset rfl).trans ?_
  dsimp only [Loaded.at]
  rw [hr, Option.map_some, List.set_set]

theorem step_atomicSet (hpc : s.modInit = .atomicSet) (created : Bool) :
    step .coreThreadAtomic T iters s (.modInit created) = some { s with sharedData := 0, modInit := .done } := by
  simp only [step, modInit, hpc]

/-- one turn of the loop -/
theorem turn_alone (hk : s.threads[k]? = some a) (hc : c < iters) (hiters : iters < 2 ^ 31) (d : BitVec 32) :
    Run (Takes (step .coreThreadAtomic T iters)) (s.at k a (.ofNat 32 c) d ⟨.test, .ofNat 32 c⟩)
      (List.replicate 4 (.thread k)) (s.at k a (.ofNat 32 (c + 1)) (d + 1) ⟨.test, .ofNat 32 (c + 1)⟩) := by
  have htoInt : (BitVec.ofNat 32 c).toInt = c := by
    rw [BitVec.toInt_ofNat', Int.bmod_def]
    omega
  have htest : boringFunc .coreThreadAtomic iters (.ofNat 32 c) d ⟨.test, .ofNat 32 c⟩ =
      some (.ofNat 32 c, d, ⟨.add, .ofNat 32 c⟩) := by
    simp only [boringFunc, htoInt, Nat.cast_lt, if_pos hc]
  rw [BitVec.ofNat_add]
  exact .cons (step_at hk htest) (.cons (step_at hk rfl) (.cons (step_at hk rfl) (.cons (step_at hk rfl) (.nil _))))

/-- the `m` turns that are left, and the test that ends the loop -/
theorem loop_alone (hk : s.threads[k]? = some a) (hiters : iters < 2 ^ 31) (m : ℕ) : ∀ c, c + m = iters → ∀ d,
    Run (Takes (step .coreThreadAtomic T iters)) (s.at k a (.ofNat 32 c) d ⟨.test, .ofNat 32 c⟩)
      (List.replicate (4 * m + 1) (.thread k))
      (s.at k a (.ofNat 32 iters) (d + .ofNat 32 m) ⟨.left, .ofNat 32 iters⟩) := by
  induction m with
  | zero =>
    rintro c rfl d
    have htoInt : (BitVec.ofNat 32 c).toInt = c := by
      rw [BitVec.toInt_ofNat', Int.bmod_def]
      omega
    have htest : boringFunc .coreThreadAtomic c (.ofNat 32 c) d ⟨.test, .ofNat 32 c⟩ =
        some (.ofNat 32 c, d, ⟨.left, .ofNat 32 c⟩) := by
      simp only [boringFunc, htoInt, lt_irrefl, if_false]
    have hzero : d + BitVec.ofNat 32 0 = d := add_zero d
    rw [hzero]
    exact .cons (step_at hk htest) (.nil _)
  | succ m ih =>
    intro c hcm d
    have hrest := ih (c + 1) (by omega) (d + 1)
    have hadd : d + 1 + BitVec.ofNat 32 m = d + .ofNat 32 (m + 1) := by
      rw [BitVec.ofNat_add, add_assoc, add_comm (BitVec.ofNat 32 m)]
      rfl
    have hsteps : 4 * (m + 1) + 1 = 4 + (4 * m + 1) := by ring
    rw [hadd] at hrest
    rw [hsteps, List.replicate_add]
    exact run_append_iff.2 ⟨_, turn_alone hk (by omega) hiters d, hrest⟩

/-- **A thread that runs alone** adds `iters` to `shared_data`. -/
theorem runs_alone (hk : s.threads[k]? = some ⟨.entry, .running, false⟩) (hiters : iters < 2 ^ 31) :
    Run (Takes (step .coreThreadAtomic T iters)) s (List.replicate (2 + (4 * iters + 1)) (.thread k))
      (s.at k ⟨.entry, .running, false⟩ (.ofNat 32 iters) (s.sharedData + .ofNat 32 iters)
        ⟨.left, .ofNat 32 iters⟩) := by
  have henter : step .coreThreadAtomic T iters s (.thread k) =
      some (s.at k ⟨.entry, .running, false⟩ s.i s.sharedData ⟨.init, 0⟩) := thread_entry hk rfl
  rw [List.replicate_add]
  refine run_append_iff.2 ⟨_, .cons henter (.cons (step_at hk rfl) (.nil _)), ?_⟩
  exact loop_alone hk hiters iters 0 (Nat.zero_add iters) s.sharedData

end Alone

/-! ## Result -/

section Result

/-- **No increment is lost** when each party finds its own values in `i` and `atomic_set` comes before the counting. -/
theorem none_lost (T iters : ℕ) (l : List Ev) (s : Loaded)
    (hrun : Run (Takes (step .coreThreadAtomic T iters)) (loaded T) l s)
    (hapart : Along (Takes (step .coreThreadAtomic T iters)) (fun s ev _ => Apart s ev) (loaded T) l) :
    NoneLost T iters s := by
  have howned : Owned T s := owned_run hrun fun l₁ ev l₂ u v hl hr hst => (hapart l₁ ev l₂ u v hl hr hst).modOwn
  have hcounted : Counted iters s := by
    refine Along.inv (I := Counted iters) ?_ hapart hrun ⟨fun a ha => absurd ha List.not_mem_nil, rfl⟩
    exact fun s ev t h hc hst => step_counted h hc hst
  intro hdone hleft
  have hpc := howned.pc
  rw [hdone] at hpc
  exact ⟨hpc.2, by rw [hcounted.sum, sum_added_left hleft]⟩

/-- `atomic_set` comes when the two threads have been woken and have not started -/
theorem none_lost_two : ∃ s, Run (Takes (step .coreThreadAtomic 2 1)) (loaded 2)
    (List.replicate 25 (.modInit true) ++ List.replicate 7 (.thread 0) ++ List.replicate 7 (.thread 1)) s ∧
    s.sharedData = 2 ∧ NoneLost 2 1 s := by
  refine ⟨_, run_takes_iff.2 rfl, rfl, ?_⟩
  refine none_lost 2 1 (List.replicate 25 (.modInit true) ++ List.replicate 7 (.thread 0) ++ List.replicate 7 (.thread 1))
    _ (run_takes_iff.2 rfl) ?_
  decide +kernel

/-- four threads that can run, and `mod_init` before `atomic_set` -/
def ready : Loaded :=
  ⟨4, 0, [.task 0, .task 1, .task 2, .task 3], List.replicate 4 ⟨.entry, .running, false⟩, .atomicSet, 4,
    [0, 0, 0, 0, 1, 1, 1, 1, 2, 2, 2, 2, 3, 3, 3, 3], [0, 1, 2, 3], 0⟩

/-- **A late `atomic_set`.** The threads count one after the other, each with `i` to itself, and then `mod_init` goes on. -/
theorem set_late : ∃ l s, Run (Takes (step .coreThreadAtomic 4 1000000)) (loaded 4) l s ∧ s.modInit = .done ∧
    (∀ a ∈ s.threads, Left a) ∧ s.failed = 0 ∧ s.sharedData = 0 ∧ ¬ NoneLost 4 1000000 s := by
  have hready : Run (Takes (step .coreThreadAtomic 4 1000000)) (loaded 4) (List.replicate 46 (.modInit true)) ready :=
    run_takes_iff.2 rfl
  have hiters : 1000000 < 2 ^ 31 := by norm_num
  have hthreads := run_append_iff.2 ⟨_, hready, run_append_iff.2 ⟨_, runs_alone (T := 4) (k := 0) rfl hiters,
    run_append_iff.2 ⟨_, runs_alone (T := 4) (k := 1) rfl hiters,
      run_append_iff.2 ⟨_, runs_alone (T := 4) (k := 2) rfl hiters, runs_alone (T := 4) (k := 3) rfl hiters⟩⟩⟩⟩
  have hleft : ∀ a ∈ List.replicate 4 (⟨.fn ⟨.left, .ofNat 32 1000000⟩, .running, false⟩ : Thread), Left a := by
    intro a ha
    obtain rfl := List.eq_of_mem_replicate ha
    exact ⟨_, rfl, rfl⟩
  refine ⟨_, _, run_append_iff.2 ⟨_, hthreads, .cons (step_atomicSet rfl true) (.nil _)⟩, rfl, hleft, rfl, rfl, ?_⟩
  intro h
  have hdata := (h rfl hleft).2
  revert hdata
  decide

end Result

end Cse422.CoreThread
