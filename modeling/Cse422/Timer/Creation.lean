/-
Threads that could not be created. `kthread_create` and `kthread_run` answer an error pointer when they fail, and
`mod_init` keeps it: the loop of `mt_recurring_timer.c` only skips the binding and the first wake-up, and
`recurring_timer.c` tests for NULL, which the answer never is. `timer_expire` and `mod_exit` use the pointers as they are.

- `calls_proper_iff`: in every run each pointer that `timer_expire` and `mod_exit` pass on is a created thread that has
  not been stopped, and `mod_exit` stops each created thread once, if and only if all threads have been created;
- `error_pointer_woken`: the first expiry after a failed `kthread_run`;
- `run_sim`: with all threads created this is the module of `Timer.Module`, and what is proved of that one holds here.
-/
import Cse422.Timer.LostWake

namespace Cse422.Timer.Creation

open Lts Kthread

/-! ## The module with its pointers -/

/-- a `struct task_struct *` -/
inductive TaskPtr where
  | null
  /-- `ERR_PTR(...)` -/
  | err
  | task (a : Thread)
  deriving DecidableEq, Repr

/-- a call with the pointer in `arr_threads[i]` -/
inductive Call where
  | wakeUpProcess (i : ℕ)
  | kthreadStop (i : ℕ)
  deriving DecidableEq, Repr

def Call.thread : Call → ℕ
  | .wakeUpProcess i | .kthreadStop i => i

structure Loaded where
  arrThreads : List TaskPtr
  timer : Bool
  timerExpire : Option ℕ
  exit : ExitPc
  /-- the calls of `timer_expire` and `mod_exit` so far -/
  log : List Call
  /-- the kernel has followed a pointer that is no thread -/
  oops : Bool
  deriving DecidableEq, Repr

/-- what a called function does to the thread behind `arr_threads[i]` -/
def follow (s : Loaded) (i : ℕ) (f : Thread → Thread) : Loaded :=
  match s.arrThreads[i]? with
  | some (.task a) => { s with arrThreads := s.arrThreads.set i (.task (f a)) }
  | _ => { s with oops := true }

def wakeUpProcess (s : Loaded) (i : ℕ) : Loaded :=
  follow { s with log := s.log ++ [.wakeUpProcess i] } i Thread.wakeUp

/-- the first part of `kthread_stop` -/
def kthreadStop (s : Loaded) (i : ℕ) : Loaded :=
  follow { s with log := s.log ++ [.kthreadStop i] } i Thread.setStop

/-- one turn of the loop of `timer_expire`, or its return of `HRTIMER_RESTART` -/
def timerExpire (s : Loaded) (i : ℕ) : Loaded :=
  if i < s.arrThreads.length then { wakeUpProcess s i with timerExpire := some (i + 1) }
  else { s with timerExpire := none }

def modExit (s : Loaded) : Option Loaded :=
  match s.exit with
  | .live => some { s with exit := .cancel }
  | .cancel => if s.timerExpire = none then some { s with timer := false, exit := .stop 0 } else none
  | .stop i =>
    if i < s.arrThreads.length then some { kthreadStop s i with exit := .wake i }
    else some { s with exit := .done }
  | .wake i => some { follow s i Thread.wakeUp with exit := .wait i }
  | .wait i =>
    match s.arrThreads[i]? with
    | some (.task a) => if a.task.place = .exited then some { s with exit := .stop (i + 1) } else none
    | _ => none
  | .done => none

/-- nothing runs after an oops -/
def step (s : Loaded) (ev : Ev) : Option Loaded :=
  if s.oops then none
  else
    match ev with
    | .thread i =>
      match s.arrThreads[i]? with
      | some (.task a) => a.step.map fun b => { s with arrThreads := s.arrThreads.set i (.task b) }
      | _ => none
    | .fire => if s.timer ∧ s.timerExpire = none then some { s with timerExpire := some 0 } else none
    | .expire => s.timerExpire.map (timerExpire s)
    | .exit => modExit s

/-- the answer of `kthread_create`, by whether it succeeds -/
def kthreadCreated (ok : Bool) : TaskPtr := if ok then .task ⟨kthreadCreate, 0⟩ else .err

/-- `if (!IS_ERR(p)) wake_up_process(p)`, for an answer `p` of `kthread_create` -/
def TaskPtr.wakeUnlessErr : TaskPtr → TaskPtr
  | .task a => .task a.wakeUp
  | .err => .err
  | .null => .null

/-- `kthread_run` -/
def kthreadRun (ok : Bool) : TaskPtr := (kthreadCreated ok).wakeUnlessErr

/-- the module after `hrtimer_start` -/
def started (arrThreads : List TaskPtr) : Loaded := ⟨arrThreads, true, none, .live, [], false⟩

/-- `mod_init` of `mt_recurring_timer.c`, by which of the calls of `kthread_create` succeed -/
def MtRecurringTimer.modInit (created : List Bool) : Loaded :=
  started (created.map fun ok => (kthreadCreated ok).wakeUnlessErr)

/-- `mod_init` of `recurring_timer.c`; without a module when it returns -1 -/
def RecurringTimer.modInit (created : Bool) : Option Loaded :=
  let taskptr := kthreadRun created
  if taskptr = .null then none else some (started [taskptr])

/-- the test for NULL passes whether `kthread_run` has succeeded or not -/
theorem recurringTimer_modInit (ok : Bool) : RecurringTimer.modInit ok = some (MtRecurringTimer.modInit [ok]) := by
  cases ok <;> rfl

abbrev Step : Loaded → Ev → Loaded → Prop := Takes step

/-! ## The property -/

/-- each call is made with a created thread whose `kthread_stop` has not begun, and by the time `mod_exit` returns each
created thread has been stopped once -/
structure Proper (created : List Bool) (s : Loaded) : Prop where
  real : ∀ c ∈ s.log, created[c.thread]? = some true
  notStopped : s.log.Pairwise fun c d => c ≠ .kthreadStop d.thread
  once : s.exit = .done → ∀ i, created[i]? = some true → s.log.count (.kthreadStop i) = 1

/-! ## With all threads created -/

/-- the pointers of `s` are the threads of `u` -/
structure Sim (s : Loaded) (u : St) : Prop where
  arrThreads : s.arrThreads = u.arrThreads.map .task
  timer : s.timer = u.timer
  timerExpire : s.timerExpire = u.timerExpire
  exit : s.exit = u.exit
  oops : s.oops = false
  inRange : ∀ i, u.exit = .wake i → i < u.arrThreads.length

/-- the calls of a step -/
def calls (u : St) : Ev → List Call
  | .expire =>
    match u.timerExpire with
    | some i => if i < u.arrThreads.length then [.wakeUpProcess i] else []
    | none => []
  | .exit =>
    match u.exit with
    | .stop i => if i < u.arrThreads.length then [.kthreadStop i] else []
    | _ => []
  | _ => []

section Sim

variable {s t : Loaded} {u : St} {ev : Ev} {i : ℕ} {a : Thread}

theorem map_modify (l : List Thread) {f : Thread → Thread} (ha : l[i]? = some a) :
    (l.map TaskPtr.task).set i (.task (f a)) = (l.modify i f).map .task := by
  obtain ⟨hi, rfl⟩ := List.getElem?_eq_some_iff.1 ha
  rw [List.modify_eq_set_getElem?, List.getElem?_eq_getElem hi]
  exact List.map_set.symm

theorem Sim.getElem? (h : Sim s u) (i : ℕ) : s.arrThreads[i]? = u.arrThreads[i]?.map .task := by
  rw [h.arrThreads, List.getElem?_map]

theorem Sim.length (h : Sim s u) : s.arrThreads.length = u.arrThreads.length := by
  rw [h.arrThreads, List.length_map]

/-- with a thread behind it, a pointer can be followed -/
theorem Sim.follow_eq (h : Sim s u) (hi : i < u.arrThreads.length) (f : Thread → Thread) (log : List Call) :
    follow { s with log := log } i f =
      { s with log := log, arrThreads := (u.arrThreads.modify i f).map .task } := by
  have ha : u.arrThreads[i]? = some u.arrThreads[i] := List.getElem?_eq_getElem hi
  have hp := h.getElem? i
  rw [ha, Option.map_some] at hp
  unfold follow
  simp only [hp]
  rw [h.arrThreads, map_modify _ ha]

theorem Sim.timerExpire_step (h : Sim s u) (i : ℕ) (he : u.timerExpire = some i) :
    Sim (Creation.timerExpire s i) (Timer.timerExpire u i) ∧
      (Creation.timerExpire s i).log = s.log ++ calls u .expire := by
  unfold Creation.timerExpire Timer.timerExpire
  simp only [calls, he, h.length]
  split_ifs with hi
  · unfold wakeUpProcess
    rw [h.follow_eq hi]
    refine ⟨⟨rfl, h.timer, rfl, h.exit, h.oops, ?_⟩, rfl⟩
    intro j hj
    rw [List.length_modify]
    exact h.inRange j hj
  · exact ⟨⟨h.arrThreads, h.timer, rfl, h.exit, h.oops, h.inRange⟩, (List.append_nil _).symm⟩

theorem Sim.modExit_step (h : Sim s u) (hst : modExit s = some t) :
    ∃ v, Timer.modExit u = some v ∧ Sim t v ∧ t.log = s.log ++ calls u .exit := by
  have hexit := h.exit
  cases hx : u.exit with
  | live =>
    simp only [Creation.modExit, hexit, hx, Option.some.injEq] at hst
    subst hst
    refine ⟨{ u with exit := .cancel }, by simp only [Timer.modExit, hx], ?_, by simp [calls, hx]⟩
    exact ⟨h.arrThreads, h.timer, h.timerExpire, rfl, h.oops, fun _ hi => by cases hi⟩
  | cancel =>
    simp only [Creation.modExit, hexit, hx] at hst
    split_ifs at hst with hnone
    obtain rfl := Option.some.inj hst
    rw [h.timerExpire] at hnone
    refine ⟨{ u with timer := false, exit := .stop 0 }, by simp only [Timer.modExit, hx, if_pos hnone], ?_,
      by simp [calls, hx]⟩
    exact ⟨h.arrThreads, rfl, h.timerExpire, rfl, h.oops, fun _ hi => by cases hi⟩
  | stop i =>
    simp only [Creation.modExit, hexit, hx, h.length] at hst
    split_ifs at hst with hi
    · obtain rfl := Option.some.inj hst
      have hstop := h.follow_eq hi Thread.setStop (s.log ++ [.kthreadStop i])
      rw [kthreadStop, hstop]
      refine ⟨_, by simp only [Timer.modExit, hx, if_pos hi]; rfl, ?_, by simp [calls, hx, hi]⟩
      refine ⟨rfl, h.timer, h.timerExpire, rfl, h.oops, ?_⟩
      intro j hj
      obtain rfl : i = j := by simpa using hj
      rwa [List.length_modify]
    · obtain rfl := Option.some.inj hst
      refine ⟨{ u with exit := .done }, by simp only [Timer.modExit, hx, if_neg hi], ?_, by simp [calls, hx, hi]⟩
      exact ⟨h.arrThreads, h.timer, h.timerExpire, rfl, h.oops, fun _ hi => by cases hi⟩
  | wake i =>
    simp only [Creation.modExit, hexit, hx, Option.some.injEq] at hst
    subst hst
    have hfollow := h.follow_eq (h.inRange i hx) Thread.wakeUp s.log
    refine ⟨_, by simp only [Timer.modExit, hx]; rfl, ?_, by simp [calls, hx, hfollow]⟩
    change Sim { follow { s with log := s.log } i Thread.wakeUp with exit := .wait i } _
    rw [hfollow]
    exact ⟨rfl, h.timer, h.timerExpire, rfl, h.oops, fun _ hi => by cases hi⟩
  | wait i =>
    simp only [Creation.modExit, hexit, hx, h.getElem? i] at hst
    cases ha : u.arrThreads[i]? with
    | none => simp [ha] at hst
    | some a =>
      simp only [ha, Option.map_some] at hst
      split_ifs at hst with hplace
      obtain rfl := Option.some.inj hst
      refine ⟨{ u with exit := .stop (i + 1) }, by simp [Timer.modExit, hx, ha, hplace], ?_, by simp [calls, hx]⟩
      exact ⟨h.arrThreads, h.timer, h.timerExpire, rfl, h.oops, fun _ hi => by cases hi⟩
  | done => simp [Creation.modExit, hexit, hx] at hst

/-- a step is one of the module of `Timer.Module`, and logs its calls -/
theorem step_sim (h : Sim s u) (hst : Step s ev t) :
    ∃ v, Timer.Step u ev v ∧ Sim t v ∧ t.log = s.log ++ calls u ev := by
  simp only [Takes, step] at hst
  rw [if_neg (by simp [h.oops])] at hst
  cases ev with
  | thread i =>
    simp only [h.getElem? i] at hst
    cases ha : u.arrThreads[i]? with
    | none => simp [ha] at hst
    | some a =>
      simp only [ha, Option.map_some] at hst
      obtain ⟨b, hb, rfl⟩ := Option.map_eq_some_iff.1 hst
      refine ⟨_, step_own ha hb, ?_, (List.append_nil _).symm⟩
      refine ⟨by rw [h.arrThreads, List.map_set], h.timer, h.timerExpire, h.exit, h.oops, ?_⟩
      intro j hj
      rw [List.length_set]
      exact h.inRange j hj
  | fire =>
    simp only at hst
    split_ifs at hst with hc
    obtain rfl := Option.some.inj hst
    rw [h.timer, h.timerExpire] at hc
    refine ⟨{ u with timerExpire := some 0 }, by simp only [Takes, Timer.step, if_pos hc], ?_, (List.append_nil _).symm⟩
    exact ⟨h.arrThreads, h.timer, rfl, h.exit, h.oops, h.inRange⟩
  | expire =>
    obtain ⟨i, hi, rfl⟩ := Option.map_eq_some_iff.1 hst
    rw [h.timerExpire] at hi
    obtain ⟨hsim, hlog⟩ := h.timerExpire_step i hi
    exact ⟨_, by simp only [Takes, Timer.step, hi, Option.map_some], hsim, hlog⟩
  | exit => exact h.modExit_step hst

theorem modInit_sim (n : ℕ) : Sim (MtRecurringTimer.modInit (List.replicate n true)) (Timer.modInit n) := by
  refine ⟨?_, rfl, rfl, rfl, rfl, fun _ hi => by cases hi⟩
  simp only [MtRecurringTimer.modInit, started, Timer.modInit, List.map_replicate]
  rfl

/-- **With all threads created** a run is one of the module of `Timer.Module`. -/
theorem run_sim {n : ℕ} {l : List Ev} (hr : Run Step (MtRecurringTimer.modInit (List.replicate n true)) l s) :
    ∃ u, Run Timer.Step (Timer.modInit n) l u ∧ Sim s u := by
  refine Run.sim ?_ hr (modInit_sim n)
  intro s ev t u h hst
  obtain ⟨v, hv, hsim, -⟩ := step_sim h hst
  exact ⟨v, hv, hsim⟩

end Sim

/-! ## The calls -/

/-- the calls of `kthread_stop` that `mod_exit` has begun, of `n` -/
def begun (n : ℕ) : ExitPc → ℕ
  | .live | .cancel => 0
  | .stop i => i
  | .wake i | .wait i => i + 1
  | .done => n

/-- the module and its calls, with all `n` threads created -/
structure Orderly (n : ℕ) (s : Loaded) (u : St) : Prop extends Sim s u where
  all : u.arrThreads.length = n
  cancelled : Cancelled u
  bound : begun n u.exit ≤ n
  real : ∀ c ∈ s.log, c.thread < n
  notStopped : s.log.Pairwise fun c d => c ≠ .kthreadStop d.thread
  stops : ∀ i, s.log.count (.kthreadStop i) = if i < begun n u.exit then 1 else 0

section Orderly

variable {n : ℕ} {s t : Loaded} {u v : St} {ev : Ev}

theorem modInit_orderly (n : ℕ) : Orderly n (MtRecurringTimer.modInit (List.replicate n true)) (Timer.modInit n) where
  toSim := modInit_sim n
  all := List.length_replicate
  cancelled := Or.inl (Or.inl rfl)
  bound := Nat.zero_le _
  real c hc := by cases hc
  notStopped := .nil
  stops i := rfl

/-- what a step calls, and what it begins -/
theorem step_calls (hst : Timer.Step u ev v) (hbound : begun u.arrThreads.length u.exit ≤ u.arrThreads.length) :
    (calls u ev = [] ∧ begun u.arrThreads.length v.exit = begun u.arrThreads.length u.exit) ∨
      (∃ i < u.arrThreads.length, calls u ev = [.wakeUpProcess i] ∧ u.timerExpire = some i ∧ v.exit = u.exit) ∨
      ∃ i < u.arrThreads.length, calls u ev = [.kthreadStop i] ∧ u.exit = .stop i ∧ v.exit = .wake i := by
  cases ev with
  | thread i =>
    have hexit : v.exit = u.exit := by
      have hM := step_exit hst
      generalize v.timer = tm, v.timerExpire = te, v.exit = x at hM
      cases hM with
      | same => rfl
      | fire he | expire he | restart he | unload he | cancel he | flag he | finish he | wake he | next he => cases he
    exact Or.inl ⟨rfl, by rw [hexit]⟩
  | fire =>
    simp only [Takes, Timer.step] at hst
    split_ifs at hst
    obtain rfl := Option.some.inj hst
    exact Or.inl ⟨rfl, rfl⟩
  | expire =>
    obtain ⟨i, hi, rfl⟩ := Option.map_eq_some_iff.1 hst
    unfold Timer.timerExpire
    simp only [calls, hi]
    split_ifs with hlt
    · exact Or.inr (Or.inl ⟨i, hlt, rfl, rfl, rfl⟩)
    · exact Or.inl ⟨rfl, rfl⟩
  | exit =>
    simp only [Takes, Timer.step] at hst
    cases hx : u.exit with
    | live =>
      simp only [Timer.modExit, hx, Option.some.injEq] at hst
      subst hst
      exact Or.inl ⟨by simp [calls, hx], rfl⟩
    | cancel =>
      simp only [Timer.modExit, hx] at hst
      split_ifs at hst
      obtain rfl := Option.some.inj hst
      exact Or.inl ⟨by simp [calls, hx], rfl⟩
    | stop i =>
      simp only [Timer.modExit, hx] at hst
      split_ifs at hst with hi
      · obtain rfl := Option.some.inj hst
        exact Or.inr (Or.inr ⟨i, hi, by simp [calls, hx, hi], rfl, rfl⟩)
      · obtain rfl := Option.some.inj hst
        rw [hx] at hbound
        exact Or.inl ⟨by simp [calls, hx, hi], le_antisymm (not_lt.1 hi) hbound⟩
    | wake i =>
      simp only [Timer.modExit, hx, Option.some.injEq] at hst
      subst hst
      exact Or.inl ⟨by simp [calls, hx], rfl⟩
    | wait i =>
      simp only [Timer.modExit, hx] at hst
      split_ifs at hst
      obtain rfl := Option.some.inj hst
      exact Or.inl ⟨by simp [calls, hx], rfl⟩
    | done => simp [Timer.modExit, hx] at hst

/-- a call with a thread that has not been stopped -/
theorem Orderly.append (h : Orderly n s u) {c : Call} (hc : c.thread < n) (hnew : begun n u.exit ≤ c.thread) :
    (∀ d ∈ s.log ++ [c], d.thread < n) ∧ (s.log ++ [c]).Pairwise fun d d' => d ≠ .kthreadStop d'.thread := by
  refine ⟨?_, List.pairwise_append.2 ⟨h.notStopped, List.pairwise_singleton _ _, ?_⟩⟩
  · intro d hd
    rcases List.mem_append.1 hd with hd | hd
    · exact h.real d hd
    · exact List.mem_singleton.1 hd ▸ hc
  · intro d hd d' hd' heq
    obtain rfl := List.mem_singleton.1 hd'
    have hcount := h.stops d'.thread
    rw [if_neg (not_lt.2 hnew), List.count_eq_zero, ← heq] at hcount
    exact hcount hd

/-- while `timer_expire` runs no thread is being stopped -/
theorem Orderly.none_begun (h : Orderly n s u) {i : ℕ} (hi : u.timerExpire = some i) : begun n u.exit = 0 := by
  rcases h.cancelled with (hx | hx) | ⟨-, hnone⟩
  · rw [hx]
    rfl
  · rw [hx]
    rfl
  · rw [hnone] at hi
    cases hi

theorem step_orderly (h : Orderly n s u) (hst : Step s ev t) : ∃ v, Orderly n t v := by
  obtain ⟨v, hv, hsim, hlog⟩ := step_sim h.toSim hst
  have hall : v.arrThreads.length = n := (step_length hv).trans h.all
  have hcancelled := step_cancelled h.cancelled hv
  have hcalls := step_calls hv (h.all.symm ▸ h.bound)
  rw [h.all] at hcalls
  refine ⟨v, ?_⟩
  rcases hcalls with ⟨hnone, hbegun⟩ | ⟨i, hi, hwake, hexpire, hexit⟩ | ⟨i, hi, hstop, hexit, hexit'⟩
  · rw [hnone, List.append_nil] at hlog
    refine ⟨hsim, hall, hcancelled, hbegun ▸ h.bound, hlog ▸ h.real, hlog ▸ h.notStopped, ?_⟩
    intro i
    rw [hlog, hbegun]
    exact h.stops i
  · rw [hwake] at hlog
    have hzero := h.none_begun hexpire
    obtain ⟨hreal, hpair⟩ := h.append (c := .wakeUpProcess i) hi (hzero ▸ Nat.zero_le i)
    refine ⟨hsim, hall, hcancelled, hexit ▸ h.bound, hlog ▸ hreal, hlog ▸ hpair, ?_⟩
    intro j
    rw [hlog, hexit, List.count_append, h.stops j]
    rfl
  · rw [hstop] at hlog
    have hbegun : begun n u.exit = i := by rw [hexit]; rfl
    have hbegun' : begun n v.exit = i + 1 := by rw [hexit']; rfl
    obtain ⟨hreal, hpair⟩ := h.append (c := .kthreadStop i) hi hbegun.le
    refine ⟨hsim, hall, hcancelled, hbegun' ▸ hi, hlog ▸ hreal, hlog ▸ hpair, ?_⟩
    intro j
    rw [hlog, hbegun', List.count_append, h.stops j, hbegun]
    by_cases hji : j = i
    · subst hji
      simp
    · have hcount : List.count (Call.kthreadStop j) [.kthreadStop i] = 0 := by
        rw [List.count_eq_zero]
        simp [hji]
      rw [hcount, Nat.add_zero]
      exact if_congr (by omega) rfl rfl

theorem run_orderly {l : List Ev} (hr : Run Step (MtRecurringTimer.modInit (List.replicate n true)) l s) :
    ∃ u, Orderly n s u :=
  Run.inv (I := fun s => ∃ u, Orderly n s u) (fun _ _ _ hI hst => step_orderly hI.choose_spec hst) hr
    ⟨_, modInit_orderly n⟩

theorem Orderly.proper (h : Orderly n s u) : Proper (List.replicate n true) s where
  real c hc := List.getElem?_replicate_of_lt (h.real c hc)
  notStopped := h.notStopped
  once hdone i hi := by
    have hlt : i < n := by
      have hsome := (List.getElem?_eq_some_iff.1 hi).1
      rwa [List.length_replicate] at hsome
    rw [h.stops i, ← h.exit, hdone]
    exact if_pos hlt

end Orderly

/-! ## With a thread missing -/

section Missing

variable {created : List Bool}

theorem modInit_getElem? {i : ℕ} {ok : Bool} (h : created[i]? = some ok) :
    (MtRecurringTimer.modInit created).arrThreads[i]? = some (kthreadCreated ok).wakeUnlessErr := by
  simp only [MtRecurringTimer.modInit, started, List.getElem?_map, h, Option.map_some]

/-- the timer expires, and `timer_expire` has come to the `k`-th thread -/
def expired (k : ℕ) : List Ev := .fire :: List.replicate k .expire

theorem expired_succ (k : ℕ) : expired (k + 1) = expired k ++ [.expire] := by
  simp only [expired, List.replicate_succ', List.cons_append]

theorem wakeUpProcess_task {s : Loaded} {i : ℕ} {a : Thread} (h : s.arrThreads[i]? = some (.task a)) :
    wakeUpProcess s i =
      { s with log := s.log ++ [.wakeUpProcess i], arrThreads := s.arrThreads.set i (.task a.wakeUp) } := by
  simp only [wakeUpProcess, follow, h]

theorem wakeUpProcess_err {s : Loaded} {i : ℕ} (h : s.arrThreads[i]? = some .err) :
    wakeUpProcess s i = { s with log := s.log ++ [.wakeUpProcess i], oops := true } := by
  simp only [wakeUpProcess, follow, h]

theorem step_expire {s : Loaded} {i : ℕ} (hoops : s.oops = false) (hi : s.timerExpire = some i)
    (hlt : i < s.arrThreads.length) : Step s .expire { wakeUpProcess s i with timerExpire := some (i + 1) } := by
  simp only [Takes, step, hoops, Bool.false_eq_true, if_false, hi, Option.map_some, timerExpire, if_pos hlt]

/-- `timer_expire` wakes the threads before the first that is missing -/
theorem run_expired (k : ℕ) (h : ∀ i < k, created[i]? = some true) :
    ∃ s, Run Step (MtRecurringTimer.modInit created) (expired k) s ∧ s.timerExpire = some k ∧ s.oops = false ∧
      s.arrThreads.length = created.length ∧
      ∀ i, k ≤ i → s.arrThreads[i]? = (MtRecurringTimer.modInit created).arrThreads[i]? := by
  induction k with
  | zero =>
    have hlen : (MtRecurringTimer.modInit created).arrThreads.length = created.length := List.length_map _
    exact ⟨{ MtRecurringTimer.modInit created with timerExpire := some 0 }, .cons rfl (.nil _), rfl, rfl, hlen,
      fun _ _ => rfl⟩
  | succ k ih =>
    obtain ⟨s, hr, hk, hoops, hlen, hrest⟩ := ih fun i hi => h i (Nat.lt_succ_of_lt hi)
    have hcreated := h k (Nat.lt_succ_self k)
    have hlt : k < s.arrThreads.length := hlen ▸ (List.getElem?_eq_some_iff.1 hcreated).1
    have hst := step_expire hoops hk hlt
    rw [wakeUpProcess_task ((hrest k le_rfl).trans (modInit_getElem? hcreated))] at hst
    have hrun := run_append_iff.2 ⟨s, hr, Run.cons hst (.nil _)⟩
    rw [← expired_succ] at hrun
    refine ⟨_, hrun, rfl, hoops, List.length_set.trans hlen, ?_⟩
    intro i hi
    exact (List.getElem?_set_ne (Nat.ne_of_lt hi)).trans (hrest i (Nat.le_of_lt hi))

/-- the error pointer of the first missing thread is woken -/
theorem missing_woken {i : ℕ} (h : ∀ j < i, created[j]? = some true) (hi : created[i]? = some false) :
    ∃ s, Run Step (MtRecurringTimer.modInit created) (expired (i + 1)) s ∧ .wakeUpProcess i ∈ s.log ∧ s.oops = true := by
  obtain ⟨s, hr, hk, hoops, hlen, hrest⟩ := run_expired i h
  have hlt : i < s.arrThreads.length := hlen ▸ (List.getElem?_eq_some_iff.1 hi).1
  have hst := step_expire hoops hk hlt
  rw [wakeUpProcess_err ((hrest i le_rfl).trans (modInit_getElem? hi))] at hst
  have hrun := run_append_iff.2 ⟨s, hr, Run.cons hst (.nil _)⟩
  rw [← expired_succ] at hrun
  exact ⟨_, hrun, List.mem_append_right _ (List.mem_singleton.2 rfl), rfl⟩

theorem first_missing (h : ¬ ∀ ok ∈ created, ok = true) :
    ∃ i : ℕ, created[i]? = some false ∧ ∀ j < i, created[j]? = some true := by
  induction created with
  | nil => exact absurd (fun ok hok => by cases hok) h
  | cons ok created ih =>
    cases ok with
    | false => exact ⟨0, rfl, fun _ hj => absurd hj (Nat.not_lt_zero _)⟩
    | true =>
      have htail : ¬ ∀ ok ∈ created, ok = true := by
        intro hall
        exact h (List.forall_mem_cons.2 ⟨rfl, hall⟩)
      obtain ⟨i, hi, hbefore⟩ := ih htail
      refine ⟨i + 1, hi, ?_⟩
      intro j hj
      cases j with
      | zero => rfl
      | succ j => exact hbefore j (Nat.lt_of_succ_lt_succ hj)

theorem modInit_proper_iff :
    (∀ l s, Run Step (MtRecurringTimer.modInit created) l s → Proper created s) ↔ ∀ ok ∈ created, ok = true := by
  constructor
  · intro h
    by_contra hmissing
    obtain ⟨i, hi, hbefore⟩ := first_missing hmissing
    obtain ⟨s, hr, hlog, -⟩ := missing_woken hbefore hi
    have hreal := (h _ s hr).real _ hlog
    rw [Call.thread, hi] at hreal
    cases hreal
  · intro hall l s hr
    have hlist : created = List.replicate created.length true := List.eq_replicate_of_mem hall
    rw [hlist] at hr ⊢
    obtain ⟨u, hu⟩ := run_orderly hr
    exact hu.proper

end Missing

/-! ## Result -/

/-- **Only real threads are woken and stopped**, in both modules, if and only if all of them have been created. -/
theorem calls_proper_iff (created : List Bool) (ok : Bool) :
    ((∀ l s, Run Step (MtRecurringTimer.modInit created) l s → Proper created s) ↔ ∀ ok ∈ created, ok = true) ∧
      ∃ s₀, RecurringTimer.modInit ok = some s₀ ∧ ((∀ l s, Run Step s₀ l s → Proper [ok] s) ↔ ok = true) := by
  refine ⟨modInit_proper_iff, _, recurringTimer_modInit ok, ?_⟩
  rw [modInit_proper_iff, List.forall_mem_singleton]

/-- **An error pointer.** `kthread_run` has failed, and the timer expires. -/
theorem error_pointer_woken : ∃ s₀ s, RecurringTimer.modInit false = some s₀ ∧ Run Step s₀ [.fire, .expire] s ∧
    s.log = [.wakeUpProcess 0] ∧ s.oops = true ∧ ¬ Proper [false] s := by
  refine ⟨started [.err], ⟨[.err], true, some 1, .live, [.wakeUpProcess 0], true⟩, rfl, ?_, rfl, rfl, ?_⟩
  · exact run_takes_iff.2 (by decide)
  · intro h
    have hreal := h.real (.wakeUpProcess 0) (List.mem_singleton.2 rfl)
    cases hreal

end Cse422.Timer.Creation
