/-
The recurring timer modules (`labs/lab1/mt_recurring_timer.c`, and `recurring_timer.c` with one thread): the threads
in `spawn_func`, the timer that wakes them in `timer_expire`, and `mod_exit`.

`step` takes one atomic step of one of them: a thread, the timer interrupt, or the process that unloads the module.
The number of threads is any `n`; the modules have four and one.

Premises about the kernel:
- `kthread_create` and `kthread_run` have succeeded; `Timer.Creation` goes without this;
- memory is sequentially consistent, and `set_current_state` and `wake_up_process` write the state of the thread at once;
- the handler of an hrtimer runs once for an expiry and is never in two places; when it has returned HRTIMER_RESTART the
  timer expires again, at any time. `hrtimer_cancel` waits for a running handler, and no expiry comes after it;
- `kthread_stop` sets the flag, wakes the thread and returns when it has exited; `mod_exit` is called once.

- `step_thread`: all that a step can do to one thread;
- `step_exit`: all that a step can do to `mod_exit` and to the timer.
-/
import Cse422.Core.Lts
import Cse422.Core.Kthread

namespace Cse422.Timer

open Lts Kthread

/-! ## spawn_func -/

/-- the next statement of `spawn_func` -/
inductive SpawnPc where
  /-- `iters = 0` -/
  | start
  /-- `++iters` -/
  | loop
  /-- the printks, then `set_current_state(TASK_INTERRUPTIBLE)` -/
  | body
  /-- `schedule()` -/
  | sched
  /-- `kthread_should_stop()` -/
  | test
  deriving DecidableEq, Repr

/-- a thread and its local variable. `iters` is only printed, so it is a count here and does not wrap. -/
structure Thread where
  task : TaskStruct SpawnPc
  iters : ℕ
  deriving DecidableEq, Repr

def spawnFunc (a : Thread) : SpawnPc → Thread
  | .start => { task := { a.task with place := .fn .loop }, iters := 0 }
  | .loop => { task := { a.task with place := .fn .body }, iters := a.iters + 1 }
  | .body => { a with task := { a.task with place := .fn .sched, state := .interruptible } }
  | .sched => { a with task := a.task.schedule .test }
  | .test => { a with task := { a.task with place := if a.task.shouldStop then .exited else .fn .loop } }

def Thread.step (a : Thread) : Option Thread :=
  match a.task.place with
  | .entry => (a.task.enter .start).map fun k => { a with task := k }
  | .fn pc => some (spawnFunc a pc)
  | .inSchedule pc => (a.task.resume pc).map fun k => { a with task := k }
  | .exited => none

def Thread.wakeUp (a : Thread) : Thread := { a with task := a.task.wakeUp }

def Thread.setStop (a : Thread) : Thread := { a with task := a.task.setStop }

/-! ## The module -/

inductive ExitPc where
  /-- `mod_exit` has not been called -/
  | live
  /-- in `hrtimer_cancel` -/
  | cancel
  /-- at the head of the loop, and then in `kthread_stop(arr_threads[i])` -/
  | stop (i : ℕ)
  /-- the stop flag of `arr_threads[i]` is set, the wake-up comes next -/
  | wake (i : ℕ)
  /-- waiting for `arr_threads[i]` to exit -/
  | wait (i : ℕ)
  | done
  deriving DecidableEq, Repr

structure St where
  arrThreads : List Thread
  /-- the hrtimer is enqueued -/
  timer : Bool
  /-- `i` in the loop of a running `timer_expire` -/
  timerExpire : Option ℕ
  exit : ExitPc
  deriving DecidableEq, Repr

inductive Ev where
  | thread (i : ℕ)
  /-- the interval is over -/
  | fire
  /-- a step of `timer_expire` -/
  | expire
  /-- a step of the process that unloads the module -/
  | exit
  deriving DecidableEq, Repr

/-- one turn of the loop of `timer_expire`, or its return of `HRTIMER_RESTART` -/
def timerExpire (s : St) (i : ℕ) : St :=
  if i < s.arrThreads.length then
    { s with arrThreads := s.arrThreads.modify i Thread.wakeUp, timerExpire := some (i + 1) }
  else { s with timerExpire := none }

def modExit (s : St) : Option St :=
  match s.exit with
  | .live => some { s with exit := .cancel }
  -- `hrtimer_cancel` waits for a running handler
  | .cancel => if s.timerExpire = none then some { s with timer := false, exit := .stop 0 } else none
  | .stop i =>
    if i < s.arrThreads.length then
      some { s with arrThreads := s.arrThreads.modify i Thread.setStop, exit := .wake i }
    else some { s with exit := .done }
  | .wake i => some { s with arrThreads := s.arrThreads.modify i Thread.wakeUp, exit := .wait i }
  | .wait i =>
    if s.arrThreads[i]?.map (fun a => a.task.place) = some .exited then some { s with exit := .stop (i + 1) } else none
  | .done => none

def step (s : St) : Ev → Option St
  | .thread i =>
    match s.arrThreads[i]? with
    | none => none
    | some a => a.step.map fun b => { s with arrThreads := s.arrThreads.set i b }
  | .fire => if s.timer ∧ s.timerExpire = none then some { s with timerExpire := some 0 } else none
  | .expire => s.timerExpire.map (timerExpire s)
  | .exit => modExit s

/-- a thread that `mod_init` has created, bound and woken -/
def newThread : Thread := ⟨kthreadCreate.wakeUp, 0⟩

/-- the module when `mod_init` has returned, all `n` threads created -/
def modInit (n : ℕ) : St := ⟨List.replicate n newThread, true, none, .live⟩

abbrev Step : St → Ev → St → Prop := Takes step

/-! ## What a step does -/

/-- what the step `ev` from `s` makes of thread `i`, which is `a` before -/
inductive Touches (s : St) (ev : Ev) (i : ℕ) (a : Thread) : Thread → Prop
  | other : ev ≠ .thread i → (ev = .expire → s.timerExpire ≠ some i) →
      (ev = .exit → s.exit ≠ .stop i ∧ s.exit ≠ .wake i) → Touches s ev i a a
  | own {b : Thread} : ev = .thread i → a.step = some b → Touches s ev i a b
  | expiry : ev = .expire → s.timerExpire = some i → Touches s ev i a a.wakeUp
  | flag : ev = .exit → s.exit = .stop i → Touches s ev i a a.setStop
  | wake : ev = .exit → s.exit = .wake i → Touches s ev i a a.wakeUp

/-- what the step `ev` from `s` makes of the timer and of `mod_exit` -/
inductive Moves (s : St) (ev : Ev) : Bool → Option ℕ → ExitPc → Prop
  | same : Moves s ev s.timer s.timerExpire s.exit
  | fire : ev = .fire → s.timer = true → Moves s ev s.timer (some 0) s.exit
  | expire {i : ℕ} : ev = .expire → s.timerExpire = some i → Moves s ev s.timer (some (i + 1)) s.exit
  | restart : ev = .expire → Moves s ev s.timer none s.exit
  | unload : ev = .exit → s.exit = .live → Moves s ev s.timer s.timerExpire .cancel
  | cancel : ev = .exit → s.exit = .cancel → s.timerExpire = none → Moves s ev false none (.stop 0)
  | flag {i : ℕ} : ev = .exit → s.exit = .stop i → i < s.arrThreads.length →
      Moves s ev s.timer s.timerExpire (.wake i)
  | finish {i : ℕ} : ev = .exit → s.exit = .stop i → s.arrThreads.length ≤ i → Moves s ev s.timer s.timerExpire .done
  | wake {i : ℕ} : ev = .exit → s.exit = .wake i → Moves s ev s.timer s.timerExpire (.wait i)
  | next {i : ℕ} {a : Thread} : ev = .exit → s.exit = .wait i → s.arrThreads[i]? = some a → a.task.place = .exited →
      Moves s ev s.timer s.timerExpire (.stop (i + 1))

theorem getElem?_modify_some {f : Thread → Thread} {l : List Thread} {i j : ℕ} {a : Thread} (h : l[i]? = some a) :
    (l.modify j f)[i]? = some (if j = i then f a else a) := by
  rw [List.getElem?_modify, h]
  rfl

theorem modExit_moves {s t : St} (h : modExit s = some t) : Moves s .exit t.timer t.timerExpire t.exit := by
  cases hx : s.exit with
  | live =>
    simp only [modExit, hx] at h
    cases h
    exact .unload rfl hx
  | cancel =>
    simp only [modExit, hx] at h
    split_ifs at h with hc
    cases h
    rw [hc]
    exact .cancel rfl hx hc
  | stop i =>
    simp only [modExit, hx] at h
    split_ifs at h with hi
    · cases h
      exact .flag rfl hx hi
    · cases h
      exact .finish rfl hx (not_lt.1 hi)
  | wake i =>
    simp only [modExit, hx] at h
    cases h
    exact .wake rfl hx
  | wait i =>
    simp only [modExit, hx] at h
    split_ifs at h with he
    cases h
    obtain ⟨a, ha, hp⟩ := Option.map_eq_some_iff.1 he
    exact .next rfl hx ha hp
  | done => simp [modExit, hx] at h

theorem modExit_touches {s t : St} {i : ℕ} {a : Thread} (h : modExit s = some t) (ha : s.arrThreads[i]? = some a) :
    ∃ b, t.arrThreads[i]? = some b ∧ Touches s .exit i a b := by
  have other : s.exit ≠ .stop i ∧ s.exit ≠ .wake i → Touches s .exit i a a :=
    fun hx => .other (by simp) (by simp) (fun _ => hx)
  cases hx : s.exit with
  | live =>
    simp only [modExit, hx] at h
    cases h
    exact ⟨a, ha, other (by simp [hx])⟩
  | cancel =>
    simp only [modExit, hx] at h
    split_ifs at h with hc
    cases h
    exact ⟨a, ha, other (by simp [hx])⟩
  | stop j =>
    simp only [modExit, hx] at h
    split_ifs at h with hj
    · cases h
      refine ⟨_, getElem?_modify_some ha, ?_⟩
      split_ifs with hji
      · subst hji
        exact .flag rfl hx
      · exact other (by simp [hx, hji])
    · cases h
      refine ⟨a, ha, other ?_⟩
      have hji : j ≠ i := by
        rintro rfl
        exact hj (List.getElem?_eq_some_iff.1 ha).1
      simp [hx, hji]
  | wake j =>
    simp only [modExit, hx] at h
    cases h
    refine ⟨_, getElem?_modify_some ha, ?_⟩
    split_ifs with hji
    · subst hji
      exact .wake rfl hx
    · exact other (by simp [hx, hji])
  | wait j =>
    simp only [modExit, hx] at h
    split_ifs at h with hc
    cases h
    exact ⟨a, ha, other (by simp [hx])⟩
  | done => simp [modExit, hx] at h

theorem step_thread {s t : St} {ev : Ev} {i : ℕ} {a : Thread} (h : Step s ev t) (ha : s.arrThreads[i]? = some a) :
    ∃ b, t.arrThreads[i]? = some b ∧ Touches s ev i a b := by
  cases ev with
  | thread j =>
    simp only [Takes, step] at h
    split at h
    · cases h
    · rename_i c hc
      obtain ⟨b, hb, rfl⟩ := Option.map_eq_some_iff.1 h
      by_cases hji : j = i
      · subst hji
        obtain rfl := Option.some.inj (hc.symm.trans ha)
        exact ⟨b, List.getElem?_set_self (List.getElem?_eq_some_iff.1 ha).1, .own rfl hb⟩
      · exact ⟨a, (List.getElem?_set_ne hji).trans ha, .other (by simp [hji]) (by simp) (by simp)⟩
  | fire =>
    simp only [Takes, step] at h
    split_ifs at h
    cases h
    exact ⟨a, ha, .other (by simp) (by simp) (by simp)⟩
  | expire =>
    obtain ⟨j, hj, rfl⟩ := Option.map_eq_some_iff.1 h
    have other : j ≠ i → Touches s .expire i a a := fun hji => .other (by simp) (by simp [hj, hji]) (by simp)
    unfold timerExpire
    split_ifs with hlt
    · refine ⟨_, getElem?_modify_some ha, ?_⟩
      split_ifs with hji
      · subst hji
        exact .expiry rfl hj
      · exact other hji
    · refine ⟨a, ha, other ?_⟩
      rintro rfl
      exact hlt (List.getElem?_eq_some_iff.1 ha).1
  | exit => exact modExit_touches h ha

theorem step_exit {s t : St} {ev : Ev} (h : Step s ev t) : Moves s ev t.timer t.timerExpire t.exit := by
  cases ev with
  | thread j =>
    simp only [Takes, step] at h
    split at h
    · cases h
    · obtain ⟨b, -, rfl⟩ := Option.map_eq_some_iff.1 h
      exact .same
  | fire =>
    simp only [Takes, step] at h
    split_ifs at h with hc
    cases h
    exact .fire rfl hc.1
  | expire =>
    obtain ⟨j, hj, rfl⟩ := Option.map_eq_some_iff.1 h
    unfold timerExpire
    split_ifs
    · exact .expire rfl hj
    · exact .restart rfl
  | exit => exact modExit_moves h

theorem step_length {s t : St} {ev : Ev} (h : Step s ev t) : t.arrThreads.length = s.arrThreads.length := by
  cases ev with
  | thread j =>
    simp only [Takes, step] at h
    split at h
    · cases h
    · obtain ⟨b, -, rfl⟩ := Option.map_eq_some_iff.1 h
      exact List.length_set
  | fire =>
    simp only [Takes, step] at h
    split_ifs at h
    cases h
    rfl
  | expire =>
    obtain ⟨j, -, rfl⟩ := Option.map_eq_some_iff.1 h
    unfold timerExpire
    split_ifs <;> simp
  | exit =>
    simp only [Takes, step, modExit] at h
    split at h <;> (try split_ifs at h) <;> cases h <;> simp

theorem run_thread {s t : St} {l : List Ev} {i : ℕ} {b : Thread} (hr : Run Step s l t)
    (hb : t.arrThreads[i]? = some b) : ∃ a, s.arrThreads[i]? = some a := by
  have hlen : t.arrThreads.length = s.arrThreads.length :=
    Run.inv (I := fun u : St => u.arrThreads.length = s.arrThreads.length)
      (fun _ _ _ hu hst => (step_length hst).trans hu) hr rfl
  obtain ⟨hi, -⟩ := List.getElem?_eq_some_iff.1 hb
  exact ⟨_, List.getElem?_eq_getElem (hlen ▸ hi)⟩

/-- a thread that can take a step is free to take it -/
theorem step_own {s : St} {i : ℕ} {a b : Thread} (ha : s.arrThreads[i]? = some a) (hb : a.step = some b) :
    Step s (.thread i) { s with arrThreads := s.arrThreads.set i b } := by
  simp only [Takes, step, ha, hb, Option.map_some]

end Cse422.Timer
