/-
Kernel threads: run state, `wake_up_process`, `schedule` and the stop flag. Library: nothing here is about one
program.

A thread runs a function whose places are `π`. It is woken by making its state running; `schedule` puts it to sleep
exactly when its state is not running, and then returns once somebody has made it so. A thread created by
`kthread_create` first waits to be woken, and then starts its function only if nobody has asked it to stop.

- `TaskStruct.wakeUp`, `TaskStruct.setStop`: what others do to a thread;
- `TaskStruct.enter`, `TaskStruct.schedule`, `TaskStruct.resume`: what the kernel's code does inside the thread;
- `TaskStruct.Asleep`: the thread can take no step until somebody wakes it.
-/
import Mathlib.Tactic

namespace Kthread

variable {π : Type*}

/-- `TASK_RUNNING`, `TASK_INTERRUPTIBLE` and `TASK_UNINTERRUPTIBLE` -/
inductive TaskState where
  | running | interruptible | uninterruptible
  deriving DecidableEq, Repr

inductive Place (π : Type*) where
  /-- before the call of the thread function -/
  | entry
  /-- in the thread function -/
  | fn (pc : π)
  /-- in a `schedule` that returns to `pc` -/
  | inSchedule (pc : π)
  | exited
  deriving DecidableEq, Repr

/-- the place of the thread function that the thread is at or will return to -/
def Place.pc? : Place π → Option π
  | .fn pc | .inSchedule pc => some pc
  | .entry | .exited => none

structure TaskStruct (π : Type*) where
  place : Place π
  state : TaskState
  shouldStop : Bool
  deriving DecidableEq, Repr

/-- the thread that `kthread_create` leaves, asleep before its function -/
def kthreadCreate : TaskStruct π := ⟨.entry, .uninterruptible, false⟩

/-! ## What others do to a thread -/

/-- `wake_up_process` -/
def TaskStruct.wakeUp (a : TaskStruct π) : TaskStruct π := { a with state := .running }

/-- the first part of `kthread_stop` -/
def TaskStruct.setStop (a : TaskStruct π) : TaskStruct π := { a with shouldStop := true }

@[simp] theorem wakeUp_place (a : TaskStruct π) : a.wakeUp.place = a.place := rfl
@[simp] theorem wakeUp_state (a : TaskStruct π) : a.wakeUp.state = .running := rfl
@[simp] theorem wakeUp_shouldStop (a : TaskStruct π) : a.wakeUp.shouldStop = a.shouldStop := rfl
@[simp] theorem setStop_place (a : TaskStruct π) : a.setStop.place = a.place := rfl
@[simp] theorem setStop_state (a : TaskStruct π) : a.setStop.state = a.state := rfl
@[simp] theorem setStop_shouldStop (a : TaskStruct π) : a.setStop.shouldStop = true := rfl

/-! ## What the thread does -/

/-- the step before the thread function, which starts at `pc` -/
def TaskStruct.enter (a : TaskStruct π) (pc : π) : Option (TaskStruct π) :=
  if a.state ≠ .running then none
  else if a.shouldStop then some { a with place := .exited }
  else some { a with place := .fn pc }

/-- `schedule` called by the thread function, which goes on at `pc` -/
def TaskStruct.schedule (a : TaskStruct π) (pc : π) : TaskStruct π :=
  if a.state = .running then { a with place := .fn pc } else { a with place := .inSchedule pc }

/-- a `schedule` that has put the thread to sleep returns -/
def TaskStruct.resume (a : TaskStruct π) (pc : π) : Option (TaskStruct π) :=
  if a.state = .running then some { a with place := .fn pc } else none

@[simp] theorem schedule_state (a : TaskStruct π) (pc : π) : (a.schedule pc).state = a.state := by
  unfold TaskStruct.schedule; split_ifs <;> rfl

@[simp] theorem schedule_shouldStop (a : TaskStruct π) (pc : π) : (a.schedule pc).shouldStop = a.shouldStop := by
  unfold TaskStruct.schedule; split_ifs <;> rfl

theorem enter_eq_some {a b : TaskStruct π} {pc : π} (h : a.enter pc = some b) :
    a.state = .running ∧ b = { a with place := if a.shouldStop then .exited else .fn pc } := by
  unfold TaskStruct.enter at h
  split_ifs at h with h1 h2
  · exact ⟨not_not.1 h1, by rw [if_pos h2]; exact (Option.some.inj h).symm⟩
  · exact ⟨not_not.1 h1, by rw [if_neg h2]; exact (Option.some.inj h).symm⟩

theorem resume_eq_some {a b : TaskStruct π} {pc : π} (h : a.resume pc = some b) :
    a.state = .running ∧ b = { a with place := .fn pc } := by
  unfold TaskStruct.resume at h
  split_ifs at h with h1
  exact ⟨h1, (Option.some.inj h).symm⟩

/-! ## Sleep -/

/-- in a `schedule` that does not return unless somebody wakes the thread -/
def TaskStruct.Asleep (a : TaskStruct π) : Prop := (∃ pc, a.place = .inSchedule pc) ∧ a.state ≠ .running

theorem TaskStruct.Asleep.resume {a : TaskStruct π} (h : a.Asleep) (pc : π) : a.resume pc = none := if_neg h.2

/-- a thread whose state is not running falls asleep in `schedule` -/
theorem schedule_asleep {a : TaskStruct π} {pc : π} (h : a.state ≠ .running) : (a.schedule pc).Asleep := by
  unfold TaskStruct.schedule
  rw [if_neg h]
  exact ⟨⟨pc, rfl⟩, h⟩

end Kthread
