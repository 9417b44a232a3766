/-
The module `family_reader.c` of studio 5. A pid that is written to the file `fam` becomes `pidme`, and `pidme_store` prints
the process with this pid and its ancestors.

What the kernel finds is a parameter: which `struct pid` and which task, and the table of the processes, which may change
from one turn of the walk to the next. `refs` counts the references on each task that the module holds; `get_pid_task`
takes one on the task that it returns.

Premises: `kstrtoint` reads a number as `Kobject.Kstrtoint` says; `real_parent` of a process that has been found can be
followed for as long as the walk lasts; sysfs passes a written text on whole and one call at a time.
-/
import Cse422.Core.Lts
import Cse422.Kobject.Kstrtoint

namespace Cse422.FamilyReader

open Words Kobject

variable {Pid Task : Type*}

/-- the fields of the tasks at some moment -/
structure Table (Task : Type*) where
  pid : Task → ℤ
  realParent : Task → Task
  comm : Task → String

/-- what the kernel answers during one call -/
structure Kernel (Pid Task : Type*) where
  findVpid : ℤ → Option Pid
  getPidTask : Pid → Option Task
  /-- the table while `maxDepth` has a given value -/
  table : ℕ → Table Task

/-- a `printk` -/
inductive Msg where
  | beforeUpdate (pidme : ℤ)
  | afterUpdate (pidme : ℤ)
  | familyPidsOf (pidme : ℤ)
  | pid (thisPid : ℤ) (comm : String)
  /-- the line with `(init/root)` -/
  | initRoot (thisPid : ℤ) (comm : String)
  deriving DecidableEq, Repr

/-- the process that a line shows, with the label or without it -/
def Msg.process : Msg → Option (ℤ × String)
  | .pid thisPid comm | .initRoot thisPid comm => some (thisPid, comm)
  | .beforeUpdate _ | .afterUpdate _ | .familyPidsOf _ => none

/-- the loop with `maxDepth` turns left, and the line after it -/
def walk (table : ℕ → Table Task) : (maxDepth : ℕ) → (currTask : Task) → (thisPid : ℤ) → List Msg
  | 0, currTask, thisPid => [.initRoot thisPid ((table 0).comm currTask)]
  | maxDepth + 1, currTask, thisPid =>
    if thisPid > 1 then
      let parent := (table (maxDepth + 1)).realParent currTask
      .pid thisPid ((table (maxDepth + 1)).comm currTask) ::
        walk table maxDepth parent ((table maxDepth).pid parent)
    else [.initRoot thisPid ((table (maxDepth + 1)).comm currTask)]

structure Loaded (Task : Type*) where
  pidme : ℤ
  log : List Msg
  refs : Task → ℕ

/-- the value that `pidme_store` returns, and the module after it -/
def pidmeStore [DecidableEq Task] (k : Kernel Pid Task) (s : Loaded Task) (buf : List Byte) (count : ℕ) :
    ℤ × Loaded Task :=
  match kstrtoint buf with
  | .error ret => (ret, { s with log := s.log ++ [.beforeUpdate s.pidme, .afterUpdate s.pidme] })
  | .ok n =>
    let s := { s with pidme := n, log := s.log ++ [.beforeUpdate s.pidme, .afterUpdate n, .familyPidsOf n] }
    match k.findVpid n with
    | none => (count, s)
    | some rpid =>
      match k.getPidTask rpid with
      | none => (count, s)
      | some currTask =>
        (count, { s with
          refs := Function.update s.refs currTask (s.refs currTask + 1)
          log := s.log ++ walk k.table 500 currTask ((k.table 500).pid currTask) })

/-- the task that a text names -/
def Kernel.task (k : Kernel Pid Task) (buf : List Byte) : Option Task :=
  match kstrtoint buf with
  | .error _ => none
  | .ok n => (k.findVpid n).bind k.getPidTask

section Store

variable [DecidableEq Task] {k : Kernel Pid Task} {s : Loaded Task} {buf : List Byte} {count : ℕ} {a : Task}

/-- a write that names a task -/
theorem pidmeStore_some (s : Loaded Task) (count : ℕ) (h : k.task buf = some a) : ∃ n, kstrtoint buf = .ok n ∧
    pidmeStore k s buf count = ((count : ℤ), ⟨n,
      s.log ++ [.beforeUpdate s.pidme, .afterUpdate n, .familyPidsOf n] ++ walk k.table 500 a ((k.table 500).pid a),
      Function.update s.refs a (s.refs a + 1)⟩) := by
  unfold Kernel.task at h
  cases hn : kstrtoint buf with
  | error ret => rw [hn] at h; cases h
  | ok n =>
    rw [hn] at h
    obtain ⟨rpid, hrpid, hget⟩ := Option.bind_eq_some_iff.1 h
    exact ⟨n, rfl, by simp only [pidmeStore, hn, hrpid, hget]⟩

/-- a write that names none takes no reference -/
theorem pidmeStore_none (h : k.task buf = none) : (pidmeStore k s buf count).2.refs = s.refs := by
  unfold Kernel.task at h
  cases hn : kstrtoint buf with
  | error ret => simp only [pidmeStore, hn]
  | ok n =>
    rw [hn] at h
    cases hrpid : k.findVpid n with
    | none => simp only [pidmeStore, hn, hrpid]
    | some rpid =>
      have hget : k.getPidTask rpid = none := by simpa only [hrpid, Option.bind_some] using h
      simp only [pidmeStore, hn, hrpid, hget]

end Store

end Cse422.FamilyReader
