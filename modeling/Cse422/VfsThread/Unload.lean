/-
The module `vfs_thread.c` of studio 15: `vfs_module_init` creates and wakes a kernel thread that runs `thread_fn`, and
`vfs_module_exit` prints a line.

The module and its thread take turns in any order. What `thread_fn` finds is an answer of the environment at each of its
lookups: how the directories compare, where the list ends, which pointers are null. The write to the other process
comes back at any later time, or never. The kernel frees the code of the module when `vfs_module_exit` returns, and the
thread holds no reference; `late` is what the thread executes of `thread_fn` after that.

Premises about the kernel: `kthread_create` gives a thread or an error pointer, and a thread runs once it has been woken;
`rmmod` does not wait for threads, and what the module was loaded to is gone when its exit function has returned.

- `threadStep_cases`: all that a step of the thread can do;
- `unload_iff`: no run of the thread executes freed code exactly when the thread had left `thread_fn` as the exit
  function returned. Nothing in the module waits for that: `freed_under_thread`.
-/
import Cse422.Core.Lts
import Cse422.Core.Kthread

namespace Cse422.VfsThread

open Lts Kthread

/-! ## thread_fn -/

/-- the places of `thread_fn`; printks that follow each other are one -/
inductive VfsPc where
  /-- the addresses in `current` -/
  | printCurrent
  /-- `pwd.dentry == root.dentry` -/
  | compare
  | printSame
  | printBoth
  | printHeading
  /-- `d` becomes the first entry of the list -/
  | listFirst
  /-- is `d` the head again? -/
  | listTest
  /-- `list_empty(&(d->d_subdirs))` -/
  | listEmpty
  | printName
  | listNext
  | printTarget
  /-- `find_get_pid`, and the test for NULL -/
  | findGetPid
  | getPidTask
  /-- `got pidtask`, and the test for NULL -/
  | printGot (null : Bool)
  /-- `files = pidtask->files` -/
  | files
  /-- `fcheck_files`, and the test for NULL -/
  | fcheckFiles
  /-- `file->f_op`, and the test for NULL -/
  | fOp
  | printWriting
  | callWrite
  | inWrite
  /-- before `return 0` -/
  | ret
  /-- a `printk(KERN_ERR ..)` -/
  | printError
  /-- before `return -1` -/
  | returnError
  deriving DecidableEq, Repr

/-- where `thread_fn` goes on; `yes` answers the question at a place that asks one. `none` is its return. -/
def VfsPc.next (yes : Bool) : VfsPc → Option VfsPc
  | .printCurrent => some .compare
  | .compare => some (if yes then .printSame else .printBoth)
  | .printSame | .printBoth => some .printHeading
  | .printHeading => some .listFirst
  | .listFirst => some .listTest
  | .listTest => some (if yes then .printTarget else .listEmpty)
  | .listEmpty => some (if yes then .listNext else .printName)
  | .printName => some .listNext
  | .listNext => some .listTest
  | .printTarget => some .findGetPid
  | .findGetPid => some (if yes then .printError else .getPidTask)
  | .getPidTask => some (.printGot yes)
  | .printGot null => some (if null then .printError else .files)
  | .files => some .fcheckFiles
  | .fcheckFiles => some (if yes then .printError else .fOp)
  | .fOp => some (if yes then .printError else .printWriting)
  | .printWriting => some .callWrite
  | .callWrite => some .inWrite
  | .inWrite => some .ret
  | .printError => some .returnError
  | .ret | .returnError => none

/-- an access through a pointer that is not tested: `files` and `fileop->write` -/
def VfsPc.faults : VfsPc → Bool
  | .fcheckFiles | .callWrite => true
  | _ => false

/-! ## The module -/

inductive ModulePc where
  /-- in `vfs_module_init` -/
  | printLoaded | create | printFailed | wake | initReturn
  /-- loaded, until somebody removes it -/
  | live
  /-- in `vfs_module_exit` -/
  | printUnloaded | exitReturn
  /-- `vfs_module_exit` has returned, and the code is freed -/
  | released
  /-- `vfs_module_init` has returned an error -/
  | failed
  deriving DecidableEq, Repr

structure State where
  main : ModulePc
  kthread : Option (TaskStruct VfsPc)
  /-- the places of `thread_fn` that have been executed after the release -/
  late : List VfsPc
  deriving DecidableEq, Repr

def init : State := ⟨.printLoaded, none, []⟩

inductive ThreadEvent where
  | answer (yes : Bool)
  /-- an oops ends the thread -/
  | fault
  deriving DecidableEq, Repr

inductive Event where
  /-- a step of the module; `ok` is whether `kthread_create` succeeds -/
  | main (ok : Bool)
  | thread (e : ThreadEvent)
  deriving DecidableEq, Repr

def moduleStep (s : State) (ok : Bool) : Option State :=
  match s.main with
  | .printLoaded => some { s with main := .create }
  | .create =>
    some (if ok then { s with kthread := some kthreadCreate, main := .wake } else { s with main := .printFailed })
  | .printFailed => some { s with main := .failed }
  | .wake => some { s with kthread := s.kthread.map TaskStruct.wakeUp, main := .initReturn }
  | .initReturn => some { s with main := .live }
  | .live => some { s with main := .printUnloaded }
  | .printUnloaded => some { s with main := .exitReturn }
  | .exitReturn => some { s with main := .released }
  | .released | .failed => none

/-- the thread executes `pc`, and goes on at `place` -/
def State.executes (s : State) (a : TaskStruct VfsPc) (pc : VfsPc) (place : Place VfsPc) : State :=
  { s with kthread := some { a with place }, late := if s.main = .released then s.late ++ [pc] else s.late }

/-- where the statement at `pc` leads; an oops is possible only at some of them -/
def VfsPc.leads (pc : VfsPc) : ThreadEvent → Option (Place VfsPc)
  | .answer yes =>
    match pc.next yes with
    | some pc' => some (.fn pc')
    | none => some .exited
  | .fault => if pc.faults then some .exited else none

def threadStep (s : State) (e : ThreadEvent) : Option State :=
  match s.kthread with
  | none => none
  | some a =>
    match a.place with
    | .entry => (a.enter .printCurrent).map fun b => { s with kthread := some b }
    | .fn pc => (pc.leads e).map (s.executes a pc)
    | .inSchedule _ | .exited => none

def step (s : State) : Event → Option State
  | .main ok => moduleStep s ok
  | .thread e => threadStep s e

/-! ## Properties -/

/-- there is no thread, or it has left `thread_fn` -/
def State.Left (s : State) : Prop := ∀ a ∈ s.kthread, a.place = .exited

instance (s : State) : Decidable s.Left := inferInstanceAs (Decidable (∀ a ∈ s.kthread, _))

/-- a step that does not free the code under the thread -/
def FreesAfter (s : State) (_ : Event) (t : State) : Prop := s.main = .exitReturn → t.main = .released → s.Left

instance (s : State) (e : Event) (t : State) : Decidable (FreesAfter s e t) := inferInstanceAs (Decidable (_ → _ → _))

/-- the code is freed, and the thread will execute it -/
def Doomed (s : State) : Prop := s.late ≠ [] ∨ s.main = .released ∧ ¬ s.Left

/-! ## Steps -/

/-- the thread once `wake_up_process` has made it run -/
structure Awake (a : TaskStruct VfsPc) : Prop where
  state : a.state = .running
  shouldStop : a.shouldStop = false
  place : ∀ pc, a.place ≠ .inSchedule pc

def ThreadOf (k : Option (TaskStruct VfsPc)) : ModulePc → Prop
  | .printLoaded | .create | .printFailed | .failed => k = none
  | .wake => k = some kthreadCreate
  | .initReturn | .live | .printUnloaded | .exitReturn | .released => ∃ a, k = some a ∧ Awake a

variable {s t : State} {l : List Event} {e : Event} {te : ThreadEvent}

theorem leads_place {pc : VfsPc} {p : Place VfsPc} (h : pc.leads te = some p) : ∀ pc', p ≠ .inSchedule pc' := by
  intro pc'
  rintro rfl
  unfold VfsPc.leads at h
  cases te with
  | answer yes => cases hn : pc.next yes <;> simp [hn] at h
  | fault => simp at h

theorem ThreadOf.awake {a : TaskStruct VfsPc} {m : ModulePc} (h : ThreadOf (some a) m) : Awake a ∨ a = kthreadCreate := by
  have loaded : (∃ b, some a = some b ∧ Awake b) → Awake a := by
    rintro ⟨b, hb, hawake⟩
    cases hb
    exact hawake
  cases m with
  | printLoaded => cases h
  | create => cases h
  | printFailed => cases h
  | failed => cases h
  | wake => exact .inr (Option.some.inj h)
  | _ => exact .inl (loaded h)

theorem ThreadOf.replace {a b : TaskStruct VfsPc} {m : ModulePc} (h : ThreadOf (some a) m) (ha : Awake a)
    (hb : Awake b) : ThreadOf (some b) m := by
  cases m with
  | printLoaded => cases h
  | create => cases h
  | printFailed => cases h
  | failed => cases h
  | wake =>
    obtain rfl := Option.some.inj h
    cases ha.state
  | _ => exact ⟨b, rfl, hb⟩

/-- all that a step of the thread can do: it starts `thread_fn`, or executes a place of it -/
theorem threadStep_cases (hinv : ThreadOf s.kthread s.main) (hst : threadStep s te = some t) :
    ∃ a, s.kthread = some a ∧ Awake a ∧
      (a.place = .entry ∧ t = { s with kthread := some { a with place := .fn .printCurrent } } ∨
        ∃ pc p, a.place = .fn pc ∧ pc.leads te = some p ∧ t = s.executes a pc p) := by
  obtain ⟨main, kthread, late⟩ := s
  cases kthread with
  | none => cases hst
  | some a =>
    obtain hawake | rfl := ThreadOf.awake hinv
    · refine ⟨a, rfl, hawake, ?_⟩
      cases hplace : a.place with
      | entry =>
        simp only [threadStep, hplace, Option.map_eq_some_iff] at hst
        obtain ⟨b, hb, rfl⟩ := hst
        obtain ⟨-, rfl⟩ := enter_eq_some hb
        simp only [hawake.shouldStop, Bool.false_eq_true, if_false]
        exact .inl ⟨trivial, trivial⟩
      | fn pc =>
        simp only [threadStep, hplace, Option.map_eq_some_iff] at hst
        obtain ⟨p, hp, rfl⟩ := hst
        exact .inr ⟨pc, p, rfl, hp, rfl⟩
      | inSchedule pc => exact absurd hplace (hawake.place pc)
      | exited => simp [threadStep, hplace] at hst
    · cases hst

theorem threadStep_main (hinv : ThreadOf s.kthread s.main) (hst : threadStep s te = some t) : t.main = s.main := by
  obtain ⟨a, -, -, ⟨-, rfl⟩ | ⟨pc, p, -, -, rfl⟩⟩ := threadStep_cases hinv hst
  · rfl
  · rfl

theorem threadStep_inv (hinv : ThreadOf s.kthread s.main) (hst : threadStep s te = some t) :
    ThreadOf t.kthread t.main := by
  obtain ⟨a, ha, hawake, ⟨-, rfl⟩ | ⟨pc, p, -, hp, rfl⟩⟩ := threadStep_cases hinv hst
  · rw [ha] at hinv
    exact hinv.replace hawake ⟨hawake.state, hawake.shouldStop, fun _ => nofun⟩
  · rw [ha] at hinv
    exact hinv.replace hawake ⟨hawake.state, hawake.shouldStop, leads_place hp⟩

theorem moduleStep_inv {ok : Bool} (hinv : ThreadOf s.kthread s.main) (hst : moduleStep s ok = some t) :
    ThreadOf t.kthread t.main := by
  obtain ⟨main, kthread, late⟩ := s
  cases main with
  | create =>
    obtain rfl := Option.some.inj hst
    cases ok with
    | true => rfl
    | false => exact hinv
  | wake =>
    obtain rfl := Option.some.inj hst
    obtain rfl : kthread = some kthreadCreate := hinv
    exact ⟨_, rfl, rfl, rfl, fun _ => nofun⟩
  | released => cases hst
  | failed => cases hst
  | _ => obtain rfl := Option.some.inj hst; exact hinv

theorem step_inv (hinv : ThreadOf s.kthread s.main) (hst : step s e = some t) : ThreadOf t.kthread t.main := by
  cases e with
  | main ok => exact moduleStep_inv hinv hst
  | thread te => exact threadStep_inv hinv hst

/-- a step of the module leaves `late` as it is, and the thread too once it has been woken -/
theorem moduleStep_frame {ok : Bool} (hst : moduleStep s ok = some t) :
    t.late = s.late ∧ s.main ≠ .released ∧ (t.main = .released → s.main = .exitReturn ∧ t.kthread = s.kthread) := by
  obtain ⟨main, kthread, late⟩ := s
  cases main with
  | create =>
    obtain rfl := Option.some.inj hst
    cases ok with
    | true => exact ⟨rfl, nofun, nofun⟩
    | false => exact ⟨rfl, nofun, nofun⟩
  | exitReturn => obtain rfl := Option.some.inj hst; exact ⟨rfl, nofun, fun _ => ⟨rfl, rfl⟩⟩
  | released => cases hst
  | failed => cases hst
  | _ => obtain rfl := Option.some.inj hst; exact ⟨rfl, nofun, nofun⟩

/-! ## Freed code -/

/-- a thread that has left takes no step -/
theorem left_stuck (hleft : s.Left) : threadStep s te = none := by
  unfold threadStep
  cases hk : s.kthread with
  | none => rfl
  | some a =>
    have hplace : a.place = .exited := hleft a hk
    simp only [hplace]

/-- no place of `thread_fn` is the last one that a thread can reach without leaving -/
theorem exists_leads (pc : VfsPc) : ∃ p, pc.leads (.answer true) = some p := by
  cases hn : pc.next true with
  | none => exact ⟨.exited, by simp [VfsPc.leads, hn]⟩
  | some pc' => exact ⟨.fn pc', by simp [VfsPc.leads, hn]⟩

theorem doomed_of_executes {a : TaskStruct VfsPc} {pc : VfsPc} {p : Place VfsPc} (hrel : s.main = .released) :
    (s.executes a pc p).late ≠ [] := by
  simp [State.executes, hrel]

theorem threadStep_doomed (hinv : ThreadOf s.kthread s.main) (hd : Doomed s) (hst : threadStep s te = some t) :
    Doomed t := by
  obtain ⟨a, ha, -, ⟨-, rfl⟩ | ⟨pc, p, -, -, rfl⟩⟩ := threadStep_cases hinv hst
  · obtain hlate | ⟨hrel, -⟩ := hd
    · exact .inl hlate
    · refine .inr ⟨hrel, fun hleft => ?_⟩
      cases hleft _ rfl
  · obtain hlate | ⟨hrel, -⟩ := hd
    · refine .inl ?_
      unfold State.executes
      split_ifs
      · exact List.append_ne_nil_of_left_ne_nil hlate [pc]
      · exact hlate
    · exact .inl (doomed_of_executes hrel)

theorem step_doomed (hinv : ThreadOf s.kthread s.main) (hd : Doomed s) (hst : step s e = some t) : Doomed t := by
  cases e with
  | thread te => exact threadStep_doomed hinv hd hst
  | main ok =>
    obtain ⟨hlate, hrel, -⟩ := moduleStep_frame hst
    obtain h | ⟨h, -⟩ := hd
    · exact .inl (hlate ▸ h)
    · exact absurd h hrel

/-- freeing the code under the thread dooms it -/
theorem step_frees (hinv : ThreadOf s.kthread s.main) (hst : step s e = some t) (hC : ¬ FreesAfter s e t) :
    Doomed t := by
  unfold FreesAfter at hC
  push Not at hC
  obtain ⟨hret, hrel, hleft⟩ := hC
  cases e with
  | thread te =>
    have hmain := threadStep_main hinv hst
    rw [hrel, hret] at hmain
    cases hmain
  | main ok =>
    obtain ⟨-, -, hframe⟩ := moduleStep_frame hst
    refine .inr ⟨hrel, ?_⟩
    unfold State.Left
    rw [(hframe hrel).2]
    exact hleft

/-- the next place of a thread that is in `thread_fn` -/
theorem fn_late {a : TaskStruct VfsPc} {pc : VfsPc} (hrel : s.main = .released) (ha : s.kthread = some a)
    (hplace : a.place = .fn pc) : ∃ t, threadStep s (.answer true) = some t ∧ t.late ≠ [] := by
  obtain ⟨p, hp⟩ := exists_leads pc
  exact ⟨s.executes a pc p, by simp [threadStep, ha, hplace, hp], doomed_of_executes hrel⟩

/-- a doomed thread can go on to execute freed code -/
theorem Doomed.late (hinv : ThreadOf s.kthread s.main) (hd : Doomed s) :
    ∃ l t, Run (Takes threadStep) s l t ∧ t.late ≠ [] := by
  obtain hlate | ⟨hrel, hleft⟩ := hd
  · exact ⟨[], s, .nil s, hlate⟩
  · obtain ⟨a, ha, hawake⟩ : ∃ a, s.kthread = some a ∧ Awake a := by
      rw [hrel] at hinv
      exact hinv
    cases hplace : a.place with
    | entry =>
      let b : TaskStruct VfsPc := { a with place := .fn .printCurrent }
      have hstart : threadStep s (.answer true) = some { s with kthread := some b } := by
        simp [threadStep, ha, hplace, TaskStruct.enter, hawake.state, hawake.shouldStop, b]
      obtain ⟨t, ht, hlate⟩ := fn_late (s := { s with kthread := some b }) hrel rfl rfl
      exact ⟨[.answer true, .answer true], t, .cons hstart (.cons ht (.nil t)), hlate⟩
    | fn pc =>
      obtain ⟨t, ht, hlate⟩ := fn_late hrel ha hplace
      exact ⟨[.answer true], t, .cons ht (.nil t), hlate⟩
    | inSchedule pc => exact absurd hplace (hawake.place pc)
    | exited =>
      refine absurd (fun b hb => ?_) hleft
      rw [ha] at hb
      cases hb
      exact hplace

/-! ## Result -/

/-- the thread has executed no freed code, and if the code is freed the thread has left -/
structure Safe (s : State) : Prop where
  inv : ThreadOf s.kthread s.main
  late : s.late = []
  left : s.main = .released → s.Left

theorem threadStep_safe (hs : Safe s) (hst : threadStep s te = some t) : Safe t := by
  have hrel : s.main ≠ .released := by
    intro h
    rw [left_stuck (hs.left h)] at hst
    cases hst
  have hmain := threadStep_main hs.inv hst
  refine ⟨threadStep_inv hs.inv hst, ?_, fun h => absurd (hmain ▸ h) hrel⟩
  obtain ⟨a, -, -, ⟨-, rfl⟩ | ⟨pc, p, -, -, rfl⟩⟩ := threadStep_cases hs.inv hst
  · exact hs.late
  · simpa only [State.executes, if_neg hrel] using hs.late

theorem step_safe (hs : Safe s) (hC : FreesAfter s e t) (hst : step s e = some t) : Safe t := by
  cases e with
  | thread te => exact threadStep_safe hs hst
  | main ok =>
    obtain ⟨hlate, -, hframe⟩ := moduleStep_frame hst
    refine ⟨moduleStep_inv hs.inv hst, hlate.trans hs.late, fun hrel => ?_⟩
    obtain ⟨hret, hk⟩ := hframe hrel
    unfold State.Left
    rw [hk]
    exact hC hret hrel

/-- **Exactly when no freed code is executed**: in the run, and however the thread goes on after it. -/
theorem unload_iff (h : Run (Takes step) init l s) :
    (∀ l' t, Run (Takes threadStep) s l' t → t.late = []) ↔ Along (Takes step) FreesAfter init l := by
  have hinit : ThreadOf init.kthread init.main := rfl
  have hinv : ThreadOf s.kthread s.main :=
    Run.inv (I := fun s => ThreadOf s.kthread s.main) (fun _ _ _ hs hst => step_inv hs hst) h hinit
  constructor
  · intro hlate
    apply Along.of_not (J := fun s => ThreadOf s.kthread s.main) (L := Doomed) (fun _ _ _ hs hst => step_inv hs hst)
      (fun _ _ _ hs hd hst => step_doomed hs hd hst) (fun _ _ _ hs hst hC => step_frees hs hst hC) h hinit
    intro hd
    obtain ⟨l', t, ht, hne⟩ := hd.late hinv
    exact hne (hlate l' t ht)
  · intro hC l' t ht
    have hsafe : Safe s := Along.inv (I := Safe) (fun _ _ _ hs hc hst => step_safe hs hc hst) hC h
      ⟨hinit, rfl, nofun⟩
    exact (Run.inv (I := Safe) (fun _ _ _ hs hst => threadStep_safe hs hst) ht hsafe).late

/-- the other process is gone, and the module is removed after the thread -/
theorem unload_after_thread : ∃ l s, Run (Takes step) init l s ∧ s.main = .released ∧
    ((∀ l' t, Run (Takes threadStep) s l' t → t.late = []) ↔ Along (Takes step) FreesAfter init l) := by
  let l : List Event := List.replicate 4 (.main true) ++ List.replicate 11 (.thread (.answer true)) ++
    List.replicate 3 (.main true)
  have h : Run (Takes step) init l ⟨.released, some ⟨.exited, .running, false⟩, []⟩ := run_takes_iff.2 rfl
  exact ⟨l, _, h, rfl, unload_iff h⟩

/-- the module is removed before the thread starts -/
theorem freed_under_thread : ∃ l s, Run (Takes step) init l s ∧ s.late = [.printCurrent, .compare] :=
  ⟨List.replicate 7 (.main true) ++ List.replicate 3 (.thread (.answer true)), _, run_takes_iff.2 rfl, rfl⟩

end Cse422.VfsThread
