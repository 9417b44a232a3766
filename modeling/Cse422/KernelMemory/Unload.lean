/-
How the unloading of `kernel_memory` ends. `kernel_memory_exit` waits in `kthread_stop` for the thread, which may be
anywhere in `thread_fn`: before the allocation, in the loops, or in its wait for the stop flag. The thread never leaves
TASK_RUNNING, so no wake-up is lost.

- `step_work`: once the stop flag is set, each step of the thread and of `kernel_memory_exit` lowers the `work` that is
  left, and a write of the parameter leaves it;
- `unload_completes`: the steps from then on are bounded by that work. When neither has a step left, the thread is gone,
  and `kernel_memory_exit` has returned if the run has been orderly, and has died in an oops if not;
- `unload_completes_both`: runs of both kinds.

Premise: `kthread_stop` is called of a thread that is still there. A thread that a faulting write has ended before the
call has taken its `task_struct` with it, and nothing is said of such a call.
-/
import Cse422.KernelMemory.Ownership

namespace Cse422.KernelMemory

open Lts Kthread

variable {B : Board}

/-! ## Work -/

/-- the loops are over after at most as many steps, whatever the globals hold -/
def mostLoops : ℕ := 2 ^ 32 * (2 ^ 32 * (arrSize + 2) + 2)

/-- the steps of the thread that are left once its stop flag is set -/
def placeWork (nrPages perPage : ℕ) : Place ThreadPc → ℕ
  | .entry => mostLoops + 9
  | .fn .perPage => mostLoops + 8
  | .fn .divide => mostLoops + 7
  | .fn .remainder => mostLoops + 6
  | .fn .order => mostLoops + 5
  | .fn .alloc => mostLoops + 4
  | .fn .phys => mostLoops + 3
  | .fn (.loops _ p) => p.rest nrPages perPage arrSize + 2
  | .fn .sched => 2
  | .fn .test => 1
  | .inSchedule _ | .exited => 0

/-- the steps of `kernel_memory_exit` that are left -/
def ExitPc.work (nrPages perPage : ℕ) : ExitPc → ℕ
  | .live => mostLoops + 6
  | .wake => mostLoops + 5
  | .wait => mostLoops + 4
  | .phys => mostLoops + 3
  | .loops _ p _ => p.rest nrPages perPage arrSize + 2
  | .free _ => 1
  | .done _ | .oops => 0

def St.work (s : St B) : ℕ :=
  (s.kthread.elim 0 fun a => placeWork s.nrPages.toNat s.nrStructsPerPage.toNat a.place) +
    s.exit.work s.nrPages.toNat s.nrStructsPerPage.toNat

/-- a write of the parameter -/
def Ev.isParam : Ev B → Bool
  | .param _ => true
  | _ => false

theorem rest_le_mostLoops (nrPages perPage : Words.Word) :
    (Nest.Place.outer 0).rest nrPages.toNat perPage.toNat arrSize ≤ mostLoops := by
  have hpages := nrPages.isLt
  have hper := perPage.isLt
  have hinner : perPage.toNat * (arrSize + 2) + 2 ≤ 2 ^ 32 * (arrSize + 2) + 2 := by
    gcongr
  calc (nrPages.toNat - 0) * (perPage.toNat * (arrSize + 2) + 2)
      ≤ nrPages.toNat * (2 ^ 32 * (arrSize + 2) + 2) := Nat.mul_le_mul (Nat.sub_le _ _) hinner
    _ ≤ mostLoops := Nat.mul_le_mul_right _ hpages.le

/-- the weight of a thread that is before its loops does not depend on the globals -/
theorem exitWork_congr {x : ExitPc} (hx : ¬ x.Past) (n m n' m' : ℕ) : x.work n m = x.work n' m' := by
  cases x with
  | live | wake | wait => rfl
  | phys | loops _ _ _ | free _ | done _ | oops => exact absurd trivial hx

/-! ## The thread and the stop flag -/

/-- what holds of the thread in every run -/
structure ThreadSound (s : St B) : Prop where
  /-- `kernel_memory_exit` is called only of a loaded module -/
  live : s.init ≠ .loaded → s.exit = .live
  born : s.init = .wake → s.kthread.isSome
  running : s.init = .loaded → ∃ a, s.kthread = some a ∧ a.state = .running ∧ (∀ pc, a.place ≠ .inSchedule pc) ∧
    (s.exit ≠ .live → a.shouldStop = true)
  /-- a thread that has not been woken is where `kthread_create` has left it -/
  unwoken : s.init = .wake → ∀ a ∈ s.kthread, a.place = .entry ∧ a.state = .uninterruptible

theorem ThreadSound.loaded {s : St B} (h : ThreadSound s) (hx : s.exit ≠ .live) : s.init = .loaded := by
  by_contra hne
  exact hx (h.live hne)

theorem threadSound_start (nrStructs : Words.Word) (mem : Words.Mem) : ThreadSound (start nrStructs mem : St B) where
  live _ := rfl
  born h := by cases h
  running h := by cases h
  unwoken h := by cases h

/-- a running thread stays running, and is in no `schedule` -/
theorem threadStep_running {s t : St B} {a : TaskStruct ThreadPc} {b : Option (Block B)} (hrun : a.state = .running)
    (hin : ∀ pc, a.place ≠ .inSchedule pc) (h : threadStep s a b = some t) :
    ∃ c, t.kthread = some c ∧ c.state = .running ∧ (∀ pc, c.place ≠ .inSchedule pc) := by
  cases hp : a.place with
  | entry =>
    simp only [threadStep, hp] at h
    obtain ⟨c, hc, rfl⟩ := Option.map_eq_some_iff.1 h
    obtain ⟨-, rfl⟩ := enter_eq_some hc
    refine ⟨_, rfl, hrun, fun pc => ?_⟩
    simp only
    split_ifs <;> simp
  | fn pc =>
    simp only [threadStep, hp] at h
    cases pc with
    | loops phys p =>
      obtain rfl := Option.some.inj h
      unfold writeLoops
      split
      · exact ⟨_, rfl, hrun, by simp⟩
      · exact ⟨_, rfl, hrun, by simp⟩
      · split_ifs <;> exact ⟨_, rfl, hrun, by simp⟩
    | alloc =>
      simp only [threadFn] at h
      split_ifs at h
      obtain rfl := Option.some.inj h
      exact ⟨_, rfl, hrun, by simp⟩
    | test =>
      obtain rfl := Option.some.inj h
      refine ⟨_, rfl, hrun, fun pc => ?_⟩
      simp only
      split_ifs <;> simp
    | sched =>
      obtain rfl := Option.some.inj h
      refine ⟨_, rfl, by simpa using hrun, fun pc => ?_⟩
      simp [TaskStruct.schedule, hrun]
    | _ =>
      obtain rfl := Option.some.inj h
      exact ⟨_, rfl, hrun, by simp⟩
  | inSchedule pc => exact absurd hp (hin pc)
  | exited => simp [threadStep, hp] at h

theorem threadStep_threadSound {s t : St B} {a : TaskStruct ThreadPc} {b : Option (Block B)} (hs : ThreadSound s)
    (hb : Basic s) (ha : s.kthread = some a) (h : threadStep s a b = some t) : ThreadSound t := by
  obtain ⟨c, hm⟩ := threadStep_moves h
  cases hi : s.init with
  | create | failed => rw [hb.unborn (by simp [hi])] at ha; cases ha
  | wake =>
    -- it cannot move before it is woken
    obtain ⟨hp, hst⟩ := hs.unwoken hi a ha
    simp [threadStep, hp, TaskStruct.enter, hst] at h
  | loaded =>
    obtain ⟨a', ha', hrun, hin, hstop⟩ := hs.running hi
    obtain rfl := Option.some.inj (ha.symm.trans ha')
    obtain ⟨d, hd, hrun', hin'⟩ := threadStep_running hrun hin h
    obtain rfl := Option.some.inj (hm.kthread.symm.trans hd)
    have hinit : t.init = .loaded := hm.init.trans hi
    refine ⟨fun hne => absurd hinit hne, fun hw => ?_, fun _ => ⟨c, hd, hrun', hin', fun hx => ?_⟩, fun hw => ?_⟩
    · rw [hinit] at hw
      cases hw
    · exact hm.flag.trans (hstop (hm.exit ▸ hx))
    · rw [hinit] at hw
      cases hw

theorem exitStep_threadSound {s t : St B} (hs : ThreadSound s) (h : exitStep s = some t) : ThreadSound t := by
  have hloaded : s.init = .loaded := by
    by_contra hne
    simp only [exitStep, hs.live hne] at h
    split_ifs at h
  obtain ⟨a, ha, hrun, hin, hstop⟩ := hs.running hloaded
  suffices hthread : t.init = .loaded ∧ ∃ c, t.kthread = some c ∧ c.state = .running ∧ (∀ pc, c.place ≠ .inSchedule pc) ∧
      c.shouldStop = true by
    obtain ⟨hinit, c, hc, hrun', hin', hstop'⟩ := hthread
    refine ⟨fun hne => absurd hinit hne, fun hw => ?_, fun _ => ⟨c, hc, hrun', hin', fun _ => hstop'⟩, fun hw => ?_⟩
    · rw [hinit] at hw
      cases hw
    · rw [hinit] at hw
      cases hw
  by_cases hx : s.exit.Past
  · have hm := exitStep_check h hx
    refine ⟨hm.init.trans hloaded, a, hm.kthread.trans ha, hrun, hin, hstop ?_⟩
    rintro hl
    rw [hl] at hx
    exact hx
  · cases hs' : s.exit with
    | live =>
      simp only [exitStep, hs', hloaded, if_true] at h
      obtain rfl := Option.some.inj h
      exact ⟨rfl, a.setStop, by simp [ha], hrun, hin, rfl⟩
    | wake =>
      simp only [exitStep, hs'] at h
      obtain rfl := Option.some.inj h
      exact ⟨hloaded, a.wakeUp, by simp [ha], rfl, hin, hstop (by simp [hs'])⟩
    | wait =>
      simp only [exitStep, hs'] at h
      split_ifs at h
      obtain rfl := Option.some.inj h
      exact ⟨hloaded, a, ha, hrun, hin, hstop (by simp [hs'])⟩
    | phys | loops _ _ _ | free _ | done _ | oops => exact absurd (by rw [hs']; trivial) hx

theorem initStep_threadSound {s t : St B} {ok : Bool} (hs : ThreadSound s) (h : initStep s ok = some t) : ThreadSound t := by
  cases hi : s.init with
  | create =>
    have hlive := hs.live (by simp [hi])
    simp only [initStep, hi] at h
    split_ifs at h
    · obtain rfl := Option.some.inj h
      refine ⟨fun _ => hlive, fun _ => rfl, fun hl => (by cases hl), fun _ a ha => ?_⟩
      obtain rfl := Option.some.inj ha
      exact ⟨rfl, rfl⟩
    · obtain rfl := Option.some.inj h
      exact ⟨fun _ => hlive, fun hw => (by cases hw), fun hl => (by cases hl), fun hw => by cases hw⟩
  | wake =>
    have hlive := hs.live (by simp [hi])
    obtain ⟨a, ha⟩ := Option.isSome_iff_exists.1 (hs.born hi)
    obtain ⟨hp, -⟩ := hs.unwoken hi a ha
    simp only [initStep, hi, Option.some.injEq] at h
    subst h
    refine ⟨fun _ => hlive, fun hw => (by cases hw), fun _ => ⟨a.wakeUp, by simp [ha], rfl, ?_, ?_⟩, fun hw => by cases hw⟩
    · simp [hp]
    · exact fun hx => absurd hlive hx
  | loaded => simp [initStep, hi] at h
  | failed => simp [initStep, hi] at h

theorem step_threadSound {s t : St B} {ev : Ev B} (hs : ThreadSound s) (hb : Basic s) (h : step s ev = some t) :
    ThreadSound t := by
  cases ev with
  | init ok => exact initStep_threadSound hs h
  | thread b =>
    simp only [step] at h
    split at h
    · cases h
    · rename_i a ha
      exact threadStep_threadSound hs hb ha h
  | exit => exact exitStep_threadSound hs h
  | param n =>
    obtain rfl := Option.some.inj h
    exact ⟨hs.live, hs.born, hs.running, hs.unwoken⟩

/-! ## Termination -/

/-- what `kthread_stop` leaves of the thread -/
structure Told (s : St B) (a : TaskStruct ThreadPc) : Prop where
  kthread : s.kthread = some a
  shouldStop : a.shouldStop = true
  running : a.state = .running
  notIn : ∀ pc, a.place ≠ .inSchedule pc

theorem ThreadSound.told {s : St B} (h : ThreadSound s) (hx : s.exit ≠ .live) : ∃ a, Told s a := by
  obtain ⟨a, ha, hrun, hin, hstop⟩ := h.running (h.loaded hx)
  exact ⟨a, ha, hstop hx, hrun, hin⟩

theorem work_of_kthread {s : St B} {a : TaskStruct ThreadPc} (h : s.kthread = some a) :
    s.work = placeWork s.nrPages.toNat s.nrStructsPerPage.toNat a.place +
      s.exit.work s.nrPages.toNat s.nrStructsPerPage.toNat := by rw [St.work, h, Option.elim_some]

theorem writeLoops_work {s : St B} {a : TaskStruct ThreadPc} {phys : ℕ} {p : Nest.Place} (ha : s.kthread = some a)
    (hp : a.place = .fn (.loops phys p)) : (writeLoops s a phys p).work < s.work := by
  have hwork := work_of_kthread ha
  rw [hp] at hwork
  unfold writeLoops
  split
  · simp only [St.work, Option.elim_some, placeWork] at hwork ⊢
    omega
  · rename_i q hq
    have hrest := Nest.rest_move hq
    simp only [St.work, Option.elim_some, placeWork] at hwork ⊢
    omega
  · rename_i i j k q hq
    have hrest := Nest.rest_visit hq
    split_ifs <;> simp only [St.work, Option.elim_some, placeWork] at hwork ⊢ <;> omega

/-- a step of the thread that leaves it at a place with less work -/
theorem work_lt_of_place {s t : St B} {a c : TaskStruct ThreadPc} (ha : s.kthread = some a) (hc : t.kthread = some c)
    (hexit : t.exit = s.exit) (hx : ¬ s.exit.Past)
    (hlt : placeWork t.nrPages.toNat t.nrStructsPerPage.toNat c.place <
      placeWork s.nrPages.toNat s.nrStructsPerPage.toNat a.place) : t.work < s.work := by
  rw [work_of_kthread ha, work_of_kthread hc, hexit,
    exitWork_congr hx t.nrPages.toNat t.nrStructsPerPage.toNat s.nrPages.toNat s.nrStructsPerPage.toNat]
  exact Nat.add_lt_add_right hlt _

theorem threadStep_work {s t : St B} {a : TaskStruct ThreadPc} {b : Option (Block B)} (ha : Told s a)
    (hx : ¬ s.exit.Past) (h : threadStep s a b = some t) : t.work < s.work := by
  cases hp : a.place with
  | entry =>
    simp only [threadStep, hp] at h
    obtain ⟨c, hc, rfl⟩ := Option.map_eq_some_iff.1 h
    obtain ⟨-, rfl⟩ := enter_eq_some hc
    refine work_lt_of_place ha.kthread rfl rfl hx ?_
    simp only [hp, ha.shouldStop, if_true]
    exact Nat.succ_pos _
  | fn pc =>
    simp only [threadStep, hp] at h
    cases pc with
    | loops phys p =>
      obtain rfl := Option.some.inj h
      exact writeLoops_work ha.kthread hp
    | alloc =>
      simp only [threadFn] at h
      split_ifs at h
      obtain rfl := Option.some.inj h
      refine work_lt_of_place ha.kthread rfl rfl hx ?_
      simp only [hp, placeWork]
      omega
    | phys =>
      obtain rfl := Option.some.inj h
      have hle := rest_le_mostLoops s.nrPages s.nrStructsPerPage
      refine work_lt_of_place ha.kthread rfl rfl hx ?_
      simp only [hp, placeWork]
      omega
    | test =>
      obtain rfl := Option.some.inj h
      refine work_lt_of_place ha.kthread rfl rfl hx ?_
      simp only [hp, ha.shouldStop, if_true]
      exact Nat.succ_pos _
    | sched =>
      obtain rfl := Option.some.inj h
      refine work_lt_of_place ha.kthread rfl rfl hx ?_
      simp [hp, placeWork, TaskStruct.schedule, ha.running]
    | perPage | divide | remainder | order =>
      obtain rfl := Option.some.inj h
      refine work_lt_of_place ha.kthread rfl rfl hx ?_
      simp only [hp, placeWork]
      omega
  | inSchedule pc => exact absurd hp (ha.notIn pc)
  | exited => simp [threadStep, hp] at h

/-- a step of `kernel_memory_exit` that leaves the thread where it is -/
theorem work_lt_of_exit {s t : St B} {a c : TaskStruct ThreadPc} (ha : s.kthread = some a) (hc : t.kthread = some c)
    (hplace : c.place = a.place) (hpages : t.nrPages = s.nrPages) (hper : t.nrStructsPerPage = s.nrStructsPerPage)
    (hlt : t.exit.work s.nrPages.toNat s.nrStructsPerPage.toNat < s.exit.work s.nrPages.toNat s.nrStructsPerPage.toNat) :
    t.work < s.work := by
  rw [work_of_kthread ha, work_of_kthread hc, hplace, hpages, hper]
  exact Nat.add_lt_add_left hlt _

/-- a statement of the loops of `kernel_memory_exit` -/
theorem checkLoops_work (s : St B) (phys : ℕ) (p : Nest.Place) (clean : Bool) :
    (checkLoops s phys p clean).kthread = s.kthread ∧ (checkLoops s phys p clean).nrPages = s.nrPages ∧
      (checkLoops s phys p clean).nrStructsPerPage = s.nrStructsPerPage ∧
      (checkLoops s phys p clean).exit.work s.nrPages.toNat s.nrStructsPerPage.toNat <
        (ExitPc.loops phys p clean).work s.nrPages.toNat s.nrStructsPerPage.toNat := by
  unfold checkLoops
  split
  · exact ⟨rfl, rfl, rfl, by simp only [ExitPc.work]; omega⟩
  · rename_i q hq
    have hrest := Nest.rest_move hq
    exact ⟨rfl, rfl, rfl, by simp only [ExitPc.work]; omega⟩
  · rename_i i j k q hq
    have hrest := Nest.rest_visit hq
    split_ifs
    · exact ⟨rfl, rfl, rfl, by simp only [ExitPc.work]; omega⟩
    · exact ⟨rfl, rfl, rfl, by simp only [ExitPc.work]; omega⟩

theorem exitStep_work {s t : St B} {a : TaskStruct ThreadPc} (ha : s.kthread = some a) (h : exitStep s = some t) :
    t.work < s.work := by
  cases hx : s.exit with
  | live =>
    simp only [exitStep, hx] at h
    split_ifs at h
    obtain rfl := Option.some.inj h
    refine work_lt_of_exit (c := a.setStop) ha (by simp [ha]) rfl rfl rfl ?_
    simp only [hx, ExitPc.work]
    omega
  | wake =>
    simp only [exitStep, hx] at h
    obtain rfl := Option.some.inj h
    refine work_lt_of_exit (c := a.wakeUp) ha (by simp [ha]) rfl rfl rfl ?_
    simp only [hx, ExitPc.work]
    omega
  | wait =>
    simp only [exitStep, hx] at h
    split_ifs at h
    obtain rfl := Option.some.inj h
    refine work_lt_of_exit ha ha rfl rfl rfl ?_
    simp only [hx, ExitPc.work]
    omega
  | phys =>
    simp only [exitStep, hx] at h
    obtain rfl := Option.some.inj h
    have hle := rest_le_mostLoops s.nrPages s.nrStructsPerPage
    refine work_lt_of_exit ha ha rfl rfl rfl ?_
    simp only [hx, ExitPc.work]
    omega
  | loops phys p clean =>
    simp only [exitStep, hx] at h
    obtain rfl := Option.some.inj h
    obtain ⟨hk, hpages, hper, hlt⟩ := checkLoops_work s phys p clean
    refine work_lt_of_exit ha (hk.trans ha) rfl hpages hper ?_
    rw [hx]
    exact hlt
  | free clean =>
    simp only [exitStep, hx] at h
    obtain rfl := Option.some.inj h
    refine work_lt_of_exit ha ha rfl rfl rfl ?_
    simp only [hx, ExitPc.work]
    split_ifs <;> exact Nat.one_pos
  | done clean => simp [exitStep, hx] at h
  | oops => simp [exitStep, hx] at h

/-- the invariant of the unload -/
structure Stopping (s : St B) : Prop where
  basic : Basic s
  sound : ThreadSound s
  called : s.exit ≠ .live

theorem step_stopping {s t : St B} {ev : Ev B} (hs : Stopping s) (h : step s ev = some t) : Stopping t := by
  refine ⟨step_basic hs.basic h, step_threadSound hs.sound hs.basic h, fun hx => hs.called ?_⟩
  cases ev with
  | init ok => simp [step, initStep, hs.sound.loaded hs.called] at h
  | thread b =>
    simp only [step] at h
    split at h
    · cases h
    · obtain ⟨c, hm⟩ := threadStep_moves h
      exact hm.exit ▸ hx
  | exit =>
    have hne := hs.called
    by_contra hc
    simp only [step] at h
    by_cases hp : s.exit.Past
    · have hpast := (exitStep_check h hp).past
      rw [hx] at hpast
      exact hpast
    · cases hs' : s.exit with
      | live => exact hne hs'
      | wake =>
        simp only [exitStep, hs'] at h
        obtain rfl := Option.some.inj h
        cases hx
      | wait =>
        simp only [exitStep, hs'] at h
        split_ifs at h
        obtain rfl := Option.some.inj h
        cases hx
      | phys | loops _ _ _ | free _ | done _ | oops => exact absurd (by rw [hs']; trivial) hp
  | param n =>
    obtain rfl := Option.some.inj h
    exact hx

/-- **A step and the work that is left.** -/
theorem step_work {s t : St B} {ev : Ev B} (hs : Stopping s) (h : step s ev = some t) :
    t.work + (if ev.isParam then 0 else 1) ≤ s.work := by
  obtain ⟨a, ha⟩ := hs.sound.told hs.called
  cases ev with
  | init ok => simp [step, initStep, hs.sound.loaded hs.called] at h
  | thread b =>
    simp only [step, ha.kthread] at h
    refine threadStep_work ha (fun hx => ?_) h
    obtain ⟨c, hm⟩ := threadStep_moves h
    refine hm.running ?_
    have hplace := hs.basic.past hx
    rw [place?, ha.kthread] at hplace
    exact Option.some.inj hplace
  | exit => exact exitStep_work ha.kthread h
  | param n =>
    obtain rfl := Option.some.inj h
    exact le_rfl

theorem run_work {s t : St B} {l : List (Ev B)} (hs : Stopping s) (h : Run (Takes step) s l t) :
    l.countP (fun ev => !ev.isParam) + t.work ≤ s.work := by
  induction h with
  | nil s => rw [List.countP_nil, Nat.zero_add]
  | @cons s u t ev l h1 _ ih =>
    have hstep := step_work hs h1
    have hrest := ih (step_stopping hs h1)
    rw [List.countP_cons]
    cases hev : ev.isParam <;> simp only [hev] at hstep ⊢ <;> simp at hstep ⊢ <;> omega

/-- neither party has a step left; others may still write the parameter -/
def Stuck (s : St B) : Prop := ∀ ev : Ev B, ev.isParam = false → step s ev = none

theorem Stuck.of_gone {s : St B} (hinit : s.init = .loaded) (hplace : place? s = some .exited)
    (hexit : exitStep s = none) : Stuck s := by
  obtain ⟨a, ha, hp⟩ := Option.map_eq_some_iff.1 hplace
  intro ev hev
  cases ev with
  | init ok => simp [step, initStep, hinit]
  | thread b => simp [step, ha, threadStep, hp]
  | exit => exact hexit
  | param n => cases hev

/-- a module in which nothing but the parameter can change -/
theorem Stuck.over {s : St B} (h : Stuck s) (hs : Stopping s) :
    place? s = some .exited ∧ ((∃ c, s.exit = .done c) ∨ s.exit = .oops) := by
  obtain ⟨a, ha⟩ := hs.sound.told hs.called
  have hthread : threadStep s a none = none := by
    have hnone := h (.thread none) rfl
    simpa only [step, ha.kthread] using hnone
  have hexited : a.place = .exited := by
    cases hp : a.place with
    | entry => simp [threadStep, hp, TaskStruct.enter, ha.running, ha.shouldStop] at hthread
    | fn pc => cases pc <;> simp [threadStep, hp, threadFn] at hthread
    | inSchedule pc => exact absurd hp (ha.notIn pc)
    | exited => rfl
  have hplace : place? s = some .exited := by rw [place?, ha.kthread, Option.map_some, hexited]
  refine ⟨hplace, ?_⟩
  have hexit : exitStep s = none := h .exit rfl
  cases hx : s.exit with
  | live => exact absurd hx hs.called
  | wait =>
    have hwaited : s.kthread.map TaskStruct.place = some .exited := hplace
    simp [exitStep, hx, hwaited] at hexit
  | wake | phys | loops _ _ _ | free _ => simp [exitStep, hx] at hexit
  | done c => exact Or.inl ⟨c, rfl⟩
  | oops => exact Or.inr rfl

theorem reaches_stopping {nrStructs : Words.Word} {mem : Words.Mem} {l : List (Ev B)} {s : St B}
    (h : Reaches nrStructs mem l s) (hx : s.exit ≠ .live) : Stopping s := by
  have hI : Basic s ∧ ThreadSound s :=
    Run.inv (I := fun s => Basic s ∧ ThreadSound s)
      (fun _ _ _ hs hst => ⟨step_basic hs.1 hst, step_threadSound hs.2 hs.1 hst⟩) h
      ⟨start_basic nrStructs mem, threadSound_start nrStructs mem⟩
  exact ⟨hI.1, hI.2, hx⟩

/-- `kernel_memory_exit` returns only from an orderly run -/
theorem orderly_of_done {nrStructs : Words.Word} {mem : Words.Mem} {l : List (Ev B)} {s : St B} {c : Bool}
    (h : Reaches nrStructs mem l s) (hc : s.exit = .done c) : Along (Takes step) Orderly (start nrStructs mem) l := by
  have hpages := (reaches_basic h).done c hc
  refine Along.of_not (fun _ _ _ hs hst => step_basic hs hst) (fun _ _ _ hs hl hst => step_lost hs hl hst)
    (fun _ _ _ hs hst hb => lost_of_not_orderly hs hst hb) h (start_basic nrStructs mem) fun hl => ?_
  rw [hl.pages] at hpages
  cases hpages

/-- **The unloading ends,** with a return or in an oops. The proof does not use that the thread is still there: it is a
premise about `kthread_stop`. -/
theorem unload_completes {nrStructs : Words.Word} {mem : Words.Mem} {l : List (Ev B)} {s : St B}
    (h : Reaches nrStructs mem l s) (hx : s.exit = .wake) (_hthread : place? s ≠ some .exited) :
    (∀ k t, Run (Takes step) s k t → k.countP (fun ev => !ev.isParam) ≤ s.work) ∧
    ∀ k t, Run (Takes step) s k t → Stuck t → place? t = some .exited ∧
      ((∃ c, t.exit = .done c) ∧ Along (Takes step) Orderly (start nrStructs mem) (l ++ k) ∨
        t.exit = .oops ∧ ¬ Along (Takes step) Orderly (start nrStructs mem) (l ++ k)) := by
  have hs : Stopping s := reaches_stopping h (by simp [hx])
  refine ⟨fun k t hk => (Nat.le_add_right _ _).trans (run_work hs hk), fun k t hk hstuck => ?_⟩
  have hr : Reaches nrStructs mem (l ++ k) t := run_append_iff.2 ⟨s, h, hk⟩
  obtain ⟨hplace, hover⟩ := hstuck.over (Run.inv (I := Stopping) (fun _ _ _ hs hst => step_stopping hs hst) hk hs)
  refine ⟨hplace, ?_⟩
  rcases hover with ⟨c, hc⟩ | ho
  · exact Or.inl ⟨⟨c, hc⟩, orderly_of_done hr hc⟩
  · exact Or.inr ⟨ho, fun horderly => (reaches_inv hr horderly).noOops ho⟩

/-- stopped before it has begun, the thread never runs its function, and NULL is freed -/
def calledEarly : List (Ev armBoard) := [.init true, .init true, .exit]

def endsEarly : List (Ev armBoard) := [.exit, .thread none] ++ List.replicate 4 .exit

/-- the run that checks one struct, up to the call of `kthread_stop` -/
def calledLate : List (Ev smallBoard) :=
  [.init true, .init true] ++ List.replicate 5 (.thread none) ++ [.thread (some onePage)] ++
    List.replicate 15 (.thread none) ++ [.exit]

def endsLate : List (Ev smallBoard) := [.exit, .thread none, .thread none] ++ List.replicate 16 .exit

/-- a run and the rest of it, evaluated -/
theorem run_of_foldlM {n : Words.Word} {mem : Words.Mem} {l k : List (Ev B)} {s t : St B}
    (hs : l.foldlM step (start n mem) = some s) (ht : (l ++ k).foldlM step (start n mem) = some t) :
    Reaches n mem l s ∧ Run (Takes step) s k t := by
  refine ⟨run_takes_iff.2 hs, run_takes_iff.2 ?_⟩
  rw [List.foldlM_append, hs] at ht
  exact ht

theorem unload_completes_both :
    (∃ s t : St armBoard, Reaches 2000 (fun _ => 0) calledEarly s ∧ Run (Takes step) s endsEarly t ∧ t.exit = .oops ∧
      ¬ Along (Takes step) Orderly (start 2000 fun _ => 0 : St armBoard) (calledEarly ++ endsEarly) ∧
      ∀ k u, Run (Takes step) s k u → k.countP (fun ev => !ev.isParam) ≤ s.work) ∧
    ∃ s t : St smallBoard, Reaches 1 (fun _ => 0) calledLate s ∧ Run (Takes step) s endsLate t ∧ t.exit = .done true ∧
      Along (Takes step) Orderly (start 1 fun _ => 0 : St smallBoard) (calledLate ++ endsLate) ∧
      ∀ k u, Run (Takes step) s k u → k.countP (fun ev => !ev.isParam) ≤ s.work := by
  constructor
  · have hcall : (calledEarly.foldlM step (start 2000 fun _ => 0)).map (fun s : St armBoard => (s.exit, place? s)) =
        some (.wake, some .entry) := by decide
    have hend : ((calledEarly ++ endsEarly).foldlM step (start 2000 fun _ => 0)).map
        (fun t : St armBoard => (t.init, place? t, t.exit)) = some (.loaded, some .exited, .oops) := by decide
    obtain ⟨s, hs, hcall⟩ := Option.map_eq_some_iff.1 hcall
    obtain ⟨t, ht, hend⟩ := Option.map_eq_some_iff.1 hend
    obtain ⟨hx, hp⟩ := Prod.mk.inj hcall
    obtain ⟨hinit, hrest⟩ := Prod.mk.inj hend
    obtain ⟨hgone, hx'⟩ := Prod.mk.inj hrest
    obtain ⟨hr, hk⟩ := run_of_foldlM hs ht
    obtain ⟨hwork, hover⟩ := unload_completes hr hx (by simp [hp])
    obtain ⟨-, ⟨⟨c, hc⟩, -⟩ | ⟨-, hnot⟩⟩ := hover _ _ hk (.of_gone hinit hgone (by rw [exitStep, hx']))
    · rw [hx'] at hc
      cases hc
    · exact ⟨s, t, hr, hk, hx', hnot, hwork⟩
  · have hcall : (calledLate.foldlM step (start 1 fun _ => 0)).map (fun s : St smallBoard => (s.exit, place? s)) =
        some (.wake, some (.fn .sched)) := by decide +kernel
    have hend : ((calledLate ++ endsLate).foldlM step (start 1 fun _ => 0)).map
        (fun t : St smallBoard => (t.init, place? t, t.exit)) = some (.loaded, some .exited, .done true) := by
      decide +kernel
    obtain ⟨s, hs, hcall⟩ := Option.map_eq_some_iff.1 hcall
    obtain ⟨t, ht, hend⟩ := Option.map_eq_some_iff.1 hend
    obtain ⟨hx, hp⟩ := Prod.mk.inj hcall
    obtain ⟨hinit, hrest⟩ := Prod.mk.inj hend
    obtain ⟨hgone, hx'⟩ := Prod.mk.inj hrest
    obtain ⟨hr, hk⟩ := run_of_foldlM hs ht
    obtain ⟨hwork, hover⟩ := unload_completes hr hx (by simp [hp])
    obtain ⟨-, ⟨-, horderly⟩ | ⟨ho, -⟩⟩ := hover _ _ hk (.of_gone hinit hgone (by rw [exitStep, hx']))
    · exact ⟨s, t, hr, hk, hx', horderly, hwork⟩
    · rw [hx'] at ho
      cases ho

end Cse422.KernelMemory
