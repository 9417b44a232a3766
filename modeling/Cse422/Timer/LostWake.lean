/-
Lost wake-ups. `spawn_func` sets its state to TASK_INTERRUPTIBLE after the work of an iteration, so a wake-up that
comes before that has no effect, and the thread then sleeps.

- `stop_safe_outside_window`: no thread is ever left asleep by `kthread_stop` in a run in which `kthread_stop` wakes no
  thread between its test of the stop flag and its `set_current_state`; and from every step that does wake one there,
  the run can go on to such a thread;
- `hung_forever`: that thread sleeps for ever, and `mod_exit` never returns;
- `expiries_kept_outside_body`: no expiry is lost in a run in which `timer_expire` wakes no thread between its `++iters` and
  its `set_current_state`; and from every step that does, before `mod_exit`, the run can go on to a lost one;
- `stop_hangs`, `expiry_lost`: runs of the modules with one and with four threads.

Both follow from what a wake-up leaves: the thread is running and not at the places where a wake-up is lost
(`Awake`), and it stays so until it has exited, or has begun an iteration.
-/
import Cse422.Timer.Module

namespace Cse422.Timer

open Lts Kthread

/-! ## The properties and the conditions -/

/-- `kthread_stop` has delivered its wake-up to `arr_threads[i]` -/
def ExitPc.Delivered (i : ℕ) : ExitPc → Prop
  | .live | .cancel => False
  | .stop j | .wake j => i < j
  | .wait j => i ≤ j
  | .done => True

/-- thread `i` sleeps, and nobody is left to wake it -/
structure Hung (s : St) (i : ℕ) (a : Thread) : Prop where
  thread : s.arrThreads[i]? = some a
  asleep : a.task.Asleep
  shouldStop : a.task.shouldStop = true
  delivered : s.exit.Delivered i
  timer : s.timer = false
  timerExpire : s.timerExpire = none

/-- after the stop flag has been tested and before `set_current_state` -/
def SpawnPc.window : SpawnPc → Bool
  | .start | .loop | .body => true
  | .sched | .test => false

/-- after `++iters` and before `set_current_state` -/
def SpawnPc.inBody (pc : SpawnPc) : Bool := pc = .body

/-- at a place of `q` in `spawn_func` -/
def Thread.inside (q : SpawnPc → Bool) (a : Thread) : Bool :=
  match a.task.place with
  | .fn pc => q pc
  | _ => false

/-- the thread that `kthread_stop` wakes in the step `ev` -/
def stopWakes (s : St) : Ev → Option Thread
  | .exit =>
    match s.exit with
    | .wake i => s.arrThreads[i]?
    | _ => none
  | _ => none

/-- the thread that `timer_expire` wakes in the step `ev` -/
def expiryWakes (s : St) : Ev → Option Thread
  | .expire =>
    match s.timerExpire with
    | some i => s.arrThreads[i]?
    | none => none
  | _ => none

/-- `kthread_stop` wakes no thread in the window -/
def StopsOutsideWindow (s : St) (ev : Ev) (_ : St) : Prop := ∀ a ∈ stopWakes s ev, a.inside SpawnPc.window = false

/-- whenever a thread sleeps and `mod_exit` has not been called, each `wake_up_process` of `timer_expire` on it was
followed by a `++iters` -/
def NoExpiryLost (s : St) (l : List Ev) : Prop :=
  ∀ l₁ l₂ l₃ u v t i a b, l = l₁ ++ .expire :: (l₂ ++ l₃) → Run Step s l₁ u → u.timerExpire = some i →
    u.arrThreads[i]? = some a → Step u .expire v → Run Step v l₂ t → t.exit = .live → t.arrThreads[i]? = some b →
    b.task.Asleep → a.iters < b.iters

/-- `timer_expire` wakes no thread in the body of an iteration -/
def ExpiresOutsideBody (s : St) (ev : Ev) (_ : St) : Prop := ∀ a ∈ expiryWakes s ev, a.inside SpawnPc.inBody = false

instance (s : St) (ev : Ev) (t : St) : Decidable (StopsOutsideWindow s ev t) := by
  unfold StopsOutsideWindow; infer_instance

instance (s : St) (ev : Ev) (t : St) : Decidable (ExpiresOutsideBody s ev t) := by
  unfold ExpiresOutsideBody; infer_instance

theorem stopWakes_eq_some {s : St} {ev : Ev} {a : Thread} :
    stopWakes s ev = some a ↔ ∃ i, ev = .exit ∧ s.exit = .wake i ∧ s.arrThreads[i]? = some a := by
  unfold stopWakes
  split
  · split
    · rename_i i hx
      simp [hx]
    · rename_i hx
      simp only [reduceCtorEq, true_and, false_iff]
      rintro ⟨i, hi, -⟩
      exact hx i hi
  · rename_i he
    simp only [reduceCtorEq, false_iff]
    rintro ⟨i, hi, -⟩
    exact he hi

theorem expiryWakes_eq_some {s : St} {ev : Ev} {a : Thread} :
    expiryWakes s ev = some a ↔ ∃ i, ev = .expire ∧ s.timerExpire = some i ∧ s.arrThreads[i]? = some a := by
  unfold expiryWakes
  split
  · split
    · rename_i i hx
      simp [hx]
    · rename_i hx
      simp [hx]
  · rename_i he
    simp only [reduceCtorEq, false_iff]
    rintro ⟨i, hi, -⟩
    exact he hi

theorem inside_eq_true {q : SpawnPc → Bool} {a : Thread} :
    a.inside q = true ↔ ∃ pc, a.task.place = .fn pc ∧ q pc = true := by
  unfold Thread.inside
  cases a.task.place <;> simp

/-! ## One thread -/

/-- running, and not at a place of `q` -/
structure Awake (q : SpawnPc → Bool) (a : Thread) : Prop where
  running : a.task.state = .running
  outside : ∀ pc, a.task.place.pc? = some pc → q pc = false

theorem Awake.not_asleep {q : SpawnPc → Bool} {a : Thread} (h : Awake q a) : ¬ a.task.Asleep :=
  fun hs => hs.2 h.running

/-- what holds of a thread in every run -/
structure Sound (a : Thread) : Prop where
  unstarted : a.task.place = .entry ∨ a.task.place = .fn .start → a.iters = 0
  sleeping : ∀ pc, a.task.place = .inSchedule pc → pc = .test

theorem sound_new : Sound newThread where
  unstarted _ := rfl
  sleeping pc h := by cases h

/-- the places from which a thread takes a step -/
theorem own_cases {a b : Thread} (h : a.step = some b) :
    (a.task.place = .entry ∧ a.task.state = .running ∧ b.iters = a.iters ∧
      b.task = { a.task with place := if a.task.shouldStop then .exited else .fn .start }) ∨
    (∃ pc, a.task.place = .inSchedule pc ∧ a.task.state = .running ∧ b.iters = a.iters ∧
      b.task = { a.task with place := .fn pc }) ∨
    (∃ pc, a.task.place = .fn pc ∧ b = spawnFunc a pc) := by
  cases hp : a.task.place with
  | entry =>
    simp only [Thread.step, hp] at h
    obtain ⟨k, hk, rfl⟩ := Option.map_eq_some_iff.1 h
    obtain ⟨hrun, rfl⟩ := enter_eq_some hk
    exact Or.inl ⟨rfl, hrun, rfl, rfl⟩
  | fn pc =>
    simp only [Thread.step, hp] at h
    exact Or.inr (Or.inr ⟨pc, rfl, (Option.some.inj h).symm⟩)
  | inSchedule pc =>
    simp only [Thread.step, hp] at h
    obtain ⟨k, hk, rfl⟩ := Option.map_eq_some_iff.1 h
    obtain ⟨hrun, rfl⟩ := resume_eq_some hk
    exact Or.inr (Or.inl ⟨pc, rfl, hrun, rfl, rfl⟩)
  | exited => simp [Thread.step, hp] at h

theorem own_shouldStop {a b : Thread} (h : a.step = some b) : b.task.shouldStop = a.task.shouldStop := by
  rcases own_cases h with ⟨-, -, -, hb⟩ | ⟨pc, -, -, -, hb⟩ | ⟨pc, -, rfl⟩
  · rw [hb]
  · rw [hb]
  · cases pc <;> simp [spawnFunc]

theorem own_sound {a b : Thread} (hs : Sound a) (h : a.step = some b) : Sound b := by
  rcases own_cases h with ⟨hp, -, hi, hb⟩ | ⟨pc, hp, -, hi, hb⟩ | ⟨pc, hp, rfl⟩
  · refine ⟨fun _ => hi.trans (hs.unstarted (Or.inl hp)), fun pc hpc => ?_⟩
    rw [hb] at hpc
    split_ifs at hpc
  · obtain rfl := hs.sleeping pc hp
    constructor <;> rw [hb] <;> simp
  · cases pc with
    | start | loop | body => constructor <;> simp [spawnFunc]
    | sched => constructor <;> simp only [spawnFunc, TaskStruct.schedule] <;> split_ifs <;> simp
    | test => constructor <;> simp only [spawnFunc] <;> split_ifs <;> simp

/-- iterations are only added -/
theorem own_iters {a b : Thread} (hs : Sound a) (h : a.step = some b) : a.iters ≤ b.iters := by
  rcases own_cases h with ⟨-, -, hi, -⟩ | ⟨pc, -, -, hi, -⟩ | ⟨pc, hp, rfl⟩
  · exact hi.ge
  · exact hi.ge
  · cases pc with
    | start => exact (hs.unstarted (Or.inr hp)).le
    | loop => exact Nat.le_succ _
    | body | sched | test => exact le_rfl

/-- a thread that has been woken outside the window with its stop flag set goes on to exit -/
theorem own_leaving {a b : Thread} (ha : Awake SpawnPc.window a) (hstop : a.task.shouldStop = true)
    (h : a.step = some b) : Awake SpawnPc.window b := by
  rcases own_cases h with ⟨-, -, -, hb⟩ | ⟨pc, hp, -, -, hb⟩ | ⟨pc, hp, rfl⟩
  · rw [hstop, if_pos rfl] at hb
    exact ⟨by rw [hb]; exact ha.running, by simp [hb, Place.pc?]⟩
  · refine ⟨by rw [hb]; exact ha.running, fun pc' hpc' => ?_⟩
    rw [hb] at hpc'
    exact ha.outside pc' (by rw [hp]; exact hpc')
  · have hw : pc.window = false := ha.outside pc (by rw [hp]; rfl)
    cases pc with
    | start | loop | body => cases hw
    | sched =>
      have hb : (spawnFunc a .sched).task = { a.task with place := .fn .test } := if_pos ha.running
      exact ⟨by rw [hb]; exact ha.running, by simp [hb, Place.pc?, SpawnPc.window]⟩
    | test => exact ⟨ha.running, by simp [spawnFunc, hstop, Place.pc?]⟩

/-- a thread that has been woken outside the body begins an iteration before it sleeps -/
theorem own_fresh {a b : Thread} (ha : Awake SpawnPc.inBody a) (hs : Sound a) (h : a.step = some b) :
    a.iters < b.iters ∨ (b.iters = a.iters ∧ Awake SpawnPc.inBody b) := by
  rcases own_cases h with ⟨-, -, hi, hb⟩ | ⟨pc, hp, -, hi, hb⟩ | ⟨pc, hp, rfl⟩
  · refine Or.inr ⟨hi, by rw [hb]; exact ha.running, fun pc hpc => ?_⟩
    rw [hb] at hpc
    split_ifs at hpc <;> cases hpc
    rfl
  · refine Or.inr ⟨hi, by rw [hb]; exact ha.running, fun pc' hpc' => ?_⟩
    rw [hb] at hpc'
    exact ha.outside pc' (by rw [hp]; exact hpc')
  · have hw : pc.inBody = false := ha.outside pc (by rw [hp]; rfl)
    cases pc with
    | start => exact Or.inr ⟨(hs.unstarted (Or.inr hp)).symm, ha.running, by simp [spawnFunc, Place.pc?, SpawnPc.inBody]⟩
    | loop => exact Or.inl (Nat.lt_succ_self _)
    | body => cases hw
    | sched =>
      have hb : (spawnFunc a .sched).task = { a.task with place := .fn .test } := if_pos ha.running
      exact Or.inr ⟨rfl, by rw [hb]; exact ha.running, by simp [hb, Place.pc?, SpawnPc.inBody]⟩
    | test =>
      refine Or.inr ⟨rfl, ha.running, fun pc' hpc' => ?_⟩
      simp only [spawnFunc] at hpc'
      split_ifs at hpc' <;> cases hpc'
      rfl

/-! ## Threads in the module -/

section Module

variable {s t : St} {ev : Ev} {i : ℕ} {a b : Thread}

theorem touches_sound (hs : Sound a) (h : Touches s ev i a b) : Sound b := by
  cases h with
  | other => exact hs
  | own _ hb => exact own_sound hs hb
  | expiry | flag | wake => exact ⟨hs.unstarted, hs.sleeping⟩

/-- the stop flag of a thread is never cleared, and `kthread_stop` sets it -/
theorem touches_shouldStop (h : Touches s ev i a b) (hstop : a.task.shouldStop = true) : b.task.shouldStop = true := by
  cases h with
  | own _ hb => exact (own_shouldStop hb).trans hstop
  | other | expiry | wake => exact hstop
  | flag => rfl

theorem Awake.wakeUp {q : SpawnPc → Bool} (h : ∀ pc, a.task.place.pc? = some pc → q pc = false) : Awake q a.wakeUp :=
  ⟨rfl, h⟩

theorem touches_leaving (ha : Awake SpawnPc.window a) (hstop : a.task.shouldStop = true) (h : Touches s ev i a b) :
    Awake SpawnPc.window b := by
  cases h with
  | other => exact ha
  | own _ hb => exact own_leaving ha hstop hb
  | expiry | wake => exact .wakeUp ha.outside
  | flag => exact ⟨ha.running, ha.outside⟩

theorem touches_fresh (ha : Awake SpawnPc.inBody a) (hs : Sound a) (h : Touches s ev i a b) :
    a.iters < b.iters ∨ (b.iters = a.iters ∧ Awake SpawnPc.inBody b) := by
  cases h with
  | other => exact Or.inr ⟨rfl, ha⟩
  | own _ hb => exact own_fresh ha hs hb
  | expiry | wake => exact Or.inr ⟨rfl, .wakeUp ha.outside⟩
  | flag => exact Or.inr ⟨rfl, ha.running, ha.outside⟩

theorem touches_iters (hs : Sound a) (h : Touches s ev i a b) : a.iters ≤ b.iters := by
  cases h with
  | own _ hb => exact own_iters hs hb
  | other | expiry | flag | wake => exact le_rfl

/-- the two steps that wake thread `i` -/
theorem touches_wakeUp (h : Touches s ev i a b)
    (hw : (ev = .expire ∧ s.timerExpire = some i) ∨ (ev = .exit ∧ s.exit = .wake i)) : b = a.wakeUp := by
  rcases hw with ⟨rfl, hi⟩ | ⟨rfl, hx⟩
  · cases h with
    | other _ hne => exact absurd hi (hne rfl)
    | own hne | flag hne => cases hne
    | expiry | wake => rfl
  · cases h with
    | other _ _ hne => exact absurd hx (hne rfl).2
    | own hne | expiry hne => cases hne
    | flag _ hs => rw [hx] at hs; cases hs
    | wake => rfl

/-- the step that sets the stop flag of thread `i` -/
theorem touches_setStop (h : Touches s ev i a b) (he : ev = .exit) (hx : s.exit = .stop i) : b = a.setStop := by
  subst he
  cases h with
  | other _ _ hne => exact absurd hx (hne rfl).1
  | own hne | expiry hne => cases hne
  | flag => rfl
  | wake _ hw => rw [hx] at hw; cases hw

/-- `kthread_stop`'s wake-up of thread `i` stays delivered -/
theorem delivered_step {x : ExitPc} {tm : Bool} {te : Option ℕ} (h : Moves s ev tm te x) (hd : s.exit.Delivered i) :
    x.Delivered i := by
  cases h with
  | same | fire | expire | restart => exact hd
  | unload _ hx | cancel _ hx => rw [hx] at hd; exact hd.elim
  | flag _ hx => rw [hx] at hd; exact hd
  | finish => trivial
  | wake _ hx => rw [hx] at hd; exact le_of_lt hd
  | next _ hx => rw [hx] at hd; exact Nat.lt_succ_of_le hd

/-- it is delivered in one step -/
theorem delivered_cases {x : ExitPc} {tm : Bool} {te : Option ℕ} (h : Moves s ev tm te x)
    (hi : i < s.arrThreads.length) (hd : x.Delivered i) : s.exit.Delivered i ∨ (ev = .exit ∧ s.exit = .wake i) := by
  cases h with
  | same | fire | expire | restart => exact Or.inl hd
  | unload => exact hd.elim
  | cancel => exact absurd hd (Nat.not_lt_zero i)
  | flag _ hx => rw [hx]; exact Or.inl hd
  | finish _ hx hj => rw [hx]; exact Or.inl (lt_of_lt_of_le hi hj)
  | @wake j he hx =>
    rcases Nat.lt_or_ge i j with hij | hij
    · rw [hx]; exact Or.inl hij
    · obtain rfl : i = j := le_antisymm hd hij
      exact Or.inr ⟨he, hx⟩
  | next _ hx => rw [hx]; exact Or.inl (Nat.le_of_lt_succ hd)

/-- the stop flag of thread `i` has just been set -/
theorem flagged_cases {x : ExitPc} {tm : Bool} {te : Option ℕ} (h : Moves s ev tm te x) (hx : x = .wake i) :
    s.exit = .wake i ∨ (ev = .exit ∧ s.exit = .stop i) := by
  cases h with
  | same | fire | expire | restart => exact Or.inl hx
  | flag he hs => cases hx; exact Or.inr ⟨he, hs⟩
  | unload | cancel | finish | wake | next => cases hx

/-! ## Stopping -/

/-- what holds of thread `i` in every run -/
structure Known (i : ℕ) (s : St) : Prop where
  sound : ∀ a, s.arrThreads[i]? = some a → Sound a
  flag : ∀ a, s.arrThreads[i]? = some a → s.exit = .wake i → a.task.shouldStop = true

/-- a thread that `kthread_stop` has woken is on its way out -/
def Leaving (i : ℕ) (s : St) : Prop :=
  ∀ a, s.arrThreads[i]? = some a → s.exit.Delivered i → a.task.shouldStop = true ∧ Awake SpawnPc.window a

theorem known_init (n i : ℕ) : Known i (modInit n) where
  sound a ha := by
    obtain rfl := (List.mem_replicate.1 (List.mem_of_getElem? ha)).2
    exact sound_new
  flag a _ hx := by cases hx

/-- the thread that a step leaves at `i`, with what the step made it from -/
theorem step_thread_back (h : Step s ev t) (hb : t.arrThreads[i]? = some b) :
    ∃ a, s.arrThreads[i]? = some a ∧ Touches s ev i a b := by
  obtain ⟨a, ha⟩ := run_thread (.cons h (.nil t)) hb
  obtain ⟨c, hc, hT⟩ := step_thread h ha
  obtain rfl := Option.some.inj (hc.symm.trans hb)
  exact ⟨a, ha, hT⟩

theorem step_known (hI : Known i s) (h : Step s ev t) : Known i t := by
  refine ⟨fun b hb => ?_, fun b hb hx => ?_⟩
  · obtain ⟨a, ha, hT⟩ := step_thread_back h hb
    exact touches_sound (hI.sound a ha) hT
  · obtain ⟨a, ha, hT⟩ := step_thread_back h hb
    rcases flagged_cases (step_exit h) hx with hx | ⟨he, hx⟩
    · exact touches_shouldStop hT (hI.flag a ha hx)
    · obtain rfl := touches_setStop hT he hx
      rfl

theorem run_known {l : List Ev} (n i : ℕ) (hr : Run Step (modInit n) l s) : Known i s :=
  Run.inv (I := Known i) (fun _ _ _ hI h => step_known hI h) hr (known_init n i)

/-- a thread outside `q` that is woken is awake and outside `q` -/
theorem Sound.wakeUp {q : SpawnPc → Bool} (hs : Sound a) (htest : q .test = false) (h : a.inside q = false) :
    Awake q a.wakeUp := by
  refine .wakeUp fun pc hpc => ?_
  cases hp : a.task.place with
  | entry | exited => rw [hp] at hpc; cases hpc
  | fn pc' =>
    rw [hp] at hpc
    cases hpc
    simpa only [Thread.inside, hp] using h
  | inSchedule pc' =>
    rw [hp] at hpc
    cases hpc
    rw [hs.sleeping _ hp, htest]

theorem step_leaving (hK : Known i s) (hL : Leaving i s) (hC : StopsOutsideWindow s ev t) (h : Step s ev t) :
    Leaving i t := by
  intro b hb hd
  obtain ⟨a, ha, hT⟩ := step_thread_back h hb
  have hi : i < s.arrThreads.length := (List.getElem?_eq_some_iff.1 ha).1
  rcases delivered_cases (step_exit h) hi hd with hd | ⟨he, hx⟩
  · obtain ⟨hstop, haw⟩ := hL a ha hd
    exact ⟨touches_shouldStop hT hstop, touches_leaving haw hstop hT⟩
  · refine ⟨touches_shouldStop hT (hK.flag a ha hx), ?_⟩
    obtain rfl := touches_wakeUp hT (Or.inr ⟨he, hx⟩)
    exact (hK.sound a ha).wakeUp rfl (hC a (stopWakes_eq_some.2 ⟨i, he, hx, ha⟩))

/-! ## Falling asleep -/

/-- steps of one thread and of nobody else -/
abbrev Own : Thread → Unit → Thread → Prop := Takes fun a _ => a.step

theorem run_own {l : List Unit} (hr : Run Own a l b) (ha : s.arrThreads[i]? = some a) :
    Run Step s (l.map fun _ => .thread i) { s with arrThreads := s.arrThreads.set i b } := by
  induction hr generalizing s with
  | nil a =>
    have hs : s.arrThreads.set i a = s.arrThreads := by
      obtain ⟨hlt, rfl⟩ := List.getElem?_eq_some_iff.1 ha
      exact List.set_getElem_self hlt
    rw [hs]
    exact .nil s
  | @cons a c b _ _ h1 _ ih =>
    have hlt : i < s.arrThreads.length := (List.getElem?_eq_some_iff.1 ha).1
    have hr := ih (s := { s with arrThreads := s.arrThreads.set i c }) (List.getElem?_set_self hlt)
    simp only [List.set_set] at hr
    exact .cons (step_own ha h1) hr

theorem own_fn {pc : SpawnPc} (hp : a.task.place = .fn pc) : Own a () (spawnFunc a pc) := by
  simp only [Takes, Thread.step, hp]

/-- a thread in the body falls asleep by itself -/
theorem body_sleeps (hp : a.task.place = .fn .body) :
    ∃ b, Run Own a [(), ()] b ∧ b.task.Asleep ∧ b.task.shouldStop = a.task.shouldStop ∧ b.iters = a.iters := by
  have hsched : (spawnFunc a .body).task.place = .fn .sched := rfl
  refine ⟨_, .cons (own_fn hp) (.cons (own_fn hsched) (.nil _)), ?_, ?_, rfl⟩
  · exact schedule_asleep (by simp [spawnFunc])
  · simp [spawnFunc]

/-- so does a thread anywhere in the window -/
theorem window_sleeps {pc : SpawnPc} (hp : a.task.place = .fn pc) (hw : pc.window = true) :
    ∃ l b, Run Own a l b ∧ b.task.Asleep ∧ b.task.shouldStop = a.task.shouldStop := by
  have from_loop : ∀ {a : Thread}, a.task.place = .fn .loop →
      ∃ l b, Run Own a l b ∧ b.task.Asleep ∧ b.task.shouldStop = a.task.shouldStop := by
    intro a hp
    obtain ⟨b, hr, hb, hstop, -⟩ := body_sleeps (a := spawnFunc a .loop) rfl
    exact ⟨_, b, .cons (own_fn hp) hr, hb, hstop⟩
  cases pc with
  | start =>
    obtain ⟨l, b, hr, hb, hstop⟩ := from_loop (a := spawnFunc a .start) rfl
    exact ⟨_, b, .cons (own_fn hp) hr, hb, hstop⟩
  | loop => exact from_loop hp
  | body =>
    obtain ⟨b, hr, hb, hstop, -⟩ := body_sleeps hp
    exact ⟨_, b, hr, hb, hstop⟩
  | sched | test => cases hw

end Module

/-! ## mod_exit -/

/-- once `hrtimer_cancel` has returned, the timer is off -/
def Cancelled (s : St) : Prop := (s.exit = .live ∨ s.exit = .cancel) ∨ (s.timer = false ∧ s.timerExpire = none)

theorem step_cancelled {s t : St} {ev : Ev} (hc : Cancelled s) (h : Step s ev t) : Cancelled t := by
  have hM := step_exit h
  have off : ¬ (s.exit = .live ∨ s.exit = .cancel) → s.timer = false ∧ s.timerExpire = none := hc.resolve_left
  unfold Cancelled
  generalize t.timer = tm, t.timerExpire = te, t.exit = x at hM
  cases hM with
  | same => exact hc
  | fire _ ht => exact hc.imp_right fun ho => by rw [ho.1] at ht; cases ht
  | expire _ he => exact hc.imp_right fun ho => by rw [ho.2] at he; cases he
  | restart => exact hc.imp_right fun ho => ⟨ho.1, rfl⟩
  | unload => exact Or.inl (Or.inr rfl)
  | cancel => exact Or.inr ⟨rfl, rfl⟩
  | flag _ hx | finish _ hx | wake _ hx | next _ hx => exact Or.inr (off (by simp [hx]))

/-- **A hung thread hangs for ever.** Nobody wakes it, and `mod_exit` waits for it. -/
theorem hung_forever {s t : St} {l : List Ev} {i : ℕ} {a : Thread} (h : Hung s i a) (hr : Run Step s l t) :
    Hung t i a ∧ (s.exit = .wait i → t.exit = .wait i) := by
  refine Run.inv (I := fun u => Hung u i a ∧ (s.exit = .wait i → u.exit = .wait i)) ?_ hr ⟨h, id⟩
  intro u ev v ⟨hu, hw⟩ hst
  obtain ⟨b, hb, hT⟩ := step_thread hst hu.thread
  have hM := step_exit hst
  have hba : b = a := by
    cases hT with
    | other => rfl
    | own _ hown =>
      rcases own_cases hown with ⟨-, hrun, -⟩ | ⟨pc, -, hrun, -⟩ | ⟨pc, hp, -⟩
      · exact absurd hrun hu.asleep.2
      · exact absurd hrun hu.asleep.2
      · obtain ⟨pc', hp'⟩ := hu.asleep.1
        rw [hp] at hp'
        cases hp'
    | expiry _ he => rw [hu.timerExpire] at he; cases he
    | flag _ hx => exact absurd hu.delivered (by simp [hx, ExitPc.Delivered])
    | wake _ hx => exact absurd hu.delivered (by simp [hx, ExitPc.Delivered])
  subst hba
  have hoff : Cancelled v := step_cancelled (Or.inr ⟨hu.timer, hu.timerExpire⟩) hst
  have hdel : v.exit.Delivered i := delivered_step hM hu.delivered
  obtain ⟨ht, he⟩ := hoff.resolve_left (by rintro (hx | hx) <;> rw [hx] at hdel <;> exact hdel)
  refine ⟨⟨hb, hu.asleep, hu.shouldStop, hdel, ht, he⟩, fun hs => ?_⟩
  have hx := hw hs
  generalize v.timer = tm, v.timerExpire = te, v.exit = x at hM
  cases hM with
  | same | fire | expire | restart => exact hx
  | unload _ hx' | cancel _ hx' | flag _ hx' | finish _ hx' | wake _ hx' => rw [hx] at hx'; cases hx'
  | next _ hx' ha hp =>
    rw [hx] at hx'
    cases hx'
    rw [hu.thread] at ha
    cases ha
    obtain ⟨pc', hp'⟩ := hu.asleep.1
    rw [hp] at hp'
    cases hp'

/-- **Stopping is safe outside the window.** -/
theorem stop_safe_outside_window (n : ℕ) :
    (∀ l s, Along Step StopsOutsideWindow (modInit n) l → Run Step (modInit n) l s → ∀ i a, ¬ Hung s i a) ∧
    ∀ l s ev t, Run Step (modInit n) l s → Step s ev t → ¬ StopsOutsideWindow s ev t →
      ∃ k u i a, Run Step t k u ∧ Hung u i a := by
  refine ⟨fun l s hC hr i a hh => ?_, fun l s ev t hr hst hv => ?_⟩
  · have hI : Known i s ∧ Leaving i s :=
      Along.inv (I := fun s => Known i s ∧ Leaving i s)
        (fun _ _ _ hI hc h => ⟨step_known hI.1 h, step_leaving hI.1 hI.2 hc h⟩) hC hr
        ⟨known_init n i, fun _ _ hd => hd.elim⟩
    exact (hI.2 a hh.thread hh.delivered).2.not_asleep hh.asleep
  · unfold StopsOutsideWindow at hv
    push Not at hv
    obtain ⟨a, hwk, hv⟩ := hv
    obtain ⟨i, rfl, hx, ha⟩ := stopWakes_eq_some.1 hwk
    obtain ⟨pc, hp, hw⟩ := inside_eq_true.1 (Bool.eq_true_of_not_eq_false hv)
    have hoff : Cancelled s :=
      Run.inv (I := Cancelled) (fun _ _ _ hc h => step_cancelled hc h) hr (Or.inl (Or.inl rfl))
    obtain ⟨ht, he⟩ := hoff.resolve_left (by simp [hx])
    have hlt : i < s.arrThreads.length := (List.getElem?_eq_some_iff.1 ha).1
    obtain ⟨c, hc, hT⟩ := step_thread hst ha
    obtain rfl := touches_wakeUp hT (Or.inr ⟨rfl, hx⟩)
    obtain ⟨k, b, hk, hb, hstop⟩ := window_sleeps (a := a.wakeUp) hp hw
    simp only [Takes, step, modExit, hx, Option.some.injEq] at hst
    subst hst
    refine ⟨_, _, i, b, run_own hk hc, ?_, hb, ?_, le_rfl, ht, he⟩
    · exact List.getElem?_set_self (by simpa using hlt)
    · exact hstop.trans ((run_known n i hr).flag a ha hx)

/-- to the first `schedule` of thread 0, and asleep -/
def toSleep : List Ev := List.replicate 5 (.thread 0)

/-- to the body of the first iteration of thread 0 -/
def toBody : List Ev := List.replicate 3 (.thread 0)

/-- from the body into `schedule` -/
def fallAsleep : List Ev := List.replicate 2 (.thread 0)

/-- `mod_exit` as far as the wait for thread 0 -/
def toWait : List Ev := List.replicate 4 .exit

/-- a thread that is asleep when it is stopped -/
theorem stop_safe_asleep :
    ∃ s, Run Step (modInit 1) (toSleep ++ toWait) s ∧ s.exit = .wait 0 ∧ ∀ i a, ¬ Hung s i a := by
  have hobs : ((toSleep ++ toWait).foldlM step (modInit 1)).map St.exit = some (.wait 0) := by decide
  obtain ⟨s, hs, hx⟩ := Option.map_eq_some_iff.1 hobs
  have hr := run_takes_iff.2 hs
  exact ⟨s, hr, hx, (stop_safe_outside_window 1).1 _ s (by decide) hr⟩

/-- **Stopping hangs.** `kthread_stop` sets the flag and wakes the thread in the body of an iteration, and the thread
then goes to sleep: with one thread and with four. -/
theorem stop_hangs :
    (∃ s a, Run Step (modInit 1) (toBody ++ toWait ++ fallAsleep) s ∧ Hung s 0 a) ∧
    ∃ s a, Run Step (modInit 4) (toBody ++ toWait ++ fallAsleep) s ∧ Hung s 0 a := by
  have hung : ∀ n, ((toBody ++ toWait ++ fallAsleep).foldlM step (modInit n)).map
      (fun s : St => (s.arrThreads[0]?, s.exit, s.timer, s.timerExpire)) =
        some (some ⟨⟨.inSchedule .test, .interruptible, true⟩, 1⟩, .wait 0, false, none) →
      ∃ s a, Run Step (modInit n) (toBody ++ toWait ++ fallAsleep) s ∧ Hung s 0 a := by
    intro n hobs
    obtain ⟨s, hs, ho⟩ := Option.map_eq_some_iff.1 hobs
    simp only [Prod.mk.injEq] at ho
    obtain ⟨ha, hx, ht, he⟩ := ho
    refine ⟨s, _, run_takes_iff.2 hs, ha, ⟨⟨.test, rfl⟩, by decide⟩, rfl, ?_, ht, he⟩
    rw [hx]
    exact le_rfl
  exact ⟨hung 1 (by decide), hung 4 (by decide)⟩

/-! ## Expiries -/

/-- since an expiry, thread `i` has begun an iteration, or it will before it sleeps -/
def Owes (i k : ℕ) (s : St) : Prop :=
  ∃ a, s.arrThreads[i]? = some a ∧ Sound a ∧ (k < a.iters ∨ (a.iters = k ∧ Awake SpawnPc.inBody a))

theorem step_owes {s t : St} {ev : Ev} {i k : ℕ} (hO : Owes i k s) (h : Step s ev t) : Owes i k t := by
  obtain ⟨a, ha, hs, hk⟩ := hO
  obtain ⟨b, hb, hT⟩ := step_thread h ha
  refine ⟨b, hb, touches_sound hs hT, ?_⟩
  rcases hk with hk | ⟨rfl, haw⟩
  · exact Or.inl (lt_of_lt_of_le hk (touches_iters hs hT))
  · exact touches_fresh haw hs hT

/-- **Expiries are kept outside the body.** -/
theorem expiries_kept_outside_body (n : ℕ) :
    (∀ l, Along Step ExpiresOutsideBody (modInit n) l → NoExpiryLost (modInit n) l) ∧
    ∀ l s ev t, Run Step (modInit n) l s → Step s ev t → s.exit = .live → ¬ ExpiresOutsideBody s ev t →
      ∃ k, ¬ NoExpiryLost (modInit n) (l ++ ev :: k) := by
  refine ⟨fun l hC l₁ l₂ l₃ u v t i a b hl hr hi ha hst hr₂ _ hb hsl => ?_, fun l s ev t hr hst hx hv => ?_⟩
  · have hsound := (run_known n i hr).sound a ha
    have hbody := hC l₁ .expire (l₂ ++ l₃) u v hl hr hst a (expiryWakes_eq_some.2 ⟨i, rfl, hi, ha⟩)
    have hv : Owes i a.iters v := by
      obtain ⟨c, hc, hT⟩ := step_thread hst ha
      refine ⟨c, hc, touches_sound hsound hT, Or.inr ?_⟩
      obtain rfl := touches_wakeUp hT (Or.inl ⟨rfl, hi⟩)
      exact ⟨rfl, hsound.wakeUp rfl hbody⟩
    obtain ⟨b', hb', -, hk⟩ := Run.inv (I := Owes i a.iters) (fun _ _ _ hO h => step_owes hO h) hr₂ hv
    obtain rfl := Option.some.inj (hb'.symm.trans hb)
    exact hk.resolve_right fun hk => hk.2.not_asleep hsl
  · unfold ExpiresOutsideBody at hv
    push Not at hv
    obtain ⟨a, hwk, hv⟩ := hv
    obtain ⟨i, rfl, hi, ha⟩ := expiryWakes_eq_some.1 hwk
    obtain ⟨pc, hp, hpc⟩ := inside_eq_true.1 (Bool.eq_true_of_not_eq_false hv)
    obtain rfl : pc = .body := by simpa [SpawnPc.inBody] using hpc
    obtain ⟨b, hb, hsl, -, hit⟩ := body_sleeps (a := a.wakeUp) hp
    obtain ⟨c, hc, hT⟩ := step_thread hst ha
    obtain rfl := touches_wakeUp hT (Or.inl ⟨rfl, hi⟩)
    have hlive : t.exit = .live := by
      have hM := step_exit hst
      generalize t.timer = tm, t.timerExpire = te, t.exit = x at hM
      cases hM with
      | same | fire | expire | restart => exact hx
      | unload he | cancel he | flag he | finish he | wake he | next he => cases he
    refine ⟨[.thread i, .thread i], fun hno => ?_⟩
    have hlt := hno l _ [] s t _ i a b (by simp) hr hi ha hst (run_own hb hc) hlive
      (List.getElem?_set_self (List.getElem?_eq_some_iff.1 hc).1) hsl
    exact absurd hit (ne_of_gt hlt)

/-- an expiry that finds the thread asleep, and the iteration it brings about -/
theorem expiry_kept_asleep : NoExpiryLost (modInit 1) (toSleep ++ [.fire, .expire, .expire] ++ toSleep) :=
  (expiries_kept_outside_body 1).1 _ (by decide)

/-- to the body of the first iteration of thread 0, and then the interval is over -/
def toFire : List Ev := toBody ++ [.fire]

/-- **An expiry is lost.** It comes in the body of the first iteration, and the thread sleeps without beginning a
second one: with one thread and with four. -/
theorem expiry_lost :
    ¬ NoExpiryLost (modInit 1) (toFire ++ .expire :: (fallAsleep ++ [])) ∧
    ¬ NoExpiryLost (modInit 4) (toFire ++ .expire :: (fallAsleep ++ [])) := by
  have lost : ∀ n, (toFire.foldlM step (modInit n)).map (fun u : St =>
        (u.timerExpire, u.arrThreads[0]?.map Thread.iters, (step u .expire).map fun v =>
          (fallAsleep.foldlM step v).map fun t : St => (t.exit, t.arrThreads[0]?))) =
        some (some 0, some 1, some (some (.live, some ⟨⟨.inSchedule .test, .interruptible, false⟩, 1⟩))) →
      ¬ NoExpiryLost (modInit n) (toFire ++ .expire :: (fallAsleep ++ [])) := by
    intro n hobs hno
    obtain ⟨u, hu, ho⟩ := Option.map_eq_some_iff.1 hobs
    simp only [Prod.mk.injEq] at ho
    obtain ⟨hi, ha, hv⟩ := ho
    obtain ⟨a, ha, hit⟩ := Option.map_eq_some_iff.1 ha
    obtain ⟨v, hv, ht⟩ := Option.map_eq_some_iff.1 hv
    obtain ⟨t, ht, ho⟩ := Option.map_eq_some_iff.1 ht
    obtain ⟨hx, hb⟩ := Prod.mk.inj ho
    have hlt := hno _ _ [] u v t 0 a _ rfl (run_takes_iff.2 hu) hi ha hv (run_takes_iff.2 ht) hx hb
      ⟨⟨.test, rfl⟩, by decide⟩
    exact absurd hit (ne_of_lt hlt)
  exact ⟨lost 1 rfl, lost 4 rfl⟩

end Cse422.Timer
