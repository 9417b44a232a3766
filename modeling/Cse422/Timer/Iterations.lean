/-
How many iterations the timer buys. `timer_expire` wakes every thread once, and a wake-up brings one iteration if it
finds the thread in a state other than TASK_RUNNING, and none otherwise.

- `step_balance`: what one step does to the balance of a thread (`Balanced`): iterations begun, iterations due, wake-ups
  that found it running and the wake-up still to come, against the expiries of the timer;
- `iterations_counted`: no thread has ever begun more iterations than the timer has expired, and one; and while no
  `timer_expire` is in progress, a sleeping thread that `kthread_stop` has not marked has begun that many exactly when no
  turn of `timer_expire` found it running.
-/
import Cse422.Timer.LostWake

namespace Cse422.Timer

open Lts Kthread

/-! ## The balance of a thread -/

/-- the thread will begin an iteration before it sleeps -/
def Thread.due (a : Thread) : ℕ :=
  match a.task.place with
  | .entry | .fn .start | .fn .loop => 1
  | .fn .body | .exited => 0
  | .fn .test => if a.task.shouldStop then 0 else 1
  | .fn .sched | .inSchedule _ => if a.task.state = .running ∧ a.task.shouldStop = false then 1 else 0

/-- a running `timer_expire` has not come to thread `i` -/
def St.owed (i : ℕ) (s : St) : ℕ :=
  match s.timerExpire with
  | some j => if j ≤ i then 1 else 0
  | none => 0

/-- `timer_expire` does not find thread `i` running -/
def FindsSleeper (i : ℕ) (s : St) (ev : Ev) (_ : St) : Prop :=
  ev = .expire → s.timerExpire = some i → ∀ a ∈ s.arrThreads[i]?, a.task.state ≠ .running

/-- only a thread at or in `schedule` is not running -/
def Thread.Dozes (a : Thread) : Prop :=
  a.task.state ≠ .running → a.task.place = .fn .sched ∨ ∃ pc, a.task.place = .inSchedule pc

/-- after `k` expiries, of which `m` have found the thread running -/
structure Balanced (i k m : ℕ) (s : St) (a : Thread) : Prop where
  thread : s.arrThreads[i]? = some a
  known : Known i s
  dozes : a.Dozes
  le : a.iters + a.due + m + s.owed i ≤ k + 1
  eq : a.task.shouldStop = false → a.iters + a.due + m + s.owed i = k + 1

theorem own_dozes {a b : Thread} (hd : a.Dozes) (h : a.step = some b) : b.Dozes := by
  intro hrun
  rcases own_cases h with ⟨-, ha, -, hb⟩ | ⟨pc, -, ha, -, hb⟩ | ⟨pc, hp, rfl⟩
  · exact absurd (by rw [hb]; exact ha) hrun
  · exact absurd (by rw [hb]; exact ha) hrun
  · have awake : pc ≠ .sched → a.task.state = .running := by
      intro hne
      by_contra hn
      rcases hd hn with hs | ⟨pc', hs⟩ <;> rw [hp] at hs <;> cases hs
      exact hne rfl
    cases pc with
    | start | loop | test => exact absurd (awake (by decide)) hrun
    | body => exact Or.inl rfl
    | sched =>
      have ha : a.task.state ≠ .running := by simpa [spawnFunc] using hrun
      exact Or.inr ⟨.test, by simp [spawnFunc, TaskStruct.schedule, ha]⟩

/-- a thread begins an iteration only when one is due -/
theorem own_due {a b : Thread} (hs : Sound a) (h : a.step = some b) :
    b.iters + b.due ≤ a.iters + a.due ∧ (a.task.shouldStop = false → b.iters + b.due = a.iters + a.due) := by
  rcases own_cases h with ⟨hp, -, hi, hb⟩ | ⟨pc, hp, hrun, hi, hb⟩ | ⟨pc, hp, rfl⟩
  · have ha : a.due = 1 := by simp [Thread.due, hp]
    rw [ha]
    by_cases hstop : a.task.shouldStop = true <;> simp [Thread.due, hb, hi, hstop]
  · obtain rfl := hs.sleeping pc hp
    by_cases hstop : a.task.shouldStop = true <;> simp [Thread.due, hp, hb, hi, hrun, hstop]
  · cases pc with
    | start => simp [Thread.due, hp, spawnFunc, hs.unstarted (Or.inr hp)]
    | loop => simp [Thread.due, hp, spawnFunc]
    | body => simp [Thread.due, hp, spawnFunc]
    | sched =>
      by_cases hrun : a.task.state = .running <;> by_cases hstop : a.task.shouldStop = true <;>
        simp [Thread.due, hp, spawnFunc, TaskStruct.schedule, hrun, hstop]
    | test => by_cases hstop : a.task.shouldStop = true <;> simp [Thread.due, hp, spawnFunc, hstop]

/-- a wake-up makes an iteration due if the thread was not running -/
theorem wakeUp_due {a : Thread} (hd : a.Dozes) (hstop : a.task.shouldStop = false) :
    a.wakeUp.due = a.due + if a.task.state = .running then 0 else 1 := by
  by_cases hrun : a.task.state = .running
  · have hw : a.wakeUp = a := by
      unfold Thread.wakeUp TaskStruct.wakeUp
      rw [← hrun]
    simp [hw, hrun]
  · rcases hd hrun with hp | ⟨pc, hp⟩ <;> simp [Thread.due, Thread.wakeUp, hp, hrun, hstop]

theorem wakeUp_due_of_stop {a : Thread} (hstop : a.task.shouldStop = true) : a.wakeUp.due = a.due := by
  simp only [Thread.due, Thread.wakeUp, wakeUp_place, wakeUp_shouldStop, hstop, Bool.true_eq_false, and_false]

theorem setStop_due (a : Thread) : a.setStop.due ≤ a.due := by
  simp only [Thread.due, Thread.setStop, setStop_place, setStop_shouldStop, Bool.true_eq_false, and_false, if_false]
  split <;> simp

/-! ## Steps -/

section Steps

variable {s t : St} {i k m : ℕ} {a : Thread}

theorem step_fire (h : Step s .fire t) : s.timerExpire = none ∧ t = { s with timerExpire := some 0 } := by
  simp only [Takes, step] at h
  split_ifs at h with hc
  exact ⟨hc.2, (Option.some.inj h).symm⟩

theorem modExit_timerExpire (h : modExit s = some t) : t.timerExpire = s.timerExpire := by
  have hM := modExit_moves h
  generalize t.timer = tm, t.timerExpire = te, t.exit = x at hM
  cases hM with
  | fire he | expire he | restart he => cases he
  | cancel _ _ he => exact he.symm
  | same | unload | flag | finish | wake | next => rfl

theorem owed_congr (h : t.timerExpire = s.timerExpire) : t.owed i = s.owed i := by
  unfold St.owed
  rw [h]

/-- a step that does not count, and what it makes of thread `i` -/
theorem Balanced.uncounted {ev : Ev} {b : Thread} (hB : Balanced i k m s a) (h : Step s ev t)
    (ho : t.timerExpire = s.timerExpire) (hb : t.arrThreads[i]? = some b) (hd : b.Dozes)
    (hle : b.iters + b.due ≤ a.iters + a.due)
    (heq : b.task.shouldStop = false → a.task.shouldStop = false ∧ b.iters + b.due = a.iters + a.due) :
    Balanced i k m t b := by
  refine ⟨hb, step_known hB.known h, hd, ?_, fun hstop => ?_⟩
  · have hle' := hB.le
    rw [owed_congr ho]
    omega
  · obtain ⟨hstop, hdue⟩ := heq hstop
    have heq' := hB.eq hstop
    rw [owed_congr ho]
    omega

theorem thread_balance {j : ℕ} (hB : Balanced i k m s a) (h : Step s (.thread j) t) : ∃ b, Balanced i k m t b := by
  have ho : t.timerExpire = s.timerExpire := by
    have hM := step_exit h
    generalize t.timer = tm, t.timerExpire = te, t.exit = x at hM
    cases hM with
    | fire he | expire he | restart he | unload he | cancel he | flag he | finish he | wake he | next he => cases he
    | same => rfl
  obtain ⟨b, hb, hT⟩ := step_thread h hB.thread
  refine ⟨b, ?_⟩
  cases hT with
  | other => exact hB.uncounted h ho hb hB.dozes le_rfl fun hs => ⟨hs, rfl⟩
  | own _ hown =>
    obtain ⟨hle, heq⟩ := own_due (hB.known.sound a hB.thread) hown
    refine hB.uncounted h ho hb (own_dozes hB.dozes hown) hle fun hs => ?_
    have hstop : a.task.shouldStop = false := (own_shouldStop hown).symm.trans hs
    exact ⟨hstop, heq hstop⟩
  | expiry he | flag he | wake he => cases he

theorem exit_balance (hB : Balanced i k m s a) (h : Step s .exit t) : ∃ b, Balanced i k m t b := by
  have ho : t.timerExpire = s.timerExpire := modExit_timerExpire h
  obtain ⟨b, hb, hT⟩ := step_thread h hB.thread
  refine ⟨b, ?_⟩
  cases hT with
  | other => exact hB.uncounted h ho hb hB.dozes le_rfl fun hs => ⟨hs, rfl⟩
  | own he | expiry he => cases he
  | flag =>
    exact hB.uncounted h ho hb hB.dozes (Nat.add_le_add_left (setStop_due a) _) fun hs => by cases hs
  | wake _ hx =>
    -- the stop flag is set before the wake-up, so no iteration comes of it
    have hstop := hB.known.flag a hB.thread hx
    refine hB.uncounted h ho hb (fun hrun => absurd rfl hrun) ?_ fun hs => ?_
    · rw [wakeUp_due_of_stop hstop]
      exact le_rfl
    · have hs' : a.task.shouldStop = false := hs
      rw [hstop] at hs'
      cases hs'

theorem fire_balance (hB : Balanced i k m s a) (h : Step s .fire t) : Balanced i (k + 1) m t a := by
  obtain ⟨hn, ht⟩ := step_fire h
  have hs : s.owed i = 0 := by simp [St.owed, hn]
  have ho : t.owed i = 1 := by simp [ht, St.owed]
  have hle := hB.le
  refine ⟨by rw [ht]; exact hB.thread, step_known hB.known h, hB.dozes, by omega, fun hstop => ?_⟩
  have heq := hB.eq hstop
  omega

/-- the turn of `timer_expire` at thread `i`: the wake-up counts as an iteration due or as one that found it running -/
theorem expire_balance (hB : Balanced i k m s a) (h : Step s .expire t) :
    ∃ m' b, Balanced i k m' t b ∧ m ≤ m' ∧ (m' = m ↔ FindsSleeper i s .expire t) := by
  obtain ⟨j, hj, ht⟩ := Option.map_eq_some_iff.1 h
  have hlen : i < s.arrThreads.length := (List.getElem?_eq_some_iff.1 hB.thread).1
  have hle := hB.le
  obtain ⟨b, hb, hT⟩ := step_thread h hB.thread
  rcases eq_or_ne j i with rfl | hne
  · obtain rfl : b = a.wakeUp := touches_wakeUp hT (Or.inl ⟨rfl, hj⟩)
    have hs : s.owed j = 1 := by simp [St.owed, hj]
    have ho : t.owed j = 0 := by
      rw [← ht]
      simp [timerExpire, hlen, St.owed]
    have hfinds : FindsSleeper j s .expire t ↔ a.task.state ≠ .running := by
      constructor
      · intro hf
        exact hf rfl hj a hB.thread
      · intro hrun _ _ c hc
        obtain rfl := Option.some.inj (hB.thread.symm.trans hc)
        exact hrun
    refine ⟨m + if a.task.state = .running then 1 else 0, a.wakeUp, ⟨hb, step_known hB.known h, ?_, ?_, ?_⟩, ?_, ?_⟩
    · exact fun hrun => absurd rfl hrun
    · have hi : a.wakeUp.iters = a.iters := rfl
      cases hstop : a.task.shouldStop with
      | true =>
        rw [wakeUp_due_of_stop hstop]
        split_ifs <;> omega
      | false =>
        rw [wakeUp_due hB.dozes hstop]
        split_ifs <;> omega
    · intro hstop
      have hi : a.wakeUp.iters = a.iters := rfl
      have heq := hB.eq hstop
      rw [wakeUp_due hB.dozes hstop]
      split_ifs <;> omega
    · exact Nat.le_add_right _ _
    · rw [hfinds]
      split_ifs with hrun <;> simp [hrun]
  · have hba : b = a := by
      cases hT with
      | other => rfl
      | own he | flag he | wake he => cases he
      | expiry _ hi => rw [hj] at hi; exact absurd (Option.some.inj hi) hne
    subst hba
    have ho : t.owed i = s.owed i := by
      rw [← ht]
      unfold timerExpire
      split_ifs with hlt
      · simp only [St.owed, hj]
        exact if_congr (by omega) rfl rfl
      · simp only [St.owed, hj]
        rw [if_neg (by omega)]
    refine ⟨m, b, ⟨hb, step_known hB.known h, hB.dozes, by rw [ho]; exact hle, ?_⟩, le_rfl, ?_⟩
    · intro hstop
      rw [ho]
      exact hB.eq hstop
    · simp only [true_iff]
      intro _ hi
      rw [hj] at hi
      exact absurd (Option.some.inj hi) hne

/-- **A step and the balance.** -/
theorem step_balance {ev : Ev} (hB : Balanced i k m s a) (h : Step s ev t) :
    ∃ m' b, Balanced i (k + [ev].count .fire) m' t b ∧ m ≤ m' ∧ (m' = m ↔ FindsSleeper i s ev t) := by
  cases ev with
  | thread j =>
    obtain ⟨b, hb⟩ := thread_balance hB h
    exact ⟨m, b, hb, le_rfl, by simp [FindsSleeper]⟩
  | fire => exact ⟨m, a, fire_balance hB h, le_rfl, by simp [FindsSleeper]⟩
  | expire => exact expire_balance hB h
  | exit =>
    obtain ⟨b, hb⟩ := exit_balance hB h
    exact ⟨m, b, hb, le_rfl, by simp [FindsSleeper]⟩

theorem run_balance {l : List Ev} (hr : Run Step s l t) (hB : Balanced i k m s a) :
    ∃ m' b, Balanced i (k + l.count .fire) m' t b ∧ m ≤ m' ∧ (m' = m ↔ Along Step (FindsSleeper i) s l) := by
  induction hr generalizing k m a with
  | nil s => exact ⟨m, a, hB, le_rfl, by simp [along_nil]⟩
  | @cons s u t ev l h1 _ ih =>
    obtain ⟨m₁, b, hb, hle₁, hm₁⟩ := step_balance hB h1
    obtain ⟨m₂, c, hc, hle₂, hm₂⟩ := ih hb
    have hcount : k + (ev :: l).count .fire = k + [ev].count .fire + l.count .fire := by
      rw [List.count_cons, List.count_singleton]
      omega
    refine ⟨m₂, c, hcount ▸ hc, hle₁.trans hle₂, ?_⟩
    -- no turn has found the thread running exactly when the first step has not and the others have not
    calc m₂ = m ↔ m₁ = m ∧ m₂ = m₁ := by omega
      _ ↔ FindsSleeper i s ev u ∧ Along Step (FindsSleeper i) u l := and_congr hm₁ hm₂
      _ ↔ Along Step (FindsSleeper i) s (ev :: l) := by
        rw [along_cons]
        constructor
        · intro hu v hv
          obtain rfl : u = v := Option.some.inj (h1.symm.trans hv)
          exact hu
        · intro hall
          exact hall u h1

end Steps

theorem balanced_init {n i : ℕ} {a : Thread} (ha : (modInit n).arrThreads[i]? = some a) :
    Balanced i 0 0 (modInit n) a := by
  have hnew := (List.mem_replicate.1 (List.mem_of_getElem? ha)).2
  refine ⟨ha, known_init n i, ?_, ?_, ?_⟩
  · rw [hnew]
    exact fun hrun => absurd rfl hrun
  · rw [hnew]
    exact le_of_eq rfl
  · rw [hnew]
    exact fun _ => rfl

/-- **Iterations are counted by expiries,** exactly for a thread that sleeps while no `timer_expire` is in progress. -/
theorem iterations_counted (n i : ℕ) (l : List Ev) (s : St) (a : Thread) (hr : Run Step (modInit n) l s)
    (ha : s.arrThreads[i]? = some a) :
    a.iters ≤ l.count .fire + 1 ∧
    (a.task.Asleep → a.task.shouldStop = false → s.timerExpire = none →
      (a.iters = l.count .fire + 1 ↔ Along Step (FindsSleeper i) (modInit n) l)) := by
  obtain ⟨c, hc⟩ := run_thread hr ha
  obtain ⟨m, b, hB, -, hm⟩ := run_balance hr (balanced_init hc)
  obtain rfl := Option.some.inj (hB.thread.symm.trans ha)
  rw [Nat.zero_add] at hB
  refine ⟨?_, fun hsl hstop hidle => ?_⟩
  · have hle := hB.le
    omega
  · obtain ⟨⟨pc, hp⟩, hrun⟩ := hsl
    have hdue : b.due = 0 := by simp [Thread.due, hp, hrun]
    have howed : s.owed i = 0 := by simp [St.owed, hidle]
    have heq := hB.eq hstop
    rw [← hm]
    omega

/-- one expiry, which finds the thread asleep -/
def oneExpiry : List Ev := toSleep ++ [.fire, .expire, .expire] ++ toSleep

/-- one expiry, before the thread has begun -/
def earlyExpiry : List Ev := [.fire, .expire, .expire] ++ toSleep

theorem iterations_counted_both :
    (∃ s a, Run Step (modInit 1) oneExpiry s ∧ s.arrThreads[0]? = some a ∧ a.iters = 2 ∧
      Along Step (FindsSleeper 0) (modInit 1) oneExpiry) ∧
    ∃ s a, Run Step (modInit 1) earlyExpiry s ∧ s.arrThreads[0]? = some a ∧ a.iters = 1 ∧
      ¬ Along Step (FindsSleeper 0) (modInit 1) earlyExpiry := by
  constructor
  · let a : Thread := ⟨⟨.inSchedule .test, .interruptible, false⟩, 2⟩
    have hr : Run Step (modInit 1) oneExpiry ⟨[a], true, none, .live⟩ := run_takes_iff.2 rfl
    have hiff := (iterations_counted 1 0 _ _ a hr rfl).2 ⟨⟨.test, rfl⟩, by decide⟩ rfl rfl
    exact ⟨_, a, hr, rfl, rfl, hiff.1 rfl⟩
  · let a : Thread := ⟨⟨.inSchedule .test, .interruptible, false⟩, 1⟩
    have hr : Run Step (modInit 1) earlyExpiry ⟨[a], true, none, .live⟩ := run_takes_iff.2 rfl
    have hiff := (iterations_counted 1 0 _ _ a hr rfl).2 ⟨⟨.test, rfl⟩, by decide⟩ rfl rfl
    have hne : ¬ a.iters = earlyExpiry.count .fire + 1 := by decide
    exact ⟨_, a, hr, rfl, rfl, fun hC => hne (hiff.2 hC)⟩

end Cse422.Timer
