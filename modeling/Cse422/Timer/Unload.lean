/-
How `mod_exit` ends. Once `hrtimer_cancel` has returned nothing starts the threads again but `kthread_stop`, and each of
them gets one wake-up from it.

- `run_left`: what the threads and `mod_exit` have left to do (`St.left`) falls with every step;
- `unload_ends`: with `n` threads there are at most `13 * n + 1` steps after `hrtimer_cancel`. When no step is left,
  either `mod_exit` has returned and every thread has exited, or `mod_exit` waits for a thread that is hung; and it has
  returned if `kthread_stop` has woken no thread between its test of the stop flag and its `set_current_state`.
-/
import Cse422.Core.Interleave
import Cse422.Timer.LostWake

namespace Cse422.Timer

open Lts Kthread

/-! ## What is left to do -/

/-- the steps that a thread takes before it sleeps or begins another iteration -/
def Thread.left (a : Thread) : ℕ :=
  match a.task.place with
  | .entry => if a.task.state = .running then 5 else 0
  | .fn .start => 4
  | .fn .loop => 3
  | .fn .body => 2
  | .fn .sched => if a.task.state = .running then 5 else 1
  | .fn .test => 4
  | .inSchedule _ => if a.task.state = .running then 5 else 0
  | .exited => 0

/-- what the rest of `mod_exit` does itself and brings about in `n` threads -/
def ExitPc.left (n : ℕ) : ExitPc → ℕ
  | .live | .cancel | .done => 0
  | .stop i => 8 * (n - i) + 1
  -- the wake-up gives the thread five more steps
  | .wake i => 8 * (n - i)
  | .wait i => 8 * (n - (i + 1)) + 2

def St.left (s : St) : ℕ := (s.arrThreads.map Thread.left).sum + s.exit.left s.arrThreads.length

theorem Thread.left_le (a : Thread) : a.left ≤ 5 := by
  unfold Thread.left
  split <;> (try split_ifs) <;> decide

theorem wakeUp_left (a : Thread) : a.wakeUp.left ≤ a.left + 5 := by
  have h := a.wakeUp.left_le
  omega

@[simp] theorem setStop_left (a : Thread) : a.setStop.left = a.left := rfl

theorem own_left {a b : Thread} (hs : Sound a) (h : a.step = some b) : b.left < a.left := by
  rcases own_cases h with ⟨hp, hrun, -, hb⟩ | ⟨pc, hp, hrun, -, hb⟩ | ⟨pc, hp, rfl⟩
  · have ha : a.left = 5 := by simp [Thread.left, hp, hrun]
    rw [ha]
    unfold Thread.left
    rw [hb]
    split_ifs <;> simp
  · obtain rfl := hs.sleeping pc hp
    have ha : a.left = 5 := by simp [Thread.left, hp, hrun]
    have hb : b.left = 4 := by simp [Thread.left, hb]
    omega
  · cases pc with
    | start | loop | body => simp [Thread.left, hp, spawnFunc]
    | sched =>
      by_cases hrun : a.task.state = .running <;> simp [Thread.left, hp, spawnFunc, TaskStruct.schedule, hrun]
    | test =>
      by_cases hstop : a.task.shouldStop = true <;> simp [Thread.left, hp, spawnFunc, hstop]

/-! ## mod_exit after hrtimer_cancel -/

/-- `hrtimer_cancel` has returned -/
def ExitPc.Stopping : ExitPc → Prop
  | .live | .cancel => False
  | .stop _ | .wake _ | .wait _ | .done => True

/-- `kthread_stop(arr_threads[i])` has returned -/
def ExitPc.Past (i : ℕ) : ExitPc → Prop
  | .live | .cancel => False
  | .stop j | .wake j | .wait j => i < j
  | .done => True

/-- the thread that `mod_exit` is stopping is one of `n` -/
def ExitPc.InRange (n : ℕ) : ExitPc → Prop
  | .wake i | .wait i => i < n
  | .live | .cancel | .stop _ | .done => True

/-- all that can happen after `hrtimer_cancel` -/
theorem stopping_cases {s t : St} {ev : Ev} (hc : Cancelled s) (hx : s.exit.Stopping) (h : Step s ev t) :
    (∃ i a b, s.arrThreads[i]? = some a ∧ a.step = some b ∧ t = { s with arrThreads := s.arrThreads.set i b }) ∨
    (∃ i a, s.exit = .stop i ∧ s.arrThreads[i]? = some a ∧
      t = { s with arrThreads := s.arrThreads.set i a.setStop, exit := .wake i }) ∨
    (∃ i, s.exit = .stop i ∧ s.arrThreads.length ≤ i ∧ t = { s with exit := .done }) ∨
    (∃ i, s.exit = .wake i ∧ t = { s with arrThreads := s.arrThreads.modify i Thread.wakeUp, exit := .wait i }) ∨
    ∃ i a, s.exit = .wait i ∧ s.arrThreads[i]? = some a ∧ a.task.place = .exited ∧ t = { s with exit := .stop (i + 1) } := by
  obtain ⟨hoff, hidle⟩ : s.timer = false ∧ s.timerExpire = none := by
    refine hc.resolve_left ?_
    rintro (hx' | hx') <;> rw [hx'] at hx <;> exact hx
  cases ev with
  | thread i =>
    simp only [Takes, step] at h
    split at h
    · cases h
    · rename_i a ha
      obtain ⟨b, hb, rfl⟩ := Option.map_eq_some_iff.1 h
      exact Or.inl ⟨i, a, b, ha, hb, rfl⟩
  | fire => simp [Takes, step, hoff] at h
  | expire => simp [Takes, step, hidle] at h
  | exit =>
    simp only [Takes, step, modExit] at h
    cases hs : s.exit with
    | live | cancel => rw [hs] at hx; exact hx.elim
    | stop i =>
      simp only [hs] at h
      split_ifs at h with hi
      · refine Or.inr (Or.inl ⟨i, s.arrThreads[i], rfl, List.getElem?_eq_getElem hi, ?_⟩)
        rw [← Option.some.inj h, List.modify_eq_set_get Thread.setStop hi]
        rfl
      · exact Or.inr (Or.inr (Or.inl ⟨i, rfl, not_lt.1 hi, (Option.some.inj h).symm⟩))
    | wake i =>
      simp only [hs] at h
      exact Or.inr (Or.inr (Or.inr (Or.inl ⟨i, rfl, (Option.some.inj h).symm⟩)))
    | wait i =>
      simp only [hs] at h
      split_ifs at h with he
      obtain ⟨a, ha, hp⟩ := Option.map_eq_some_iff.1 he
      exact Or.inr (Or.inr (Or.inr (Or.inr ⟨i, a, rfl, ha, hp, (Option.some.inj h).symm⟩)))
    | done => simp [hs] at h

theorem stopping_step {s t : St} {ev : Ev} (hx : s.exit.Stopping) (h : Step s ev t) : t.exit.Stopping := by
  have hM := step_exit h
  generalize t.timer = tm, t.timerExpire = te, t.exit = x at hM
  cases hM with
  | same | fire | expire | restart => exact hx
  | unload _ hx' => rw [hx'] at hx; exact hx.elim
  | cancel | flag | finish | wake | next => trivial

/-- what holds of the module in every run -/
structure Tidy (s : St) : Prop where
  cancelled : Cancelled s
  known : ∀ i, Known i s
  inRange : s.exit.InRange s.arrThreads.length
  /-- `wake_up_process` in `mod_init` comes before `mod_init` returns -/
  woken : ∀ a ∈ s.arrThreads, a.task.place = .entry → a.task.state = .running
  past : ∀ i a, s.arrThreads[i]? = some a → s.exit.Past i → a.task.place = .exited
  flagged : ∀ i a, s.arrThreads[i]? = some a → s.exit.Delivered i → a.task.shouldStop = true

theorem tidy_init (n : ℕ) : Tidy (modInit n) where
  cancelled := Or.inl (Or.inl rfl)
  known := known_init n
  inRange := trivial
  woken a ha _ := by
    obtain rfl := (List.mem_replicate.1 ha).2
    rfl
  past _ _ _ hp := hp.elim
  flagged _ _ _ hd := hd.elim

theorem inRange_step {s t : St} {ev : Ev} (hr : s.exit.InRange s.arrThreads.length) (h : Step s ev t) :
    t.exit.InRange t.arrThreads.length := by
  rw [step_length h]
  have hM := step_exit h
  generalize t.timer = tm, t.timerExpire = te, t.exit = x at hM
  cases hM with
  | same | fire | expire | restart => exact hr
  | unload | cancel | finish | next => trivial
  | flag _ _ hi => exact hi
  | wake _ hx => rw [hx] at hr; exact hr

/-- a thread never comes back before its function -/
theorem touches_entry {s : St} {ev : Ev} {i : ℕ} {a b : Thread} (h : Touches s ev i a b) (hb : b.task.place = .entry)
    (hrun : a.task.place = .entry → a.task.state = .running) : b.task.state = .running := by
  cases h with
  | other | flag => exact hrun hb
  | expiry | wake => rfl
  | own _ hown =>
    exfalso
    rcases own_cases hown with ⟨-, -, -, hbt⟩ | ⟨pc, -, -, -, hbt⟩ | ⟨pc, -, rfl⟩
    · rw [hbt] at hb
      split_ifs at hb
    · rw [hbt] at hb
      cases hb
    · cases pc with
      | start | loop | body => cases hb
      | sched => simp only [spawnFunc, TaskStruct.schedule] at hb; split_ifs at hb
      | test => simp only [spawnFunc] at hb; split_ifs at hb

theorem touches_exited {s : St} {ev : Ev} {i : ℕ} {a b : Thread} (h : Touches s ev i a b)
    (ha : a.task.place = .exited) : b.task.place = .exited := by
  cases h with
  | other | expiry | flag | wake => exact ha
  | own _ hown => simp [Thread.step, ha] at hown

/-- `mod_exit` leaves a thread behind only when it has exited -/
theorem past_cases {s : St} {ev : Ev} {x : ExitPc} {tm : Bool} {te : Option ℕ} {i : ℕ} {a : Thread}
    (h : Moves s ev tm te x) (ha : s.arrThreads[i]? = some a) (hp : x.Past i) :
    s.exit.Past i ∨ a.task.place = .exited := by
  cases h with
  | same | fire | expire | restart => exact Or.inl hp
  | unload => exact hp.elim
  | cancel => exact absurd hp (Nat.not_lt_zero i)
  | flag _ hx | wake _ hx => rw [hx]; exact Or.inl hp
  | finish _ hx hj => rw [hx]; exact Or.inl (lt_of_lt_of_le (List.getElem?_eq_some_iff.1 ha).1 hj)
  | @next j c _ hx hc he =>
    rcases Nat.lt_or_eq_of_le (Nat.le_of_lt_succ hp) with hij | rfl
    · rw [hx]
      exact Or.inl hij
    · obtain rfl := Option.some.inj (hc.symm.trans ha)
      exact Or.inr he

theorem step_tidy {s t : St} {ev : Ev} (hI : Tidy s) (h : Step s ev t) : Tidy t where
  cancelled := step_cancelled hI.cancelled h
  known i := step_known (hI.known i) h
  inRange := inRange_step hI.inRange h
  woken b hb he := by
    obtain ⟨i, hi⟩ := List.mem_iff_getElem?.1 hb
    obtain ⟨a, ha, hT⟩ := step_thread_back h hi
    exact touches_entry hT he (hI.woken a (List.mem_of_getElem? ha))
  past i b hb hp := by
    obtain ⟨a, ha, hT⟩ := step_thread_back h hb
    refine touches_exited hT ?_
    rcases past_cases (step_exit h) ha hp with hp | he
    · exact hI.past i a ha hp
    · exact he
  flagged i b hb hd := by
    obtain ⟨a, ha, hT⟩ := step_thread_back h hb
    refine touches_shouldStop hT ?_
    rcases delivered_cases (step_exit h) (List.getElem?_eq_some_iff.1 ha).1 hd with hd | ⟨-, hx⟩
    · exact hI.flagged i a ha hd
    · exact (hI.known i).flag a ha hx

theorem run_tidy {s : St} {l : List Ev} (n : ℕ) (hr : Run Step (modInit n) l s) : Tidy s :=
  Run.inv (I := Tidy) (fun _ _ _ hI h => step_tidy hI h) hr (tidy_init n)

/-! ## Termination -/

theorem step_left {s t : St} {ev : Ev} (hI : Tidy s) (hx : s.exit.Stopping) (h : Step s ev t) : t.left < s.left := by
  unfold St.left
  rw [step_length h]
  rcases stopping_cases hI.cancelled hx h with ⟨i, a, b, ha, hb, rfl⟩ | ⟨i, a, hs, ha, rfl⟩ | ⟨i, hs, hi, rfl⟩ |
    ⟨i, hs, rfl⟩ | ⟨i, a, hs, ha, -, rfl⟩
  · have hsum := sum_map_set (b := b) Thread.left ha
    have hlt := own_left ((hI.known i).sound a ha) hb
    simp only
    omega
  · have hsum := sum_map_set (b := a.setStop) Thread.left ha
    rw [setStop_left] at hsum
    simp only [hs, ExitPc.left]
    omega
  · simp only [hs, ExitPc.left]
    omega
  · have hi : i < s.arrThreads.length := by
      have hr := hI.inRange
      rw [hs] at hr
      exact hr
    have hsum := sum_map_set (b := s.arrThreads[i].wakeUp) Thread.left (List.getElem?_eq_getElem hi)
    have hle := wakeUp_left s.arrThreads[i]
    have hset : s.arrThreads.modify i Thread.wakeUp = s.arrThreads.set i s.arrThreads[i].wakeUp :=
      List.modify_eq_set_get Thread.wakeUp hi
    simp only [hs, ExitPc.left, hset]
    omega
  · simp only [hs, ExitPc.left]
    omega

/-- **What is left to do falls with every step.** -/
theorem run_left {s t : St} {l : List Ev} (hI : Tidy s) (hx : s.exit.Stopping) (hr : Run Step s l t) :
    l.length + t.left ≤ s.left :=
  Run.length_le (I := fun s => Tidy s ∧ s.exit.Stopping) St.left
    (fun _ _ _ hs h => ⟨step_tidy hs.1 h, stopping_step hs.2 h⟩) (fun _ _ _ hs h => step_left hs.1 hs.2 h) hr ⟨hI, hx⟩

theorem exit_left_le {n : ℕ} {x : ExitPc} (h : x.InRange n) : x.left n ≤ 8 * n + 1 := by
  cases x <;> simp only [ExitPc.left, ExitPc.InRange] at * <;> omega

theorem left_le {s : St} (hI : Tidy s) : s.left ≤ 13 * s.arrThreads.length + 1 := by
  have hsum : (s.arrThreads.map Thread.left).sum ≤ s.arrThreads.length * 5 := by
    have h := List.sum_le_card_nsmul (s.arrThreads.map Thread.left) 5 (by simp [Thread.left_le])
    simpa using h
  have hexit := exit_left_le hI.inRange
  unfold St.left
  omega

theorem run_length {s : St} {l : List Ev} {n : ℕ} (hr : Run Step (modInit n) l s) : s.arrThreads.length = n :=
  Run.inv (I := fun u : St => u.arrThreads.length = n) (fun _ _ _ hu h => (step_length h).trans hu) hr
    List.length_replicate

/-! ## Where a run can end -/

/-- nothing can take a step -/
def Stuck (s : St) : Prop := ∀ ev t, ¬ Step s ev t

/-- `mod_exit` has returned, and no thread is left -/
def Unloaded (s : St) : Prop := s.exit = .done ∧ ∀ a ∈ s.arrThreads, a.task.place = .exited

/-- a thread that can take no step -/
theorem own_stuck {a : Thread} (h : a.step = none) (hw : a.task.place = .entry → a.task.state = .running) :
    a.task.place = .exited ∨ a.task.Asleep := by
  cases hp : a.task.place with
  | entry =>
    simp only [Thread.step, hp, Option.map_eq_none_iff, TaskStruct.enter, hw hp, ne_eq, not_true_eq_false, if_false] at h
    split_ifs at h
  | fn pc => simp [Thread.step, hp] at h
  | inSchedule pc =>
    refine Or.inr ⟨⟨pc, hp⟩, fun hrun => ?_⟩
    simp [Thread.step, hp, TaskStruct.resume, hrun] at h
  | exited => exact Or.inl rfl

theorem Stuck.thread {s : St} {i : ℕ} {a : Thread} (hI : Tidy s) (h : Stuck s) (ha : s.arrThreads[i]? = some a) :
    a.task.place = .exited ∨ a.task.Asleep := by
  refine own_stuck ?_ (hI.woken a (List.mem_of_getElem? ha))
  by_contra hne
  obtain ⟨b, hb⟩ := Option.ne_none_iff_exists'.1 hne
  exact h _ _ (step_own ha hb)

/-- a module that is stuck has been unloaded, or never will be -/
theorem stuck_cases {s : St} (hI : Tidy s) (hx : s.exit.Stopping) (h : Stuck s) :
    Unloaded s ∨ ∃ i a, s.exit = .wait i ∧ Hung s i a := by
  have exit_stuck : modExit s = none := by
    by_contra hne
    obtain ⟨t, ht⟩ := Option.ne_none_iff_exists'.1 hne
    exact h .exit t ht
  cases hs : s.exit with
  | live | cancel => rw [hs] at hx; exact hx.elim
  | stop i =>
    simp only [modExit, hs] at exit_stuck
    split_ifs at exit_stuck
  | wake i => simp [modExit, hs] at exit_stuck
  | wait i =>
    have hi : i < s.arrThreads.length := by
      have hr := hI.inRange
      rw [hs] at hr
      exact hr
    have ha : s.arrThreads[i]? = some s.arrThreads[i] := List.getElem?_eq_getElem hi
    have hd : s.exit.Delivered i := by
      rw [hs]
      exact le_rfl
    obtain ⟨ht, he⟩ := hI.cancelled.resolve_left (by simp [hs])
    rcases h.thread hI ha with hp | hsl
    · simp only [modExit, hs, ha, Option.map_some, hp, if_true] at exit_stuck
      cases exit_stuck
    · exact Or.inr ⟨i, _, rfl, ha, hsl, hI.flagged i _ ha hd, hd, ht, he⟩
  | done =>
    refine Or.inl ⟨hs, fun a ha => ?_⟩
    obtain ⟨i, hi⟩ := List.mem_iff_getElem?.1 ha
    exact hI.past i a hi (by rw [hs]; trivial)

/-- no thread is hung where `kthread_stop` has woken none in the window -/
theorem along_not_hung {n i : ℕ} {s : St} {l : List Ev} {a : Thread} (hC : Along Step StopsOutsideWindow (modInit n) l)
    (hr : Run Step (modInit n) l s) : ¬ Hung s i a := by
  intro hh
  have hI : Known i s ∧ Leaving i s :=
    Along.inv (I := fun s => Known i s ∧ Leaving i s)
      (fun _ _ _ hI hc h => ⟨step_known hI.1 h, step_leaving hI.1 hI.2 hc h⟩) hC hr
      ⟨known_init n i, fun _ _ hd => hd.elim⟩
  exact (hI.2 a hh.thread hh.delivered).2.not_asleep hh.asleep

/-- **Unloading ends.** -/
theorem unload_ends (n : ℕ) (l : List Ev) (s : St) (hr : Run Step (modInit n) l s) (hx : s.exit.Stopping) :
    (∀ k t, Run Step s k t → k.length ≤ 13 * n + 1) ∧
    ∀ k t, Run Step s k t → Stuck t →
      (Unloaded t ∨ ∃ i a, t.exit = .wait i ∧ Hung t i a) ∧
      (Along Step StopsOutsideWindow (modInit n) (l ++ k) → Unloaded t) := by
  refine ⟨fun k t hk => ?_, fun k t hk hstuck => ?_⟩
  · have hI := run_tidy n hr
    calc k.length ≤ k.length + t.left := Nat.le_add_right _ _
      _ ≤ s.left := run_left hI hx hk
      _ ≤ 13 * n + 1 := by rw [← run_length hr]; exact left_le hI
  · have hlk : Run Step (modInit n) (l ++ k) t := run_append_iff.2 ⟨s, hr, hk⟩
    have hxt : t.exit.Stopping := Run.inv (I := fun u : St => u.exit.Stopping) (fun _ _ _ hu h => stopping_step hu h) hk hx
    have hcases := stuck_cases (run_tidy n hlk) hxt hstuck
    refine ⟨hcases, fun hC => hcases.resolve_right ?_⟩
    rintro ⟨i, a, -, hh⟩
    exact along_not_hung hC hlk hh

theorem Stuck.of_none {s : St} (hthreads : ∀ a ∈ s.arrThreads, a.step = none) (htimer : s.timer = false)
    (hexpire : s.timerExpire = none) (hexit : modExit s = none) : Stuck s := by
  intro ev t h
  cases ev with
  | thread i =>
    simp only [Step, Takes, step] at h
    split at h
    · cases h
    · rename_i a ha
      simp [hthreads a (List.mem_of_getElem? ha)] at h
  | fire => simp [Step, Takes, step, htimer] at h
  | expire => simp [Step, Takes, step, hexpire] at h
  | exit => simp [Step, Takes, step, hexit] at h

/-- to `hrtimer_cancel`'s return -/
def toStopping : List Ev := List.replicate 2 .exit

/-- two threads, which sleep when the unload begins -/
def twoAsleep : List Ev := toSleep ++ List.replicate 5 (.thread 1) ++ toStopping

/-- `mod_exit` stops them one after the other -/
def stopsBoth : List Ev :=
  [.exit, .exit, .thread 0, .thread 0, .exit, .exit, .exit, .thread 1, .thread 1, .exit, .exit]

/-- both ends: two threads that sleep are stopped, and one that is stopped in the body of an iteration is hung -/
theorem unload_ends_both :
    (∃ s t, Run Step (modInit 2) twoAsleep s ∧ (∀ k u, Run Step s k u → k.length ≤ 27) ∧ Run Step s stopsBoth t ∧
      Unloaded t) ∧
    ∃ s t i a, Run Step (modInit 1) (toBody ++ toStopping) s ∧ Run Step s ([.exit, .exit] ++ fallAsleep) t ∧
      t.exit = .wait i ∧ Hung t i a := by
  constructor
  · let s : St := ⟨List.replicate 2 ⟨⟨.inSchedule .test, .interruptible, false⟩, 1⟩, false, none, .stop 0⟩
    let t : St := ⟨List.replicate 2 ⟨⟨.exited, .running, true⟩, 1⟩, false, none, .done⟩
    have hr : Run Step (modInit 2) twoAsleep s := run_takes_iff.2 rfl
    have hk : Run Step s stopsBoth t := run_takes_iff.2 rfl
    obtain ⟨hbound, hend⟩ := unload_ends 2 _ s hr trivial
    have hstuck : Stuck t := .of_none (by decide) rfl rfl rfl
    exact ⟨s, t, hr, hbound, hk, (hend _ t hk hstuck).2 (by decide)⟩
  · let s : St := ⟨[⟨⟨.fn .body, .running, false⟩, 1⟩], false, none, .stop 0⟩
    let t : St := ⟨[⟨⟨.inSchedule .test, .interruptible, true⟩, 1⟩], false, none, .wait 0⟩
    have hr : Run Step (modInit 1) (toBody ++ toStopping) s := run_takes_iff.2 rfl
    have hk : Run Step s ([.exit, .exit] ++ fallAsleep) t := run_takes_iff.2 rfl
    have hstuck : Stuck t := .of_none (by decide) rfl rfl rfl
    obtain ⟨hdone, -⟩ | ⟨i, a, hx, hh⟩ := ((unload_ends 1 _ s hr trivial).2 _ t hk hstuck).1
    · cases hdone
    · exact ⟨s, t, i, a, hr, hk, hx, hh⟩

end Cse422.Timer
