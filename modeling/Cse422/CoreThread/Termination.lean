/-
What ends in the modules of studio 8, and what need not. The threads have one `i`: a thread that has read it long ago
sets the others back when it writes, and a thread that starts sends them all back to zero.

- `thread_work`: each access of a thread lowers the `work` that is left, as long as `i++` does not overflow. A value that
  has been read and not yet written counts for more than all the turns that its write can bring back;
- `counting_ends`: when `mod_init` has returned, the threads take at most as many steps as there is work left, and when
  none can move each of them waits to be stopped, or has never been woken;
- `creation_unbounded`: `mod_init` need not return: it can create any number of threads, all of them for the first slot.
-/
import Cse422.CoreThread.Counting

namespace Cse422.CoreThread

open Lts Kthread

/-! ## Work -/

/-- the turns that the loop makes from the value `x` of `i` -/
def turnsLeft (iters : ℕ) (x : BitVec 32) : ℕ := (iters - x.toInt).toNat

/-- the weight of a write of `i` with `d` turns left before it, among fewer than `n` threads -/
def pending (n : ℕ) : ℕ → ℕ
  | 0 => 2
  | d + 1 => n * (pending n d + 4) + 1

/-- the weight of a thread in `boring_func` -/
def Boring.work (n iters : ℕ) (i : BitVec 32) (b : Boring) : ℕ :=
  match b.pc with
  | .init => n * (pending n iters + 4) + 1
  | .test => if turnsLeft iters i = 0 then 1 else pending n (turnsLeft iters i) + 4
  | .add => pending n (turnsLeft iters i) + 3
  | .store _ => pending n (turnsLeft iters i) + 2
  | .readI => pending n (turnsLeft iters i) + 1
  | .writeI x => pending n (turnsLeft iters x)
  | .left => 0

def work (n iters : ℕ) (i : BitVec 32) (a : Thread) : ℕ :=
  match a.place with
  | .entry => n * (pending n iters + 4) + 2
  | .fn b => b.work n iters i
  | .inSchedule _ | .exited => 0

def Loaded.work (iters : ℕ) (s : Loaded) : ℕ := (s.threads.map (CoreThread.work (s.threads.length + 1) iters s.i)).sum

/-- the thread that takes a step does not write `i++` for the largest `int` -/
def NoOverflow (s : Loaded) : Ev → Prop
  | .modInit _ => True
  | .thread k => ∀ b ∈ (s.threads[k]?).bind fun a => a.place.pc?, ∀ x, b.pc = .writeI x → x.toInt ≠ 2 ^ 31 - 1

section Work

variable {src : Source} {T iters n k : ℕ} {s t : Loaded} {a : Thread} {b : Boring} {i j : BitVec 32}

theorem pending_mono (hn : 0 < n) {d e : ℕ} (h : d ≤ e) : pending n d ≤ pending n e := by
  refine monotone_nat_of_le_succ (fun d => ?_) h
  calc pending n d ≤ pending n d + 4 := Nat.le_add_right _ _
    _ ≤ n * (pending n d + 4) := Nat.le_mul_of_pos_left _ hn
    _ ≤ pending n (d + 1) := Nat.le_succ _

/-- the threads that go by `i` weigh no more than this -/
theorem Boring.work_le (hn : 0 < n) {d : ℕ} (hd : turnsLeft iters j ≤ d) :
    b.work n iters j ≤ b.work n iters i + (pending n d + 4) := by
  have hle := pending_mono hn hd
  obtain ⟨pc, w⟩ := b
  cases pc <;> simp only [Boring.work] <;> (try split_ifs) <;> omega

theorem work_le (hn : 0 < n) {d : ℕ} (hd : turnsLeft iters j ≤ d) (a : Thread) :
    work n iters j a ≤ work n iters i a + (pending n d + 4) := by
  unfold work
  cases a.place with
  | fn b => exact b.work_le hn hd
  | entry | inSchedule b | exited => exact Nat.le_add_right _ _

/-- where no turn is left nothing weighs more than elsewhere -/
theorem work_le_of_zero (hn : 0 < n) (hj : turnsLeft iters j = 0) (a : Thread) :
    work n iters j a ≤ work n iters i a := by
  have hle := pending_mono hn (Nat.zero_le (turnsLeft iters i))
  unfold work
  cases a.place with
  | fn b =>
    obtain ⟨pc, w⟩ := b
    cases pc <;> simp only [Boring.work, hj, if_true] <;> (try split_ifs) <;> omega
  | entry | inSchedule b | exited => exact le_rfl

/-- a sum over the threads of which each weighs at most `c` more -/
theorem sum_work_le {f g : Thread → ℕ} {c : ℕ} (h : ∀ a, g a ≤ f a + c) (l : List Thread) :
    (l.map g).sum ≤ (l.map f).sum + l.length * c := by
  induction l with
  | nil => exact Nat.zero_le _
  | cons a l ih =>
    have ha := h a
    rw [List.map_cons, List.map_cons, List.sum_cons, List.sum_cons, List.length_cons, Nat.succ_mul]
    omega

theorem turnsLeft_succ {x : BitVec 32} (h : x.toInt ≠ 2 ^ 31 - 1) : turnsLeft iters (x + 1) = turnsLeft iters x - 1 := by
  unfold turnsLeft
  rcases toInt_succ x with hx | ⟨hx, -⟩
  · omega
  · exact absurd hx h

/-- a step of one thread that leaves `i` -/
theorem work_set {t' : Thread} (hk : s.threads[k]? = some a) (d : BitVec 32)
    (hlt : work (s.threads.length + 1) iters s.i t' < work (s.threads.length + 1) iters s.i a) :
    Loaded.work iters { s with sharedData := d, threads := s.threads.set k t' } < s.work iters := by
  have hsum := sum_map_set (b := t') (work (s.threads.length + 1) iters s.i) hk
  unfold Loaded.work
  dsimp only
  rw [List.length_set]
  omega

/-- a step of one thread that writes `i`, when its weight covers all the turns that may come back -/
theorem work_write {t' : Thread} {c : ℕ} (hk : s.threads[k]? = some a) (d : BitVec 32)
    (hothers : ∀ e, work (s.threads.length + 1) iters j e ≤ work (s.threads.length + 1) iters s.i e + c)
    (ha : work (s.threads.length + 1) iters j a = work (s.threads.length + 1) iters s.i a)
    (hlt : s.threads.length * c + work (s.threads.length + 1) iters j t' < work (s.threads.length + 1) iters s.i a) :
    Loaded.work iters { s with i := j, sharedData := d, threads := s.threads.set k t' } < s.work iters := by
  have hsum := sum_map_set (b := t') (work (s.threads.length + 1) iters j) hk
  have hle := sum_work_le hothers s.threads
  unfold Loaded.work
  dsimp only
  rw [List.length_set]
  omega

theorem init_work {w : BitVec 32} {t' : Thread} (hk : s.threads[k]? = some a) (ha : a.place = .fn ⟨.init, w⟩)
    (ht : t'.place = .fn ⟨.test, 0⟩) (d : BitVec 32) :
    Loaded.work iters { s with i := 0, sharedData := d, threads := s.threads.set k t' } < s.work iters := by
  have hzero : turnsLeft iters 0 = iters := by simp [turnsLeft]
  have hold : ∀ i, work (s.threads.length + 1) iters i a =
      (s.threads.length + 1) * (pending (s.threads.length + 1) iters + 4) + 1 := by
    intro i
    simp only [work, ha, Boring.work]
  have hnew : work (s.threads.length + 1) iters 0 t' ≤ pending (s.threads.length + 1) iters + 4 := by
    simp only [work, ht, Boring.work, hzero]
    split_ifs <;> omega
  have hn : 0 < s.threads.length + 1 := Nat.succ_pos _
  refine work_write hk d (work_le hn hzero.le) ((hold 0).trans (hold s.i).symm) ?_
  rw [hold, Nat.add_one_mul]
  omega

theorem write_work {x w : BitVec 32} {t' : Thread} (hk : s.threads[k]? = some a) (ha : a.place = .fn ⟨.writeI x, w⟩)
    (ht : t'.place = .fn ⟨.test, x + 1⟩) (hx : x.toInt ≠ 2 ^ 31 - 1) (d : BitVec 32) :
    Loaded.work iters { s with i := x + 1, sharedData := d, threads := s.threads.set k t' } < s.work iters := by
  have hold : ∀ i, work (s.threads.length + 1) iters i a = pending (s.threads.length + 1) (turnsLeft iters x) := by
    intro i
    simp only [work, ha, Boring.work]
  have hsucc : turnsLeft iters (x + 1) = turnsLeft iters x - 1 := turnsLeft_succ hx
  cases hd : turnsLeft iters x with
  | zero =>
    have hzero : turnsLeft iters (x + 1) = 0 := by rw [hsucc, hd]
    have hothers : ∀ e, work (s.threads.length + 1) iters (x + 1) e ≤ work (s.threads.length + 1) iters s.i e + 0 :=
      work_le_of_zero (Nat.succ_pos _) hzero
    have hnew : work (s.threads.length + 1) iters (x + 1) t' = 1 := by
      simp only [work, ht, Boring.work, hzero, if_true]
    refine work_write hk d hothers ((hold _).trans (hold s.i).symm) ?_
    rw [hold, hd, hnew, Nat.mul_zero]
    exact Nat.lt_succ_self 1
  | succ e =>
    have hturns : turnsLeft iters (x + 1) = e := by rw [hsucc, hd, Nat.add_sub_cancel]
    have hnew : work (s.threads.length + 1) iters (x + 1) t' ≤ pending (s.threads.length + 1) e + 4 := by
      simp only [work, ht, Boring.work, hturns]
      split_ifs <;> omega
    have hn : 0 < s.threads.length + 1 := Nat.succ_pos _
    refine work_write hk d (work_le hn hturns.le) ((hold _).trans (hold s.i).symm) ?_
    rw [hold, hd, pending, Nat.add_one_mul]
    omega

/-- **Each step of a thread lowers the work that is left.** -/
theorem thread_work (hst : thread src iters s k = some t) (hno : NoOverflow s (.thread k)) :
    t.work iters < s.work iters := by
  obtain ⟨a, hk, ⟨a', ha, henter, rfl⟩ | ⟨⟨pc, w⟩, r, ha, hr, rfl⟩⟩ := thread_eq_some hst
  · refine work_set hk s.sharedData ?_
    obtain ⟨-, rfl⟩ := enter_eq_some henter
    simp only [work, ha]
    split_ifs
    · exact Nat.succ_pos _
    · exact Nat.lt_succ_self _
  · have hsame : ∀ i, work (s.threads.length + 1) iters i a = Boring.work (s.threads.length + 1) iters i ⟨pc, w⟩ := by
      intro i
      simp only [work, ha]
    cases pc with
    | init =>
      obtain rfl := Option.some.inj hr
      exact init_work hk ha rfl _
    | test =>
      obtain rfl := Option.some.inj hr
      refine work_set hk s.sharedData ?_
      rw [hsame]
      have hturns : turnsLeft iters s.i = 0 ↔ ¬ s.i.toInt < iters := by
        unfold turnsLeft
        omega
      by_cases hlt : s.i.toInt < iters
      · simp [work, Boring.work, hturns, hlt]
      · simp [work, Boring.work, hturns, hlt]
    | add =>
      cases src <;> obtain rfl := Option.some.inj hr <;> refine work_set hk _ ?_ <;> rw [hsame] <;>
        simp [work, Boring.work]
    | store x =>
      obtain rfl := Option.some.inj hr
      refine work_set hk _ ?_
      rw [hsame]
      simp [work, Boring.work]
    | readI =>
      obtain rfl := Option.some.inj hr
      refine work_set hk s.sharedData ?_
      rw [hsame]
      simp [work, Boring.work]
    | writeI x =>
      obtain rfl := Option.some.inj hr
      exact write_work hk ha rfl (hno _ (by rw [hk]; exact congrArg Place.pc? ha) x rfl) _
    | left => cases hr

end Work

/-! ## The end -/

section End

variable {src : Source} {T iters k : ℕ} {s t : Loaded}

/-- nobody stops a thread in these modules before `mod_exit`, and no `schedule` puts one to sleep -/
def Plain (a : Thread) : Prop := a.shouldStop = false ∧ (a.place = .entry ∨ ∃ b, a.place = .fn b)

/-- `mod_init` has not woken the thread -/
def Unwoken (a : Thread) : Prop := a.place = .entry ∧ a.state ≠ .running

theorem threadsStep_plain {ts us : List Thread} (h : ThreadsStep ts us) (hts : ∀ a ∈ ts, Plain a) : ∀ a ∈ us, Plain a := by
  cases h with
  | same => exact hts
  | create =>
    intro a ha
    rcases List.mem_append.1 ha with ha | ha
    · exact hts a ha
    · obtain rfl := List.mem_singleton.1 ha
      exact ⟨rfl, Or.inl rfl⟩
  | wake k =>
    cases hk : ts[k]? with
    | none => rwa [List.modify_eq_self (List.getElem?_eq_none_iff.1 hk)]
    | some c =>
      rw [List.modify_eq_set_getElem?, hk]
      exact forall_mem_set hts (hts c (List.mem_of_getElem? hk))

theorem step_plain {ev : Ev} (hs : ∀ a ∈ s.threads, Plain a) (hst : step src T iters s ev = some t) :
    ∀ a ∈ t.threads, Plain a := by
  cases ev with
  | modInit created =>
    have hmod : modInit src T s created = some t := hst
    rcases modInit_quiet hmod with ⟨hthreads, -⟩ | ⟨-, hthreads, -⟩
    · exact threadsStep_plain hthreads hs
    · exact hthreads ▸ hs
  | thread k =>
    obtain ⟨a, hk, ⟨a', -, henter, rfl⟩ | ⟨b, r, -, -, rfl⟩⟩ := thread_eq_some hst
    · obtain ⟨hstop, -⟩ := hs a (List.mem_of_getElem? hk)
      obtain ⟨-, rfl⟩ := enter_eq_some henter
      refine forall_mem_set hs ⟨hstop, Or.inr ⟨⟨.init, 0⟩, ?_⟩⟩
      rw [hstop, if_neg Bool.false_ne_true]
    · exact forall_mem_set hs ⟨(hs a (List.mem_of_getElem? hk)).1, Or.inr ⟨_, rfl⟩⟩

theorem run_plain {l : List Ev} (hr : Run (Takes (step src T iters)) (loaded T) l s) : ∀ a ∈ s.threads, Plain a :=
  Run.inv (I := fun s => ∀ a ∈ s.threads, Plain a) (fun _ _ _ hs hst => step_plain hs hst) hr
    fun _ ha => absurd ha List.not_mem_nil

/-- a thread that cannot move -/
theorem stuck_thread {a : Thread} (hk : s.threads[k]? = some a) (ha : Plain a) (h : thread src iters s k = none) :
    Left a ∨ Unwoken a := by
  obtain ⟨hstop, ha | ⟨b, hb⟩⟩ := ha
  · refine Or.inr ⟨ha, fun hrun => ?_⟩
    simp [thread_entry hk ha, TaskStruct.enter, hrun, hstop] at h
  · rw [thread_fn hk hb, Option.map_eq_none_iff] at h
    refine Or.inl ⟨b, hb, ?_⟩
    unfold boringFunc at h
    split at h <;> first | assumption | cases h | (cases src <;> cases h)

/-- `mod_init` stays where it has returned -/
theorem step_done {ev : Ev} (hdone : s.modInit = .done) (hst : step src T iters s ev = some t) :
    t.modInit = .done ∧ ∃ k, ev = .thread k := by
  cases ev with
  | modInit created => simp [step, modInit, hdone] at hst
  | thread k =>
    obtain ⟨a, -, ⟨a', -, -, rfl⟩ | ⟨b, r, -, -, rfl⟩⟩ := thread_eq_some hst
    · exact ⟨hdone, k, rfl⟩
    · exact ⟨hdone, k, rfl⟩

/-- what the threads do after `mod_init` -/
theorem run_work {l : List Ev} (hdone : s.modInit = .done) (hr : Run (Takes (step src T iters)) s l t)
    (hno : Along (Takes (step src T iters)) (fun s ev _ => NoOverflow s ev) s l) : l.length + t.work iters ≤ s.work iters := by
  induction hr with
  | nil s => rw [List.length_nil, Nat.zero_add]
  | @cons s u t ev l h1 _ ih =>
    obtain ⟨hno₁, hno₂⟩ := along_cons.1 hno u h1
    obtain ⟨hdone', k, rfl⟩ := step_done hdone h1
    have hlt := thread_work h1 hno₁
    have hle := ih hdone' hno₂
    rw [List.length_cons]
    omega

/-- **The counting ends.** -/
theorem counting_ends (src : Source) (T iters : ℕ) (l : List Ev) (s : Loaded)
    (hr : Run (Takes (step src T iters)) (loaded T) l s) (hdone : s.modInit = .done) :
    (∀ k t, Run (Takes (step src T iters)) s k t →
      Along (Takes (step src T iters)) (fun s ev _ => NoOverflow s ev) s k → k.length + t.work iters ≤ s.work iters) ∧
    ∀ k t, Run (Takes (step src T iters)) s k t → (∀ ev, step src T iters t ev = none) →
      ∀ a ∈ t.threads, Left a ∨ Unwoken a := by
  refine ⟨fun k t hk hno => run_work hdone hk hno, fun k t hk hstuck a ha => ?_⟩
  have hplain := run_plain (run_append_iff.2 ⟨s, hr, hk⟩)
  obtain ⟨i, hi⟩ := List.mem_iff_getElem?.1 ha
  exact stuck_thread hi (hplain a ha) (hstuck (.thread i))

/-- this place does not write `i++` for the largest `int` -/
def BoringPc.fits : BoringPc → Bool
  | .writeI x => decide (x.toInt ≠ 2 ^ 31 - 1)
  | _ => true

theorem BoringPc.fits_iff {pc : BoringPc} : pc.fits ↔ ∀ x, pc = .writeI x → x.toInt ≠ 2 ^ 31 - 1 := by
  cases pc <;> simp [fits]

instance (s : Loaded) : ∀ ev, Decidable (NoOverflow s ev)
  | .modInit _ => isTrue trivial
  | .thread k => decidable_of_iff (∀ b ∈ (s.threads[k]?).bind fun a => a.place.pc?, b.pc.fits)
      (by simp only [NoOverflow, BoringPc.fits_iff])

/-- two threads that have counted to 2, in step -/
def countedTwo : Loaded :=
  ⟨2, 2, [.task 0, .task 1], List.replicate 2 ⟨.fn ⟨.left, 2⟩, .running, false⟩, .done, 2, [0, 0, 0, 0, 1, 1, 1, 1],
    [0, 1], 0⟩

theorem countedTwo_stuck (ev : Ev) : step .coreThread 2 2 countedTwo ev = none := by
  cases ev with
  | modInit created => rfl
  | thread k =>
    obtain _ | _ | k := k
    · rfl
    · rfl
    · rfl

/-- one step of each thread, again and again -/
def inStep : List Ev := (List.replicate 13 [.thread 0, .thread 1]).flatten

theorem counting_ends_two : ∃ s, Run (Takes (step .coreThread 2 2)) (loaded 2) (List.replicate 22 (.modInit true)) s ∧
    Run (Takes (step .coreThread 2 2)) s inStep countedTwo ∧ inStep.length + countedTwo.work 2 ≤ 448 ∧
    ∀ a ∈ countedTwo.threads, Left a ∨ Unwoken a := by
  have hobs : ((List.replicate 22 (Ev.modInit true)).foldlM (step .coreThread 2 2) (loaded 2)).map
      (fun s : Loaded => (s.modInit, s.work 2, inStep.foldlM (step .coreThread 2 2) s,
        decide (Along (Takes (step .coreThread 2 2)) (fun s ev _ => NoOverflow s ev) s inStep))) =
      some (.done, 448, some countedTwo, true) := by decide +kernel
  obtain ⟨s, hs, ho⟩ := Option.map_eq_some_iff.1 hobs
  simp only [Prod.mk.injEq, decide_eq_true_eq] at ho
  obtain ⟨hdone, hwork, hk, hno⟩ := ho
  have hr := run_takes_iff.2 hs
  have hrk := run_takes_iff.2 hk
  obtain ⟨hbound, hstuck⟩ := counting_ends .coreThread 2 2 _ s hr hdone
  rw [hwork] at hbound
  exact ⟨s, hr, hrk, hbound inStep countedTwo hrk hno, hstuck inStep countedTwo hrk countedTwo_stuck⟩

end End

/-! ## Creation without end -/

section Create

variable (src : Source) (iters : ℕ) {T j m : ℕ} {s : Loaded}

/-- the start of a turn, with the message that only one of the modules prints -/
theorem to_create (hpc : s.modInit = .test) (hlt : s.i.toInt < T) :
    ∃ l, Run (Takes (step src T iters)) s l { s with modInit := .create } := by
  cases src with
  | coreThread =>
    refine ⟨[.modInit true], .cons ?_ (.nil _)⟩
    simp only [Takes, step, modInit, hpc, hlt, if_true]
  | coreThreadAtomic =>
    refine ⟨[.modInit true, .modInit true], .cons (u := { s with modInit := .announce }) ?_ (.cons ?_ (.nil _))⟩
    · simp only [Takes, step, modInit, hpc, hlt, if_true]
    · simp only [Takes, step, modInit]

/-- a thread is created and stored -/
theorem turn_stores (hpc : s.modInit = .create) (hi : s.i.toInt = j) (hj : j < s.arrTaskptr.length) :
    Run (Takes (step src T iters)) s (List.replicate 2 (.modInit true)) { s with
      threads := s.threads ++ [kthreadCreate], arrTaskptr := s.arrTaskptr.set j (.task s.threads.length),
      modInit := .isErr, accesses := s.accesses ++ [(j : ℤ)], stores := s.stores ++ [(j : ℤ)] } := by
  have hold : s.arrTaskptr[j]? = some s.arrTaskptr[j] := List.getElem?_eq_getElem hj
  refine run_takes_iff.2 ?_
  simp [List.replicate, step, modInit, access, hpc, hi, hold]

/-- the thread in the slot is tested and woken -/
theorem turn_wakes {k : ℕ} (hpc : s.modInit = .isErr) (hi : s.i.toInt = j) (hslot : s.arrTaskptr[j]? = some (.task k)) :
    Run (Takes (step src T iters)) s (List.replicate 2 (.modInit true)) { s with
      threads := s.threads.modify k TaskStruct.wakeUp, modInit := .binding,
      accesses := s.accesses ++ [(j : ℤ), (j : ℤ)] } := by
  refine run_takes_iff.2 ?_
  simp [List.replicate, step, modInit, access, wakeUpProcess, hpc, hi, hslot]

/-- the thread in the slot is bound, and `i` counted up -/
theorem turn_binds {k : ℕ} (hpc : s.modInit = .binding) (hi : s.i.toInt = j) (hslot : s.arrTaskptr[j]? = some (.task k)) :
    Run (Takes (step src T iters)) s (List.replicate 5 (.modInit true)) { s with
      i := s.i + 1, wrote := s.i + 1, modInit := .test, accesses := s.accesses ++ [(j : ℤ)] } := by
  refine run_takes_iff.2 ?_
  simp [List.replicate, step, modInit, access, hpc, hi, hslot]

/-- a turn of `mod_init` of its own -/
theorem turn_creates (hpc : s.modInit = .test) (hi : s.i.toInt = j) (hj : j < T) (hlen : s.arrTaskptr.length = T) :
    ∃ l t, Run (Takes (step src T iters)) s l t ∧ t.modInit = .test ∧ t.i = s.i + 1 ∧ t.failed = s.failed ∧
      t.threads = s.threads ++ [kthreadCreate.wakeUp] ∧ t.arrTaskptr = s.arrTaskptr.set j (.task s.threads.length) := by
  obtain ⟨l, hl⟩ := to_create src iters hpc (by rw [hi]; exact_mod_cast hj)
  have hjlen : j < s.arrTaskptr.length := by rw [hlen]; exact hj
  have hnew : (s.arrTaskptr.set j (.task s.threads.length))[j]? = some (.task s.threads.length) :=
    List.getElem?_set_self hjlen
  have hwake : (s.threads ++ [kthreadCreate]).modify s.threads.length TaskStruct.wakeUp =
      s.threads ++ [kthreadCreate.wakeUp] := by
    rw [List.modify_eq_set_getElem?]
    simp
  have hstores := turn_stores src iters (T := T) (s := { s with modInit := .create }) rfl hi hjlen
  refine ⟨_, _, run_append_iff.2 ⟨_, hl, run_append_iff.2 ⟨_, hstores, run_append_iff.2
    ⟨_, turn_wakes src iters rfl hi hnew, turn_binds src iters rfl hi hnew⟩⟩⟩, rfl, rfl, rfl, hwake, rfl⟩

/-- the thread that `mod_init` has just woken -/
def woken : Thread := kthreadCreate.wakeUp

/-- the new thread starts, and sends `i` back to zero -/
theorem thread_starts (hk : s.threads[j]? = some woken) : ∃ t, Run (Takes (step src T iters)) s
    (List.replicate 2 (.thread j)) t ∧ t.modInit = s.modInit ∧ t.i = 0 ∧ t.failed = s.failed ∧
      t.threads.length = s.threads.length ∧ t.arrTaskptr = s.arrTaskptr := by
  have hlt : j < s.threads.length := (List.getElem?_eq_some_iff.1 hk).1
  let entered : Thread := { woken with place := .fn ⟨.init, 0⟩ }
  let started : Thread := { woken with place := .fn ⟨.test, 0⟩ }
  let u : Loaded := { s with threads := s.threads.set j entered }
  have hu : u.threads[j]? = some entered := List.getElem?_set_self hlt
  refine ⟨{ u with i := 0, threads := u.threads.set j started }, ?_, rfl, rfl, rfl, ?_, rfl⟩
  · refine .cons (u := u) ?_ (.cons ?_ (.nil _))
    · simp only [Takes, step, thread_entry hk (show woken.place = .entry from rfl)]
      rfl
    · simp only [Takes, step, thread_fn hu (show entered.place = .fn ⟨.init, 0⟩ from rfl)]
      rfl
  · simp only [u, List.length_set]

/-- any number of turns at the first slot -/
theorem first_slot (hT : 0 < T) (m : ℕ) : ∃ l s, Run (Takes (step src T iters)) (loaded T) l s ∧ s.modInit = .test ∧
    s.i = 0 ∧ s.failed = 0 ∧ s.threads.length = m ∧ s.arrTaskptr.length = T := by
  induction m with
  | zero =>
    refine ⟨[.modInit true], { loaded T with modInit := .test }, .cons ?_ (.nil _), rfl, rfl, rfl, rfl, ?_⟩
    · rfl
    · exact List.length_replicate
  | succ m ih =>
    obtain ⟨l, s, hr, hpc, hi, hf, hm, hlen⟩ := ih
    have hzero : s.i.toInt = (0 : ℕ) := by rw [hi]; rfl
    obtain ⟨k, t, hk, hpc', -, hf', hthreads, harr⟩ := turn_creates src iters hpc hzero hT hlen
    have hnew : t.threads[m]? = some woken := by
      rw [hthreads, ← hm]
      exact List.getElem?_concat_length
    obtain ⟨u, hu, hpcu, hiu, hfu, hlenu, harru⟩ := thread_starts src iters hnew
    refine ⟨_, u, run_append_iff.2 ⟨s, hr, run_append_iff.2 ⟨t, hk, hu⟩⟩, hpcu.trans hpc', hiu, ?_, ?_, ?_⟩
    · exact hfu.trans (hf'.trans hf)
    · rw [hlenu, hthreads, List.length_append, hm]
      rfl
    · rw [harru, harr, List.length_set, hlen]

theorem toInt_ofNat_of_lt {c : ℕ} (h : c < 2 ^ 31) : (BitVec.ofNat 32 c).toInt = c := by
  rw [BitVec.toInt_ofNat', Int.bmod_def]
  omega

/-- the slots before `j` have the threads from `m` on -/
def SlotsFrom (m j : ℕ) (s : Loaded) : Prop := ∀ c < j, s.arrTaskptr[c]? = some (.task (m + c))

/-- `mod_init` makes the rest of its turns without being disturbed -/
theorem last_turns (hT : T < 2 ^ 31) (d : ℕ) : ∀ {s : Loaded} {j : ℕ}, j + d = T → s.modInit = .test →
    s.i = BitVec.ofNat 32 j → s.arrTaskptr.length = T → SlotsFrom m j s → s.threads.length = m + j →
    ∃ l t, Run (Takes (step src T iters)) s l t ∧ t.modInit = .test ∧ t.i = BitVec.ofNat 32 T ∧ t.failed = s.failed ∧
      t.threads.length = m + T ∧ SlotsFrom m T t := by
  induction d with
  | zero =>
    intro s j hj hpc hi hlen hslots hm
    obtain rfl : j = T := hj
    exact ⟨[], s, .nil s, hpc, hi, rfl, hm, hslots⟩
  | succ d ih =>
    intro s j hj hpc hi hlen hslots hm
    have hint : s.i.toInt = j := by rw [hi, toInt_ofNat_of_lt (by omega)]
    have hjT : j < T := by omega
    obtain ⟨k, t, hk, hpc', hi', hf', hthreads, harr⟩ := turn_creates src iters hpc hint hjT hlen
    have hnext : t.i = BitVec.ofNat 32 (j + 1) := by
      rw [hi', hi, BitVec.ofNat_add]
      rfl
    have hlen' : t.arrTaskptr.length = T := by rw [harr, List.length_set, hlen]
    have hslots' : SlotsFrom m (j + 1) t := by
      intro c hc
      rw [harr]
      rcases Nat.lt_succ_iff_lt_or_eq.1 hc with hc | rfl
      · rw [List.getElem?_set_ne (by omega), hslots c hc]
      · rw [List.getElem?_set_self (by omega), hm]
    have hm' : t.threads.length = m + (j + 1) := by
      rw [hthreads, List.length_append, hm]
      rfl
    obtain ⟨k', u, hk', hpcu, hiu, hfu, hlenu, hslotsu⟩ := ih (by omega) hpc' hnext hlen' hslots' hm'
    exact ⟨_, u, run_append_iff.2 ⟨t, hk, hk'⟩, hpcu, hiu, hfu.trans hf', hlenu, hslotsu⟩

/-- the steps after the loop -/
theorem modInit_returns (hpc : s.modInit = .test) (hend : ¬ s.i.toInt < T) :
    ∃ l t, Run (Takes (step src T iters)) s l t ∧ t.modInit = .done ∧ t.failed = s.failed ∧ t.threads = s.threads ∧
      t.arrTaskptr = s.arrTaskptr := by
  cases src with
  | coreThread =>
    refine ⟨[.modInit true], { s with modInit := .done }, .cons ?_ (.nil _), rfl, rfl, rfl, rfl⟩
    simp only [Takes, step, modInit, hpc, hend, if_false]
  | coreThreadAtomic =>
    refine ⟨[.modInit true, .modInit true], { s with sharedData := 0, modInit := .done },
      .cons (u := { s with modInit := .atomicSet }) ?_ (.cons ?_ (.nil _)), rfl, rfl, rfl, rfl⟩
    · simp only [Takes, step, modInit, hpc, hend, if_false]
    · simp only [Takes, step, modInit]

/-- **Creation without end.** `mod_init` returns with as many threads outside of the array as one likes. -/
theorem creation_unbounded (T : ℕ) (h0 : 0 < T) (hT : T < 2 ^ 31) (m : ℕ) :
    ∃ l s, Run (Takes (step src T iters)) (loaded T) l s ∧ s.modInit = .done ∧ s.failed = 0 ∧
      s.threads.length = m + T ∧ SlotsFrom m T s := by
  obtain ⟨l, s, hr, hpc, hi, hf, hm, hlen⟩ := first_slot src iters h0 m
  obtain ⟨k, t, hk, hpc', hi', hf', hlen', hslots⟩ := last_turns src iters hT T
    (Nat.zero_add T) hpc hi hlen (fun _ hc => absurd hc (Nat.not_lt_zero _)) hm
  have hend : ¬ t.i.toInt < T := by
    rw [hi', toInt_ofNat_of_lt hT]
    exact lt_irrefl _
  obtain ⟨k', u, hk', hdone, hfu, hthreads, harr⟩ := modInit_returns src iters hpc' hend
  refine ⟨_, u, run_append_iff.2 ⟨s, hr, run_append_iff.2 ⟨t, hk, hk'⟩⟩, hdone, hfu.trans (hf'.trans hf), ?_, ?_⟩
  · rw [hthreads, hlen']
  · intro c hc
    rw [harr]
    exact hslots c hc

/-- a thread outside of the array -/
theorem creation_unbounded_one : ∃ l s, Run (Takes (step .coreThread 4 1000000)) (loaded 4) l s ∧ s.modInit = .done ∧
    s.failed = 0 ∧ s.threads.length = 1 + 4 ∧ SlotsFrom 1 4 s :=
  creation_unbounded .coreThread 1000000 4 (by decide) (by decide) 1

end Create

end Cse422.CoreThread
