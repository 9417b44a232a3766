/-
Unloading. `mod_exit` prints the counter and stops the threads in a loop of its own, over the same static `i`. Only
`core_thread_atomic.c` asks whether a slot holds an error.

Premises, besides those of `CoreThread.Module`: `mod_exit` is called when `mod_init` has returned; `kthread_stop` sets the
flag, wakes the thread and returns when it has ended, and dereferences its argument before that.

- `unload_stops`: when every thread has left its counting, `mod_exit` stops each thread once and in the order of creation,
  in every order of the steps, and returns with all of them ended; only an error in a slot of `core_thread.c` is fatal;
- `thread_left_behind`: a thread that still counts takes the loop of `mod_exit` past its own slot, and the module goes away
  under it.
-/
import Cse422.CoreThread.Slots

namespace Cse422.CoreThread

open Lts Kthread

/-! ## mod_exit -/

inductive ExitPc where
  /-- the message with the value of `shared_data` -/
  | print
  /-- `i = 0` -/
  | init
  /-- `i < 4` -/
  | test
  /-- `IS_ERR(arr_taskptr[i])`, in one of the modules -/
  | isErr
  /-- `kthread_stop(arr_taskptr[i])` -/
  | stop
  /-- `kthread_stop` waits for thread `k` to end -/
  | waiting (k : ℕ)
  /-- the read and the write of `++i` -/
  | readI
  | writeI (x : BitVec 32)
  | done
  | oops
  deriving DecidableEq, Repr

structure Unloading where
  module : Loaded
  exit : ExitPc
  printed : Option (BitVec 32)
  /-- the threads that `kthread_stop` has been called for -/
  stopped : List ℕ
  deriving DecidableEq, Repr

/-- `arr_taskptr[i]` -/
def Loaded.slot (s : Loaded) : Option TaskPtr := if 0 ≤ s.i.toInt then s.arrTaskptr[s.i.toInt.toNat]? else none

/-- thread `k` has ended -/
def Loaded.ended (s : Loaded) (k : ℕ) : Bool := (s.threads[k]?).all fun a => decide (a.place = .exited)

/-- `kthread_stop` up to its wait; the task of a thread that has ended is gone -/
def Unloading.kthreadStop (u : Unloading) (k : ℕ) : Unloading :=
  if u.module.ended k then { u with exit := .oops }
  else { u with
    module := { u.module with threads := u.module.threads.modify k fun a => a.setStop.wakeUp }
    exit := .waiting k
    stopped := u.stopped ++ [k] }

def exitStep (src : Source) (T : ℕ) (u : Unloading) : Option Unloading :=
  match u.exit with
  | .print => some { u with printed := some u.module.sharedData, exit := .init }
  | .init => some { u with module := { u.module with i := 0 }, exit := .test }
  | .test =>
    some { u with exit := if u.module.i.toInt < T then (if src = .coreThread then .stop else .isErr) else .done }
  | .isErr =>
    some { u with exit := if u.module.slot = none then .oops else if u.module.slot = some .err then .readI else .stop }
  | .stop =>
    match u.module.slot.bind TaskPtr.task? with
    | some k => some (u.kthreadStop k)
    | none => some { u with exit := .oops }
  | .waiting k =>
    if u.module.ended k then some { u with exit := .readI } else none
  | .readI => some { u with exit := .writeI u.module.i }
  | .writeI x => some { u with module := { u.module with i := x + 1 }, exit := .test }
  | .done | .oops => none

/-- the loop that waits for `kthread_should_stop` -/
def Waits (a : Thread) : Prop := a.place.pc?.map Boring.pc = some .left

instance (a : Thread) : Decidable (Waits a) := inferInstanceAs (Decidable (_ = _))

/-- a step of thread `k`, with its end -/
def endingThread (src : Source) (iters : ℕ) (s : Loaded) (k : ℕ) : Option Loaded :=
  (s.threads[k]?).bind fun a =>
    if Waits a then
      if a.shouldStop then some { s with threads := s.threads.set k { a with place := .exited } } else none
    else thread src iters s k

inductive UnloadEv where
  | exit
  | thread (k : ℕ)
  deriving DecidableEq, Repr

def unloadStep (src : Source) (T iters : ℕ) (u : Unloading) : UnloadEv → Option Unloading
  | .exit => exitStep src T u
  | .thread k => (endingThread src iters u.module k).map fun s => { u with module := s }

def startExit (s : Loaded) : Unloading := ⟨s, .print, none, []⟩

/-! ## The loop of mod_exit -/

/-- the module that `mod_exit` finds: all slots filled, and all threads waiting to be stopped -/
structure Ready (T : ℕ) (s : Loaded) : Prop where
  slots : s.arrTaskptr.length = T
  noNull : TaskPtr.null ∉ s.arrTaskptr
  tasks : tasks s.arrTaskptr = List.range s.threads.length
  left : ∀ a ∈ s.threads, Left a ∧ a.shouldStop = false

/-- the loop is through with `c` slots -/
structure Passed (src : Source) (slots : List TaskPtr) (stopped : List ℕ) (c : ℕ) : Prop where
  stopped : stopped = tasks (slots.take c)
  noErr : src = .coreThread → TaskPtr.err ∉ slots.take c

def ExitPlace (src : Source) (slots : List TaskPtr) (stopped : List ℕ) (i : ℤ) : ExitPc → Prop
  | .print | .init => stopped = []
  | .test => ∃ c : ℕ, i = c ∧ c ≤ slots.length ∧ Passed src slots stopped c
  | .isErr => ∃ c : ℕ, i = c ∧ c < slots.length ∧ Passed src slots stopped c ∧ src = .coreThreadAtomic
  | .stop => ∃ c : ℕ, i = c ∧ c < slots.length ∧ Passed src slots stopped c ∧
      (src = .coreThreadAtomic → slots[c]? ≠ some .err)
  | .waiting k => ∃ c : ℕ, i = c ∧ c < slots.length ∧ Passed src slots stopped (c + 1) ∧ k ∈ stopped
  | .readI => ∃ c : ℕ, i = c ∧ c < slots.length ∧ Passed src slots stopped (c + 1)
  | .writeI x => ∃ c : ℕ, i = c ∧ x.toInt = c ∧ c < slots.length ∧ Passed src slots stopped (c + 1)
  | .done => Passed src slots stopped slots.length
  | .oops => src = .coreThread ∧ TaskPtr.err ∈ slots ∧ ∃ c, Passed src slots stopped c

/-- a thread before its stop, in it, and after it -/
def Held (u : Unloading) (k : ℕ) (a : Thread) : Prop :=
  k ∉ u.stopped ∧ Left a ∧ a.shouldStop = false ∨
    k ∈ u.stopped ∧ (a.place = .exited ∨ u.exit = .waiting k ∧ Left a ∧ a.shouldStop = true)

structure ExitInv (src : Source) (s : Loaded) (u : Unloading) : Prop where
  slots : u.module.arrTaskptr = s.arrTaskptr
  data : u.module.sharedData = s.sharedData
  length : u.module.threads.length = s.threads.length
  printed : u.exit ≠ .print → u.printed = some s.sharedData
  place : ExitPlace src s.arrTaskptr u.stopped u.module.i.toInt u.exit
  held : ∀ k a, u.module.threads[k]? = some a → Held u k a

section Exit

variable {src : Source} {T iters k c : ℕ} {s : Loaded} {u v : Unloading} {slots : List TaskPtr} {stopped : List ℕ}

theorem waits_of_left {a : Thread} (h : Left a) : Waits a := by
  obtain ⟨b, hb, hpc⟩ := h
  unfold Waits
  rw [hb]
  exact congrArg some hpc

theorem tasks_append (l m : List TaskPtr) : tasks (l ++ m) = tasks l ++ tasks m := List.filterMap_append

theorem Passed.stop (h : Passed src slots stopped c) (hc : slots[c]? = some (.task k)) :
    Passed src slots (stopped ++ [k]) (c + 1) := by
  have htake : slots.take (c + 1) = slots.take c ++ [.task k] := by rw [List.take_add_one, hc]; rfl
  refine ⟨?_, fun hsrc => ?_⟩
  · rw [htake, tasks_append, h.stopped]
    rfl
  · rw [htake]
    simpa using h.noErr hsrc

/-- a slot with an error is passed over -/
theorem Passed.skip (h : Passed src slots stopped c) (hc : slots[c]? = some .err) (hsrc : src = .coreThreadAtomic) :
    Passed src slots stopped (c + 1) := by
  refine ⟨?_, fun h => by rw [hsrc] at h; cases h⟩
  rw [List.take_add_one, hc, tasks_append, ← h.stopped]
  exact (List.append_nil _).symm

/-- the next thread has not been stopped -/
theorem Passed.fresh (h : Passed src slots stopped c) (htasks : tasks slots = List.range T)
    (hc : slots[c]? = some (.task k)) : k ∉ stopped ∧ k < T := by
  have hsplit : slots = slots.take c ++ .task k :: slots.drop (c + 1) := by
    obtain ⟨hlt, hk⟩ := List.getElem?_eq_some_iff.1 hc
    rw [← hk, List.getElem_cons_drop, List.take_append_drop]
  rw [hsplit, tasks_append, ← h.stopped] at htasks
  have htail : tasks (.task k :: slots.drop (c + 1)) = k :: tasks (slots.drop (c + 1)) := rfl
  rw [htail] at htasks
  have hnodup : (stopped ++ k :: tasks (slots.drop (c + 1))).Nodup := htasks ▸ List.nodup_range
  refine ⟨fun hmem => ?_, ?_⟩
  · exact (List.disjoint_of_nodup_append hnodup) hmem List.mem_cons_self
  · rw [← List.mem_range, ← htasks]
    simp

theorem slot_eq (hs : u.module.arrTaskptr = slots) (hi : u.module.i.toInt = c) : u.module.slot = slots[c]? := by
  rw [Loaded.slot, hi, hs, if_pos (Int.natCast_nonneg c), Int.toNat_natCast]

theorem ready_slot (h : TaskPtr.null ∉ slots) (hc : c < slots.length) :
    slots[c]? = some .err ∨ ∃ k, slots[c]? = some (.task k) := by
  have hget := List.getElem?_eq_getElem hc
  cases hp : slots[c] with
  | null => exact absurd (hp ▸ List.getElem_mem hc) h
  | err => exact Or.inl (by rw [hget, hp])
  | task k => exact Or.inr ⟨k, by rw [hget, hp]⟩

theorem startExit_inv (hready : Ready T s) : ExitInv src s (startExit s) where
  slots := rfl
  data := rfl
  length := rfl
  printed h := absurd rfl h
  place := rfl
  held k a hk := by
    obtain ⟨hleft, hstop⟩ := hready.left a (List.mem_of_getElem? hk)
    exact Or.inl ⟨List.not_mem_nil, hleft, hstop⟩

/-- a step of the loop that stops nobody and waits for nobody -/
theorem ExitInv.move (h : ExitInv src s u) {i : BitVec 32} {e : ExitPc} (hprint : u.exit ≠ .print)
    (hwait : ∀ k a, u.exit = .waiting k → u.module.threads[k]? = some a → a.place = .exited)
    (hplace : ExitPlace src s.arrTaskptr u.stopped i.toInt e) :
    ExitInv src s { u with module := { u.module with i := i }, exit := e } where
  slots := h.slots
  data := h.data
  length := h.length
  printed _ := h.printed hprint
  place := hplace
  held k a hk := by
    obtain hbefore | ⟨hmem, hexited | ⟨hw, -⟩⟩ := h.held k a hk
    · exact Or.inl hbefore
    · exact Or.inr ⟨hmem, Or.inl hexited⟩
    · exact Or.inr ⟨hmem, Or.inl (hwait k a hw hk)⟩

/-- `kthread_stop` for the thread of the next slot -/
theorem ExitInv.kthreadStop (h : ExitInv src s u) (hready : Ready T s) (hexit : u.exit = .stop)
    (hi : u.module.i.toInt = c) (hpassed : Passed src s.arrTaskptr u.stopped c)
    (hc : s.arrTaskptr[c]? = some (.task k)) : ExitInv src s (u.kthreadStop k) := by
  obtain ⟨hfresh, hlt⟩ := hpassed.fresh hready.tasks hc
  rw [← h.length] at hlt
  have hk := List.getElem?_eq_getElem hlt
  have hheld := h.held k _ hk
  have hleft : Left u.module.threads[k] := by
    obtain ⟨-, hleft, -⟩ | ⟨hmem, -⟩ := hheld
    · exact hleft
    · exact absurd hmem hfresh
  have hnot : u.module.threads[k].place ≠ .exited := by
    obtain ⟨b, hb, -⟩ := hleft
    rw [hb]
    simp
  have hstop : u.kthreadStop k = { u with
      module := { u.module with threads := u.module.threads.modify k fun a => a.setStop.wakeUp }
      exit := .waiting k
      stopped := u.stopped ++ [k] } := by
    rw [Unloading.kthreadStop, Loaded.ended, hk, if_neg (by simpa using hnot)]
  rw [hstop]
  refine ⟨h.slots, h.data, (List.length_modify _ _ _).trans h.length, fun _ => h.printed (by simp [hexit]), ?_, ?_⟩
  · obtain ⟨hclt, -⟩ := List.getElem?_eq_some_iff.1 hc
    exact ⟨c, hi, hclt, hpassed.stop hc, by simp⟩
  · intro j a hj
    dsimp only at hj
    rw [List.getElem?_modify] at hj
    obtain ⟨a', ha', rfl⟩ := Option.map_eq_some_iff.1 hj
    by_cases hjk : k = j
    · subst hjk
      rw [hk] at ha'
      obtain rfl := Option.some.inj ha'
      rw [if_pos rfl]
      exact Or.inr ⟨by simp, Or.inr ⟨rfl, hleft, rfl⟩⟩
    · rw [if_neg hjk]
      obtain ⟨hnmem, hrest⟩ | ⟨hmem, hexited | ⟨hw, -⟩⟩ := h.held j a' ha'
      · refine Or.inl ⟨?_, hrest⟩
        simp only [List.mem_append, List.mem_singleton, not_or]
        exact ⟨hnmem, fun hjk' => hjk hjk'.symm⟩
      · exact Or.inr ⟨List.mem_append_left _ hmem, Or.inl hexited⟩
      · rw [hexit] at hw
        cases hw

/-- the steps that are left to the module, at most -/
def Unloading.left (T : ℕ) (u : Unloading) : ℕ :=
  match u.exit with
  | .print => 7 * T + 3
  | .init => 7 * T + 2
  | .test => 7 * (T - u.module.i.toInt.toNat) + 1
  | .isErr => 7 * (T - u.module.i.toInt.toNat)
  | .stop => 7 * (T - u.module.i.toInt.toNat) - 1
  | .waiting k => 7 * (T - u.module.i.toInt.toNat) - if u.module.ended k then 3 else 2
  | .readI => 7 * (T - u.module.i.toInt.toNat) - 4
  | .writeI _ => 7 * (T - u.module.i.toInt.toNat) - 5
  | .done | .oops => 0

theorem kthreadStop_left (u : Unloading) (k : ℕ) :
    (u.kthreadStop k).left T ≤ 7 * (T - u.module.i.toInt.toNat) - 2 := by
  unfold Unloading.kthreadStop
  split_ifs
  · exact Nat.zero_le _
  · simp only [Unloading.left]
    split_ifs
    · omega
    · exact le_rfl

theorem exitStep_inv (hready : Ready T s) (hT : T < 2 ^ 31) (h : ExitInv src s u) (hst : exitStep src T u = some v) :
    ExitInv src s v ∧ v.left T < u.left T := by
  have hplace := h.place
  have hslots := hready.slots
  cases hexit : u.exit with
  | print =>
    rw [hexit] at hplace
    simp only [exitStep, hexit, Option.some.injEq] at hst
    subst hst
    refine ⟨⟨h.slots, h.data, h.length, fun _ => congrArg some h.data, hplace, fun k a hk => ?_⟩, ?_⟩
    · obtain hbefore | ⟨hmem, -⟩ := h.held k a hk
      · exact Or.inl hbefore
      · have hnil : u.stopped = [] := hplace
        rw [hnil] at hmem
        cases hmem
    · simp [Unloading.left, hexit]
  | init =>
    rw [hexit] at hplace
    simp only [exitStep, hexit, Option.some.injEq] at hst
    subst hst
    refine ⟨h.move (by simp [hexit]) (by simp [hexit]) ⟨0, rfl, Nat.zero_le _, hplace, by simp⟩, ?_⟩
    simp [Unloading.left, hexit]
  | test =>
    rw [hexit] at hplace
    obtain ⟨c, hi, hle, hpassed⟩ := hplace
    simp only [exitStep, hexit, hi, Option.some.injEq] at hst
    subst hst
    by_cases hlt : c < T
    · rw [if_pos (by exact_mod_cast hlt)]
      have hclt : c < s.arrTaskptr.length := hslots ▸ hlt
      by_cases hsrc : src = .coreThread
      · rw [if_pos hsrc]
        refine ⟨h.move (by simp [hexit]) (by simp [hexit]) ⟨c, hi, hclt, hpassed, fun hsrc' => ?_⟩, ?_⟩
        · rw [hsrc] at hsrc'
          cases hsrc'
        · simp only [Unloading.left, hexit]
          omega
      · rw [if_neg hsrc]
        have hatomic : src = .coreThreadAtomic := by cases src <;> first | rfl | exact absurd rfl hsrc
        refine ⟨h.move (by simp [hexit]) (by simp [hexit]) ⟨c, hi, hclt, hpassed, hatomic⟩, ?_⟩
        simp only [Unloading.left, hexit]
        omega
    · rw [if_neg (by exact_mod_cast hlt)]
      obtain rfl : c = s.arrTaskptr.length := by omega
      refine ⟨h.move (by simp [hexit]) (by simp [hexit]) hpassed, ?_⟩
      simp [Unloading.left, hexit]
  | isErr =>
    rw [hexit] at hplace
    obtain ⟨c, hi, hlt, hpassed, hsrc⟩ := hplace
    have hpos : c < T := hslots ▸ hlt
    simp only [exitStep, hexit, slot_eq h.slots hi, Option.some.injEq] at hst
    subst hst
    obtain hc | ⟨k, hc⟩ := ready_slot hready.noNull hlt
    · rw [hc, if_neg (by simp), if_pos rfl]
      refine ⟨h.move (by simp [hexit]) (by simp [hexit]) ⟨c, hi, hlt, hpassed.skip hc hsrc⟩, ?_⟩
      simp only [Unloading.left, hexit, hi, Int.toNat_natCast]
      omega
    · rw [hc, if_neg (by simp), if_neg (by simp)]
      refine ⟨h.move (by simp [hexit]) (by simp [hexit]) ⟨c, hi, hlt, hpassed, fun _ => by simp [hc]⟩, ?_⟩
      simp only [Unloading.left, hexit, hi, Int.toNat_natCast]
      omega
  | stop =>
    rw [hexit] at hplace
    obtain ⟨c, hi, hlt, hpassed, hnoerr⟩ := hplace
    have hpos : c < T := hslots ▸ hlt
    obtain hc | ⟨k, hc⟩ := ready_slot hready.noNull hlt
    · simp only [exitStep, hexit, slot_eq h.slots hi, hc, Option.bind_some, TaskPtr.task?, Option.some.injEq] at hst
      subst hst
      have hsrc : src = .coreThread := by
        cases src with
        | coreThread => rfl
        | coreThreadAtomic => exact absurd hc (hnoerr rfl)
      refine ⟨h.move (by simp [hexit]) (by simp [hexit]) ⟨hsrc, List.mem_of_getElem? hc, c, hpassed⟩, ?_⟩
      simp only [Unloading.left, hexit, hi, Int.toNat_natCast]
      omega
    · simp only [exitStep, hexit, slot_eq h.slots hi, hc, Option.bind_some, TaskPtr.task?, Option.some.injEq] at hst
      subst hst
      refine ⟨h.kthreadStop hready hexit hi hpassed hc, (kthreadStop_left u k).trans_lt ?_⟩
      simp only [Unloading.left, hexit, hi, Int.toNat_natCast]
      omega
  | waiting k =>
    rw [hexit] at hplace
    obtain ⟨c, hi, hlt, hpassed, -⟩ := hplace
    have hpos : c < T := hslots ▸ hlt
    simp only [exitStep, hexit] at hst
    split_ifs at hst with hended
    obtain rfl := Option.some.inj hst
    refine ⟨h.move (by simp [hexit]) (fun j a hj ha => ?_) ⟨c, hi, hlt, hpassed⟩, ?_⟩
    · rw [hexit] at hj
      obtain rfl := ExitPc.waiting.inj hj
      simpa [Loaded.ended, ha] using hended
    · simp only [Unloading.left, hexit, hi, Int.toNat_natCast, hended, if_true]
      omega
  | readI =>
    rw [hexit] at hplace
    obtain ⟨c, hi, hlt, hpassed⟩ := hplace
    have hpos : c < T := hslots ▸ hlt
    simp only [exitStep, hexit, Option.some.injEq] at hst
    subst hst
    refine ⟨h.move (by simp [hexit]) (by simp [hexit]) ⟨c, hi, hi, hlt, hpassed⟩, ?_⟩
    simp only [Unloading.left, hexit, hi, Int.toNat_natCast]
    omega
  | writeI x =>
    rw [hexit] at hplace
    obtain ⟨c, hi, hx, hlt, hpassed⟩ := hplace
    have hpos : c < T := hslots ▸ hlt
    simp only [exitStep, hexit, Option.some.injEq] at hst
    subst hst
    have hsucc : (x + 1).toInt = ((c + 1 : ℕ) : ℤ) := by
      obtain hsucc | ⟨hmax, -⟩ := toInt_succ x
      · rw [hsucc, hx]
        rfl
      · omega
    refine ⟨h.move (by simp [hexit]) (by simp [hexit]) ⟨c + 1, hsucc, hlt, hpassed⟩, ?_⟩
    simp only [Unloading.left, hexit, hi, hsucc, Int.toNat_natCast]
    omega
  | done => simp [exitStep, hexit] at hst
  | oops => simp [exitStep, hexit] at hst

/-- a thread that can take a step is the one that `kthread_stop` waits for -/
theorem endingThread_inv (hready : Ready T s) (h : ExitInv src s u) {t : Loaded}
    (hst : endingThread src iters u.module k = some t) :
    ExitInv src s { u with module := t } ∧ ({ u with module := t } : Unloading).left T < u.left T := by
  obtain ⟨a, ha, hst⟩ := Option.bind_eq_some_iff.1 hst
  have hheld := h.held k a ha
  by_cases hwaits : Waits a
  · rw [if_pos hwaits] at hst
    split_ifs at hst with hstop
    obtain rfl := Option.some.inj hst
    obtain ⟨-, -, hfalse⟩ | ⟨hmem, hexited | ⟨hexit, hleft, -⟩⟩ := hheld
    · rw [hfalse] at hstop
      cases hstop
    · rw [Waits, hexited] at hwaits
      cases hwaits
    · refine ⟨⟨h.slots, h.data, List.length_set.trans h.length, h.printed, h.place, fun j b hj => ?_⟩, ?_⟩
      · obtain ⟨rfl, rfl⟩ | ⟨-, hj⟩ := getElem?_set_cases hj
        · exact Or.inr ⟨hmem, Or.inl rfl⟩
        · exact h.held j b hj
      · have hplace := h.place
        rw [hexit] at hplace
        obtain ⟨c, hi, hlt, -, -⟩ := hplace
        have hpos : c < T := hready.slots ▸ hlt
        have hbefore : u.module.ended k = false := by
          obtain ⟨b, hb, -⟩ := hleft
          simp [Loaded.ended, ha, hb]
        obtain ⟨hk, -⟩ := List.getElem?_eq_some_iff.1 ha
        have hafter : Loaded.ended { u.module with threads := u.module.threads.set k { a with place := .exited } } k =
            true := by
          simp [Loaded.ended, List.getElem?_set_self hk]
        simp only [Unloading.left, hexit, hi, hbefore, hafter, Int.toNat_natCast, if_true, Bool.false_eq_true, if_false]
        omega
  · rw [if_neg hwaits] at hst
    obtain ⟨-, hleft, -⟩ | ⟨-, hexited | ⟨-, hleft, -⟩⟩ := hheld
    · exact absurd (waits_of_left hleft) hwaits
    · simp [thread, ha, hexited] at hst
    · exact absurd (waits_of_left hleft) hwaits

theorem unloadStep_inv (hready : Ready T s) (hT : T < 2 ^ 31) {ev : UnloadEv} (h : ExitInv src s u)
    (hst : unloadStep src T iters u ev = some v) : ExitInv src s v ∧ v.left T < u.left T := by
  cases ev with
  | exit => exact exitStep_inv hready hT h hst
  | thread k =>
    obtain ⟨t, ht, rfl⟩ := Option.map_eq_some_iff.1 hst
    exact endingThread_inv hready h ht

theorem run_exitInv (hready : Ready T s) (hT : T < 2 ^ 31) {l : List UnloadEv}
    (hu : Run (Takes (unloadStep src T iters)) (startExit s) l u) : ExitInv src s u ∧ l.length ≤ 7 * T + 3 := by
  have hstep : ∀ u ev v, ExitInv src s u → Takes (unloadStep src T iters) u ev v → ExitInv src s v :=
    fun _ _ _ h hst => (unloadStep_inv hready hT h hst).1
  have hleft : ∀ u ev v, ExitInv src s u → Takes (unloadStep src T iters) u ev v → v.left T < u.left T :=
    fun _ _ _ h hst => (unloadStep_inv hready hT h hst).2
  refine ⟨Run.inv hstep hu (startExit_inv hready), ?_⟩
  have hle := Run.length_le (Unloading.left T) hstep hleft hu (startExit_inv hready)
  have hstart : (startExit s).left T = 7 * T + 3 := rfl
  omega

/-- `mod_exit` goes on, or the thread that it waits for does -/
theorem exists_unloadStep (h : ExitInv src s u) (hdone : u.exit ≠ .done) (hoops : u.exit ≠ .oops) :
    ∃ ev v, unloadStep src T iters u ev = some v := by
  cases hexit : u.exit with
  | waiting k =>
    cases hended : u.module.ended k with
    | true =>
      have hsome : (exitStep src T u).isSome := by simp [exitStep, hexit, hended]
      exact ⟨.exit, Option.isSome_iff_exists.1 hsome⟩
    | false =>
      obtain ⟨a, ha, hplace⟩ : ∃ a, u.module.threads[k]? = some a ∧ a.place ≠ .exited := by
        unfold Loaded.ended at hended
        cases ha : u.module.threads[k]? with
        | none => simp [ha] at hended
        | some a => exact ⟨a, rfl, by simpa [ha] using hended⟩
      have hmem : k ∈ u.stopped := by
        have hplace := h.place
        rw [hexit] at hplace
        obtain ⟨c, -, -, -, hmem⟩ := hplace
        exact hmem
      obtain ⟨hnot, -⟩ | ⟨-, hexited | ⟨-, hleft, hstop⟩⟩ := h.held k a ha
      · exact absurd hmem hnot
      · exact absurd hexited hplace
      · refine ⟨.thread k, { u with
          module := { u.module with threads := u.module.threads.set k { a with place := .exited } } }, ?_⟩
        simp only [unloadStep, endingThread, ha, Option.bind_some, if_pos (waits_of_left hleft), hstop, if_true,
          Option.map_some]
  | stop =>
    have hsome : (exitStep src T u).isSome := by
      simp only [exitStep, hexit]
      cases u.module.slot.bind TaskPtr.task? with
      | none => rfl
      | some k => rfl
    exact ⟨.exit, Option.isSome_iff_exists.1 hsome⟩
  | done => exact absurd hexit hdone
  | oops => exact absurd hexit hoops
  | _ =>
    have hsome : (exitStep src T u).isSome := by simp [exitStep, hexit]
    exact ⟨.exit, Option.isSome_iff_exists.1 hsome⟩

/-! ## Unloading -/

/-- what a run of `mod_exit` from `s` comes to -/
structure Unloads (src : Source) (T iters : ℕ) (s : Loaded) (l : List UnloadEv) (u : Unloading) : Prop where
  /-- the threads are stopped once each, in the order of their creation -/
  order : ∃ n ≤ s.threads.length, u.stopped = List.range n
  done : u.exit = .done → u.stopped = List.range s.threads.length ∧ (∀ a ∈ u.module.threads, a.place = .exited) ∧
    u.printed = some s.sharedData ∧ (src = .coreThread → s.failed = 0)
  /-- a slot without a thread, passed to `kthread_stop` -/
  oops : u.exit = .oops → src = .coreThread ∧ 0 < s.failed
  ends : l.length ≤ 7 * T + 3
  goesOn : u.exit = .done ∨ u.exit = .oops ∨ ∃ ev v, unloadStep src T iters u ev = some v

/-- the prefixes of a range are ranges -/
theorem eq_range_of_prefix {n : ℕ} {l : List ℕ} (h : l <+: List.range n) : l = List.range l.length ∧ l.length ≤ n := by
  have hlen : l.length ≤ n := by simpa using h.length_le
  refine ⟨?_, hlen⟩
  have htake := List.prefix_iff_eq_take.1 h
  rwa [List.take_range, Nat.min_eq_left hlen] at htake

theorem tasks_prefix (c : ℕ) : tasks (slots.take c) <+: tasks slots := by
  rw [← List.take_append_drop c slots, tasks_append, List.take_append_drop]
  exact List.prefix_append _ _

/-- what has been stopped is a prefix of the threads -/
theorem ExitPlace.isPrefix {i : ℤ} {e : ExitPc} (h : ExitPlace src slots stopped i e) : stopped <+: tasks slots := by
  have hpassed : ∀ c, Passed src slots stopped c → stopped <+: tasks slots := by
    intro c hc
    rw [hc.stopped]
    exact tasks_prefix c
  cases e with
  | print => rw [show stopped = [] from h]; exact List.nil_prefix
  | init => rw [show stopped = [] from h]; exact List.nil_prefix
  | test => obtain ⟨c, -, -, hc⟩ := h; exact hpassed c hc
  | isErr => obtain ⟨c, -, -, hc, -⟩ := h; exact hpassed c hc
  | stop => obtain ⟨c, -, -, hc, -⟩ := h; exact hpassed c hc
  | waiting k => obtain ⟨c, -, -, hc, -⟩ := h; exact hpassed _ hc
  | readI => obtain ⟨c, -, -, hc⟩ := h; exact hpassed _ hc
  | writeI x => obtain ⟨c, -, -, -, hc⟩ := h; exact hpassed _ hc
  | done => exact hpassed _ h
  | oops => obtain ⟨-, -, c, hc⟩ := h; exact hpassed c hc

/-- the slots without a thread hold errors -/
theorem count_err (h : TaskPtr.null ∉ slots) : (tasks slots).length + slots.count .err = slots.length := by
  induction slots with
  | nil => rfl
  | cons p slots ih =>
    simp only [List.mem_cons, not_or] at h
    obtain ⟨hp, hslots⟩ := h
    have ih := ih hslots
    cases p with
    | null => exact absurd rfl hp
    | err =>
      rw [List.count_cons_self, List.length_cons]
      have htasks : tasks (.err :: slots) = tasks slots := rfl
      rw [htasks]
      omega
    | task k =>
      rw [List.count_cons_of_ne (by simp), List.length_cons]
      have htasks : tasks (.task k :: slots) = k :: tasks slots := rfl
      rw [htasks, List.length_cons]
      omega

theorem ready_of_left {l : List Ev} (hrun : Run (Takes (step src T iters)) (loaded T) l s)
    (hown : Along (Takes (step src T iters)) (fun s ev _ => ModOwn s ev) (loaded T) l) (hdone : s.modInit = .done)
    (hleft : ∀ a ∈ s.threads, Left a) : Ready T s ∧ s.arrTaskptr.count .err = s.failed := by
  obtain ⟨hstored, howned⟩ := stored_run hrun hown (by simp [hdone])
  have hpc := howned.pc
  rw [hdone] at hpc
  obtain ⟨hstores, hcreated⟩ := hpc
  obtain ⟨htasks, hnull⟩ := hstored
  have hnone : s.modInit.unstored = [] := by rw [hdone]; rfl
  rw [hnone, List.append_nil, hstores, ← howned.slots, List.take_length] at htasks hnull
  refine ⟨⟨howned.slots, hnull, htasks, fun a ha => ⟨hleft a ha, (run_plain hrun a ha).1⟩⟩, ?_⟩
  have hcount := count_err hnull
  rw [htasks, List.length_range, howned.slots] at hcount
  omega

/-- **Unloading**, once every thread has left its counting, in every order of the steps. -/
theorem unload_stops (src : Source) (T iters : ℕ) (hT : T < 2 ^ 31) (l : List Ev) (s : Loaded)
    (hrun : Run (Takes (step src T iters)) (loaded T) l s)
    (hown : Along (Takes (step src T iters)) (fun s ev _ => ModOwn s ev) (loaded T) l) (hdone : s.modInit = .done)
    (hleft : ∀ a ∈ s.threads, Left a) (l' : List UnloadEv) (u : Unloading)
    (hu : Run (Takes (unloadStep src T iters)) (startExit s) l' u) : Unloads src T iters s l' u := by
  obtain ⟨hready, herr⟩ := ready_of_left hrun hown hdone hleft
  obtain ⟨h, hlen⟩ := run_exitInv hready hT hu
  have hprefix := h.place.isPrefix
  rw [hready.tasks] at hprefix
  obtain ⟨hrange, hle⟩ := eq_range_of_prefix hprefix
  refine ⟨⟨_, hle, hrange⟩, fun hexit => ?_, fun hexit => ?_, hlen, ?_⟩
  · have hplace := h.place
    rw [hexit] at hplace
    obtain ⟨hstopped, hnoerr⟩ := hplace
    rw [List.take_length] at hstopped hnoerr
    rw [hready.tasks] at hstopped
    refine ⟨hstopped, fun a ha => ?_, h.printed (by simp [hexit]), fun hsrc => ?_⟩
    · obtain ⟨k, hk⟩ := List.mem_iff_getElem?.1 ha
      obtain ⟨hklt, -⟩ := List.getElem?_eq_some_iff.1 hk
      obtain ⟨hnot, -⟩ | ⟨-, hexited | ⟨hw, -⟩⟩ := h.held k a hk
      · rw [hstopped, List.mem_range, ← h.length] at hnot
        exact absurd hklt hnot
      · exact hexited
      · rw [hexit] at hw
        cases hw
    · rw [← herr]
      exact List.count_eq_zero_of_not_mem (hnoerr hsrc)
  · have hplace := h.place
    rw [hexit] at hplace
    obtain ⟨hsrc, hmem, -⟩ := hplace
    rw [← herr]
    exact ⟨hsrc, List.count_pos_iff.2 hmem⟩
  · by_cases hend : u.exit = .done
    · exact Or.inl hend
    · by_cases hoops : u.exit = .oops
      · exact Or.inr (Or.inl hoops)
      · exact Or.inr (Or.inr (exists_unloadStep h hend hoops))

end Exit

/-- the two slots of `mod_exit`, its loop, the end of thread 1 while it waits for thread 0, and its last turn -/
def exitTwo : List UnloadEv :=
  List.replicate 4 .exit ++ [.thread 0] ++ List.replicate 5 .exit ++ [.thread 1] ++ List.replicate 4 .exit

/-- two threads that have counted in step, stopped one after the other -/
theorem unload_stops_two : ∃ u, Run (Takes (unloadStep .coreThread 2 2)) (startExit countedTwo) exitTwo u ∧
    u.exit = .done ∧ u.stopped = [0, 1] ∧ Unloads .coreThread 2 2 countedTwo exitTwo u := by
  have hrun : Run (Takes (step .coreThread 2 2)) (loaded 2) (List.replicate 22 (.modInit true) ++ inStep) countedTwo :=
    run_takes_iff.2 (by decide +kernel)
  have hobs : (exitTwo.foldlM (unloadStep .coreThread 2 2) (startExit countedTwo)).map
      (fun u => (u.exit, u.stopped)) = some (.done, [0, 1]) := by decide
  obtain ⟨u, hu, ho⟩ := Option.map_eq_some_iff.1 hobs
  obtain ⟨hexit, hstopped⟩ := Prod.mk.inj ho
  refine ⟨u, run_takes_iff.2 hu, hexit, hstopped, ?_⟩
  refine unload_stops .coreThread 2 2 (by norm_num) _ countedTwo hrun (by decide +kernel) rfl (fun a ha => ?_) exitTwo u
    (run_takes_iff.2 hu)
  obtain rfl := List.eq_of_mem_replicate ha
  exact ⟨_, rfl, rfl⟩

/-- two threads, and the first has counted to 5 -/
def countedFirst : Loaded :=
  ⟨5, 5, [.task 0, .task 1], [⟨.fn ⟨.left, 5⟩, .running, false⟩, woken], .done, 2, [0, 0, 0, 0, 1, 1, 1, 1], [0, 1], 0⟩

/-- **A thread that is left behind.** The second thread starts to count while `mod_exit` stops the first. -/
theorem thread_left_behind : (∃ l, Run (Takes (step .coreThreadAtomic 2 5)) (loaded 2) l countedFirst) ∧
    ∃ l u, Run (Takes (unloadStep .coreThreadAtomic 2 5)) (startExit countedFirst) l u ∧ u.exit = .done ∧
      u.stopped = [0] ∧ ∃ a ∈ u.module.threads, a.place ≠ .exited := by
  refine ⟨⟨List.replicate 25 (.modInit true) ++ List.replicate 23 (.thread 0), run_takes_iff.2 (by decide)⟩, ?_⟩
  let l : List UnloadEv := List.replicate 5 .exit ++ [.thread 0, .exit] ++ List.replicate 10 (.thread 1) ++
    List.replicate 3 .exit
  have hobs : (l.foldlM (unloadStep .coreThreadAtomic 2 5) (startExit countedFirst)).map (fun u =>
      (u.exit, u.stopped, decide (∃ a ∈ u.module.threads, a.place ≠ .exited))) = some (.done, [0], true) := by decide
  obtain ⟨u, hu, ho⟩ := Option.map_eq_some_iff.1 hobs
  simp only [Prod.mk.injEq, decide_eq_true_eq] at ho
  exact ⟨l, u, run_takes_iff.2 hu, ho⟩

end Cse422.CoreThread
