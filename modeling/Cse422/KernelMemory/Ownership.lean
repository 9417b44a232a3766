/-
What `kernel_memory` does with memory. `kernel_memory_exit` uses the globals of the thread whether the thread has set
them or not, and neither party stops where `alloc_pages` has returned nothing.

- `tidy_iff`: in a run that ends with the module unloaded, or with its unloading struck down, only words of the block
  that was allocated are written and read, and it is freed once and with its order, or nothing is allocated, touched and
  freed, if and only if `alloc_pages` succeeded and the module was not unloaded before the thread had begun;
- `tidy_with_block`, `untidy_runs`: runs of both kinds.

`Inv` holds in orderly runs. In the others the thread passes the allocation, or never comes to it, with `pages` still
NULL (`Lost`), and `kernel_memory_exit` either faults on an address it computes from NULL or frees NULL in the end.
-/
import Cse422.KernelMemory.Module

namespace Cse422.KernelMemory

open Lts Kthread Words

variable {B : Board}

/-! ## The property -/

/-- an access to a word of the block -/
def Block.Owns (b : Block B) : Op B → Prop
  | .write a | .read a => b.base ≤ a ∧ a + 4 ≤ b.base + 2 ^ b.order * B.pageSize
  | .alloc _ | .free _ _ => False

/-- the module touches and frees only what it has allocated -/
inductive Tidy : List (Op B) → Prop
  | nothing : Tidy []
  | refused : Tidy [.alloc none]
  | inUse {b : Block B} {ops : List (Op B)} : (∀ o ∈ ops, b.Owns o) → Tidy (.alloc (some b) :: ops)
  | freed {b : Block B} {ops : List (Op B)} : (∀ o ∈ ops, b.Owns o) →
      Tidy (.alloc (some b) :: (ops ++ [.free (some b) b.order]))

/-- what has been allocated has been freed -/
def Released (log : List (Op B)) : Prop := ∀ b : Block B, .alloc (some b) ∈ log → .free (some b) b.order ∈ log

/-- the module is gone, `kernel_memory_exit` has died in an oops, or the module was never loaded -/
def Unloaded (s : St B) : Prop := (∃ c, s.exit = .done c) ∨ s.exit = .oops ∨ s.init = .failed

/-- the place of the thread, if it has been created -/
def place? (s : St B) : Option (Place ThreadPc) := s.kthread.map TaskStruct.place

/-- what others do to the thread leaves it where it is -/
theorem place?_map {s : St B} {f : TaskStruct ThreadPc → TaskStruct ThreadPc}
    (hf : ∀ a, (f a).place = a.place) : (s.kthread.map f).map TaskStruct.place = place? s := by
  rw [Option.map_map, place?]
  exact congrArg (fun g => s.kthread.map g) (funext hf)

/-- `alloc_pages` succeeds, and `kthread_stop` comes when the thread has begun with its function -/
def Orderly (s : St B) (ev : Ev B) (_ : St B) : Prop :=
  match ev with
  | .thread b => place? s = some (.fn .alloc) → b.isSome
  | .exit => s.exit = .live → place? s ≠ some .entry
  | .init _ | .param _ => True

instance (s : St B) (ev : Ev B) (t : St B) : Decidable (Orderly s ev t) := by
  unfold Orderly
  cases ev <;> infer_instance

abbrev Reaches (nrStructs : Word) (mem : Mem) (l : List (Ev B)) (s : St B) : Prop :=
  Run (Takes step) (start nrStructs mem) l s

/-! ## Every run -/

def ThreadPc.Early : ThreadPc → Prop
  | .perPage | .divide | .remainder | .order | .alloc => True
  | .phys | .loops _ _ | .test | .sched => False

/-- the thread has not come past the allocation -/
def Early : Place ThreadPc → Prop
  | .entry => True
  | .fn pc | .inSchedule pc => pc.Early
  | .exited => False

/-- the thread has been waited for -/
def ExitPc.Past : ExitPc → Prop
  | .live | .wake | .wait => False
  | .phys | .loops _ _ _ | .free _ | .done _ | .oops => True

structure Basic (s : St B) : Prop where
  unborn : s.init = .create ∨ s.init = .failed → s.kthread = none
  early : (∀ p, place? s = some p → Early p) → s.pages = none
  past : s.exit.Past → place? s = some .exited
  logged : ∀ b, .alloc (some b) ∈ s.log → s.pages = some b
  done : ∀ c, s.exit = .done c → s.pages.isSome
  /-- an oops comes of an access or of a call of `__free_pages` -/
  oops : s.exit = .oops → ∃ o ∈ s.log, ∀ b, o ≠ .alloc b

/-- what a step of the thread does -/
structure ThreadMoves (s t : St B) (a c : TaskStruct ThreadPc) (b : Option (Block B)) : Prop where
  kthread : t.kthread = some c
  flag : c.shouldStop = a.shouldStop
  init : t.init = s.init
  exit : t.exit = s.exit
  running : a.place ≠ .exited
  pages : t.pages = if a.place = .fn .alloc then b else s.pages
  logged : ∀ b', .alloc (some b') ∈ t.log → .alloc (some b') ∈ s.log ∨ (a.place = .fn .alloc ∧ b = some b')
  back : Early c.place → Early a.place ∧ a.place ≠ .fn .alloc
  entered : c.place ≠ .entry
  stopped : a.place = .entry → a.shouldStop = true → c.place = .exited

theorem writeLoops_moves (s : St B) {a : TaskStruct ThreadPc} {phys : ℕ} {p : Nest.Place} (b : Option (Block B))
    (hp : a.place = .fn (.loops phys p)) : ∃ c, ThreadMoves s (writeLoops s a phys p) a c b := by
  have moves : ∀ (mem : Mem) (log : List (Op B)) (q : Place ThreadPc), ¬ Early q → q ≠ .entry →
      (∀ b', .alloc (some b') ∈ log → .alloc (some b') ∈ s.log) → ThreadMoves s
        { s with mem := mem, log := log, kthread := some { a with place := q } } a { a with place := q } b :=
    fun mem log q hq hne hlog => ⟨rfl, rfl, rfl, rfl, by simp [hp], by simp [hp], fun b' hb => Or.inl (hlog b' hb),
      fun h => absurd h hq, hne, by simp [hp]⟩
  unfold writeLoops
  split
  · exact ⟨_, moves s.mem s.log (.fn .test) not_false (by simp) fun _ => id⟩
  · exact ⟨_, moves s.mem s.log (.fn (.loops phys _)) not_false (by simp) fun _ => id⟩
  · split_ifs
    · exact ⟨_, moves s.mem s.log (.fn (.loops phys _)) not_false (by simp) fun _ => id⟩
    · exact ⟨_, moves _ _ (.fn (.loops phys _)) not_false (by simp) fun b' hb => by simpa using hb⟩
    · exact ⟨_, moves s.mem _ .exited not_false (by simp) fun b' hb => by simpa using hb⟩

theorem threadFn_moves {s t : St B} {a : TaskStruct ThreadPc} {b : Option (Block B)} {pc : ThreadPc}
    (hp : a.place = .fn pc) (h : threadFn s a b pc = some t) : ∃ c, ThreadMoves s t a c b := by
  cases pc with
  | loops phys p =>
    obtain rfl := Option.some.inj h
    exact writeLoops_moves s b hp
  | alloc =>
    simp only [threadFn] at h
    split_ifs at h
    cases h
    refine ⟨_, rfl, rfl, rfl, rfl, by simp [hp], by simp [hp], fun b' hb => ?_, by simp [Early, ThreadPc.Early], by simp,
      by simp [hp]⟩
    simp only [List.mem_append, List.mem_singleton, Op.alloc.injEq] at hb
    exact hb.imp_right fun he => ⟨hp, he.symm⟩
  | test =>
    obtain rfl := Option.some.inj h
    refine ⟨_, rfl, rfl, rfl, rfl, by simp [hp], by simp [hp], fun _ => Or.inl, ?_, ?_, by simp [hp]⟩ <;> simp only <;>
      split_ifs <;> simp [Early, ThreadPc.Early]
  | sched =>
    obtain rfl := Option.some.inj h
    refine ⟨_, rfl, schedule_shouldStop a _, rfl, rfl, by simp [hp], by simp [hp], fun _ => Or.inl, ?_, ?_,
      by simp [hp]⟩ <;> unfold TaskStruct.schedule <;> split_ifs <;> simp [Early, ThreadPc.Early]
  | _ =>
    obtain rfl := Option.some.inj h
    exact ⟨_, rfl, rfl, rfl, rfl, by simp [hp], by simp [hp], fun _ => Or.inl, by simp [hp, Early, ThreadPc.Early],
      by simp, by simp [hp]⟩

theorem threadStep_moves {s t : St B} {a : TaskStruct ThreadPc} {b : Option (Block B)}
    (h : threadStep s a b = some t) : ∃ c, ThreadMoves s t a c b := by
  cases hp : a.place with
  | entry =>
    simp only [threadStep, hp] at h
    obtain ⟨c, hc, rfl⟩ := Option.map_eq_some_iff.1 h
    obtain ⟨-, rfl⟩ := enter_eq_some hc
    refine ⟨_, rfl, rfl, rfl, rfl, by simp [hp], by simp [hp], fun _ => Or.inl, fun _ => by simp [hp, Early], ?_,
      fun _ hs => by simp [hs]⟩
    simp only
    split_ifs <;> simp
  | fn pc =>
    simp only [threadStep, hp] at h
    exact threadFn_moves hp h
  | inSchedule pc =>
    simp only [threadStep, hp] at h
    obtain ⟨c, hc, rfl⟩ := Option.map_eq_some_iff.1 h
    obtain ⟨-, rfl⟩ := resume_eq_some hc
    exact ⟨_, rfl, rfl, rfl, rfl, by simp [hp], by simp [hp], fun _ => Or.inl, by simp [hp, Early], by simp, by simp [hp]⟩
  | exited => simp [threadStep, hp] at h

theorem ThreadMoves.place {s t : St B} {a c : TaskStruct ThreadPc} {b : Option (Block B)} (h : ThreadMoves s t a c b) :
    place? t = some c.place := by rw [place?, h.kthread, Option.map_some]

/-- what a step of `kernel_memory_exit` does up to the wait for the thread -/
structure StopMoves (s t : St B) : Prop where
  init : t.init = s.init
  pages : t.pages = s.pages
  place : place? t = place? s
  log : t.log = s.log
  flag : ∀ a, s.kthread = some a → ∃ c, t.kthread = some c ∧ c.place = a.place ∧ c.shouldStop = (a.shouldStop || s.exit = .live)
  waited : t.exit.Past → place? s = some .exited
  notDone : ∀ c, t.exit ≠ .done c
  notOops : t.exit ≠ .oops

theorem exitStep_stop {s t : St B} (h : exitStep s = some t) (hx : ¬ s.exit.Past) : StopMoves s t := by
  cases hs : s.exit with
  | live =>
    simp only [exitStep, hs] at h
    split_ifs at h
    obtain rfl := Option.some.inj h
    exact ⟨rfl, rfl, place?_map fun _ => rfl, rfl, fun a ha => ⟨a.setStop, by rw [ha]; rfl, rfl, by simp [hs]⟩,
      fun hp => hp.elim, fun c hc => (by cases hc), by simp⟩
  | wake =>
    simp only [exitStep, hs, Option.some.injEq] at h
    subst h
    exact ⟨rfl, rfl, place?_map fun _ => rfl, rfl, fun a ha => ⟨a.wakeUp, by rw [ha]; rfl, rfl, by simp [hs]⟩,
      fun hp => hp.elim, fun c hc => (by cases hc), by simp⟩
  | wait =>
    simp only [exitStep, hs] at h
    split_ifs at h with hex
    obtain rfl := Option.some.inj h
    exact ⟨rfl, rfl, rfl, rfl, fun a ha => ⟨a, ha, rfl, by simp [hs]⟩, fun _ => hex, fun c hc => (by cases hc),
      by simp⟩
  | phys | loops _ _ _ | free _ | done _ | oops => exact absurd (by rw [hs]; trivial) hx

/-- what a step of `kernel_memory_exit` does after the wait for the thread -/
structure CheckMoves (s t : St B) : Prop where
  init : t.init = s.init
  kthread : t.kthread = s.kthread
  pages : t.pages = s.pages
  past : t.exit.Past
  logged : ∀ b, .alloc (some b) ∈ t.log → .alloc (some b) ∈ s.log
  done : ∀ c, t.exit = .done c → t.pages.isSome
  oops : t.exit = .oops → ∃ o ∈ t.log, ∀ b, o ≠ .alloc b

theorem exitStep_check {s t : St B} (h : exitStep s = some t) (hx : s.exit.Past) : CheckMoves s t := by
  cases hs : s.exit with
  | phys =>
    simp only [exitStep, hs, Option.some.injEq] at h
    subst h
    exact ⟨rfl, rfl, rfl, trivial, fun _ => id, fun c hc => (by cases hc), by simp⟩
  | loops phys p clean =>
    simp only [exitStep, hs, Option.some.injEq] at h
    subst h
    unfold checkLoops
    split
    · exact ⟨rfl, rfl, rfl, trivial, fun _ => id, fun c hc => (by cases hc), by simp⟩
    · exact ⟨rfl, rfl, rfl, trivial, fun _ => id, fun c hc => (by cases hc), by simp⟩
    · split_ifs
      · exact ⟨rfl, rfl, rfl, trivial, fun b hb => by simpa using hb, fun c hc => (by cases hc), by simp⟩
      · exact ⟨rfl, rfl, rfl, trivial, fun b hb => by simpa using hb, fun c hc => (by cases hc),
          fun _ => ⟨_, List.mem_append_right _ (List.mem_singleton_self _), by simp⟩⟩
  | free clean =>
    simp only [exitStep, hs, Option.some.injEq] at h
    subst h
    refine ⟨rfl, rfl, rfl, ?_, fun b hb => by simpa using hb, fun c hc => ?_,
      fun _ => ⟨_, List.mem_append_right _ (List.mem_singleton_self _), by simp⟩⟩
    · dsimp only
      split_ifs <;> trivial
    · dsimp only at hc
      split_ifs at hc with hpages
      exact hpages
  | done clean => simp [exitStep, hs] at h
  | oops => simp [exitStep, hs] at h
  | live | wake | wait =>
    rw [hs] at hx
    exact hx.elim

theorem start_basic (nrStructs : Word) (mem : Mem) : Basic (start nrStructs mem : St B) where
  unborn _ := rfl
  early _ := rfl
  past h := h.elim
  logged _ h := by cases h
  done _ h := by cases h
  oops h := by cases h

theorem initStep_basic {s t : St B} {ok : Bool} (hs : Basic s) (h : initStep s ok = some t) : Basic t := by
  cases hi : s.init with
  | create =>
    simp only [initStep, hi] at h
    have hnone := hs.unborn (Or.inl hi)
    have hnp : ¬ s.exit.Past := fun hx => by simpa [place?, hnone] using hs.past hx
    have hpages : s.pages = none := hs.early fun p hp => by simp [place?, hnone] at hp
    split_ifs at h
    · obtain rfl := Option.some.inj h
      exact ⟨fun hf => by simp at hf, fun _ => hpages, fun hx => absurd hx hnp, hs.logged, hs.done, hs.oops⟩
    · obtain rfl := Option.some.inj h
      exact ⟨fun _ => hnone, fun _ => hpages, fun hx => absurd hx hnp, hs.logged, hs.done, hs.oops⟩
  | wake =>
    simp only [initStep, hi, Option.some.injEq] at h
    subst h
    have hplace : (s.kthread.map TaskStruct.wakeUp).map TaskStruct.place = place? s := place?_map fun _ => rfl
    refine ⟨fun hf => by simp at hf, fun he => hs.early ?_, fun hx => ?_, hs.logged, hs.done, hs.oops⟩
    · exact fun p hp => he p (hplace.trans hp)
    · exact hplace.trans (hs.past hx)
  | loaded => simp [initStep, hi] at h
  | failed => simp [initStep, hi] at h

theorem threadStep_basic {s t : St B} {a : TaskStruct ThreadPc} {b : Option (Block B)} (hs : Basic s)
    (ha : s.kthread = some a) (h : threadStep s a b = some t) : Basic t := by
  obtain ⟨c, hm⟩ := threadStep_moves h
  have hplace : place? s = some a.place := by rw [place?, ha, Option.map_some]
  have hnp : ¬ s.exit.Past := by
    intro hx
    exact hm.running (Option.some.inj (hplace.symm.trans (hs.past hx)))
  refine ⟨fun hf => ?_, fun he => ?_, fun hx => absurd (hm.exit ▸ hx) hnp, fun b' hb' => ?_, fun c' hc' => ?_,
    fun hc' => ?_⟩
  · rw [hs.unborn (hm.init ▸ hf)] at ha
    cases ha
  · obtain ⟨hea, hne⟩ := hm.back (he _ hm.place)
    rw [hm.pages, if_neg hne]
    exact hs.early fun p hp => by rwa [← Option.some.inj (hplace.symm.trans hp)]
  · rw [hm.pages]
    rcases hm.logged b' hb' with hold | ⟨hp, rfl⟩
    · -- the pages are still NULL when they are asked for
      have hb := hs.logged b' hold
      rw [if_neg, hb]
      intro hp
      rw [hs.early fun q hq => by rw [← Option.some.inj (hplace.symm.trans hq), hp]; trivial] at hb
      cases hb
    · rw [if_pos hp]
  · exact absurd (by rw [← hm.exit, hc']; trivial) hnp
  · exact absurd (by rw [← hm.exit, hc']; trivial) hnp

theorem exitStep_basic {s t : St B} (hs : Basic s) (h : exitStep s = some t) : Basic t := by
  by_cases hx : s.exit.Past
  · have hm := exitStep_check h hx
    have hplace : place? t = place? s := by rw [place?, place?, hm.kthread]
    exact ⟨by rw [hm.init, hm.kthread]; exact hs.unborn, by rw [hplace, hm.pages]; exact hs.early,
      fun _ => hplace.trans (hs.past hx), fun b hb => hm.pages.trans (hs.logged b (hm.logged b hb)), hm.done, hm.oops⟩
  · have hm := exitStep_stop h hx
    refine ⟨fun hf => ?_, by rw [hm.place, hm.pages]; exact hs.early, fun hp => hm.place.trans (hm.waited hp),
      by rw [hm.pages, hm.log]; exact hs.logged, fun c hc => absurd hc (hm.notDone c), fun hc => absurd hc hm.notOops⟩
    have hnone := hs.unborn (hm.init ▸ hf)
    have hplace := hm.place
    simpa [place?, hnone] using hplace

theorem step_basic {s t : St B} {ev : Ev B} (hs : Basic s) (h : step s ev = some t) : Basic t := by
  cases ev with
  | init ok => exact initStep_basic hs h
  | thread b =>
    simp only [step] at h
    split at h
    · cases h
    · rename_i a ha
      exact threadStep_basic hs ha h
  | exit => exact exitStep_basic hs h
  | param n =>
    obtain rfl := Option.some.inj h
    exact ⟨hs.unborn, hs.early, hs.past, hs.logged, hs.done, hs.oops⟩

theorem reaches_basic {nrStructs : Word} {mem : Mem} {l : List (Ev B)} {s : St B} (h : Reaches nrStructs mem l s) :
    Basic s := Run.inv (I := Basic) (fun _ _ _ hs hst => step_basic hs hst) h (start_basic nrStructs mem)

/-! ## Runs that are not orderly -/

/-- the thread is past the allocation or will not begin, and there is no block -/
structure Lost (s : St B) : Prop where
  pages : s.pages = none
  thread : ∃ a, s.kthread = some a ∧ (a.place = .entry ∧ a.shouldStop = true ∨ ¬ Early a.place)

theorem step_lost {s t : St B} {ev : Ev B} (hs : Basic s) (hl : Lost s) (h : step s ev = some t) : Lost t := by
  obtain ⟨hpages, a, ha, hthread⟩ := hl
  cases ev with
  | init ok =>
    cases hi : s.init with
    | create =>
      rw [hs.unborn (Or.inl hi)] at ha
      cases ha
    | wake =>
      simp only [step, initStep, hi, Option.some.injEq] at h
      subst h
      exact ⟨hpages, a.wakeUp, by simp [ha], hthread⟩
    | loaded => simp [step, initStep, hi] at h
    | failed => simp [step, initStep, hi] at h
  | thread b =>
    simp only [step, ha] at h
    obtain ⟨c, hm⟩ := threadStep_moves h
    have hne : a.place ≠ .fn .alloc := by
      intro hp
      rcases hthread with ⟨he, -⟩ | he
      · simp [hp] at he
      · exact he (by rw [hp]; trivial)
    refine ⟨by rw [hm.pages, if_neg hne, hpages], c, hm.kthread, Or.inr ?_⟩
    rcases hthread with ⟨he, hstop⟩ | he
    · rw [hm.stopped he hstop]
      exact not_false
    · exact fun hc => he (hm.back hc).1
  | exit =>
    by_cases hx : s.exit.Past
    · have hm := exitStep_check h hx
      exact ⟨hm.pages.trans hpages, a, hm.kthread.trans ha, hthread⟩
    · have hm := exitStep_stop h hx
      obtain ⟨c, hc, hplace, hflag⟩ := hm.flag a ha
      refine ⟨hm.pages.trans hpages, c, hc, ?_⟩
      rw [hplace, hflag]
      exact hthread.imp_left fun ⟨he, hstop⟩ => ⟨he, by simp [hstop]⟩
  | param n =>
    obtain rfl := Option.some.inj h
    exact ⟨hpages, a, ha, hthread⟩

theorem lost_of_not_orderly {s t : St B} {ev : Ev B} (hs : Basic s) (h : step s ev = some t)
    (hbroken : ¬ Orderly s ev t) : Lost t := by
  cases ev with
  | init ok => exact absurd trivial hbroken
  | thread b =>
    obtain ⟨hp, hb⟩ := Classical.not_imp.1 hbroken
    obtain ⟨a, ha, hplace⟩ := Option.map_eq_some_iff.1 hp
    simp only [step, ha] at h
    obtain ⟨c, hm⟩ := threadStep_moves h
    refine ⟨?_, c, hm.kthread, Or.inr fun hc => (hm.back hc).2 hplace⟩
    rw [hm.pages, if_pos hplace]
    exact Option.not_isSome_iff_eq_none.1 hb
  | exit =>
    obtain ⟨hlive, hp⟩ := Classical.not_imp.1 hbroken
    obtain ⟨a, ha, hplace⟩ := Option.map_eq_some_iff.1 (not_not.1 hp)
    have hm := exitStep_stop h (by rw [hlive]; exact not_false)
    obtain ⟨c, hc, hcp, hflag⟩ := hm.flag a ha
    refine ⟨?_, c, hc, Or.inl ⟨hcp.trans hplace, by simp [hflag, hlive]⟩⟩
    rw [hm.pages]
    refine hs.early fun p hpp => ?_
    rw [← Option.some.inj ((not_not.1 hp).symm.trans hpp)]
    trivial
  | param n => exact absurd trivial hbroken

/-- an access without a block, or a call of `__free_pages` -/
theorem not_tidy_of_mem {log : List (Op B)} {o : Op B} (ho : o ∈ log) (hne : ∀ b, o ≠ .alloc b)
    (hnone : ∀ b : Block B, .alloc (some b) ∉ log) : ¬ Tidy log := by
  intro htidy
  cases htidy with
  | nothing => cases ho
  | refused => exact hne none (List.mem_singleton.1 ho)
  | inUse => exact hnone _ List.mem_cons_self
  | freed => exact hnone _ List.mem_cons_self

/-- an unloading that began without a block ends in an oops -/
theorem untidy_of_lost {s : St B} (hs : Basic s) (hl : Lost s) (hu : Unloaded s) : ¬ Tidy s.log := by
  have hnone : ∀ b : Block B, .alloc (some b) ∉ s.log := by
    intro b hb
    have hpages := hs.logged b hb
    rw [hl.pages] at hpages
    cases hpages
  rcases hu with ⟨c, hc⟩ | ho | hf
  · have hpages := hs.done c hc
    rw [hl.pages] at hpages
    cases hpages
  · obtain ⟨o, hmem, hne⟩ := hs.oops ho
    exact not_tidy_of_mem hmem hne hnone
  · obtain ⟨a, ha, -⟩ := hl.thread
    rw [hs.unborn (Or.inr hf)] at ha
    cases ha

/-! ## Orderly runs -/

/-- the structs of a page fit in it -/
def PerPage (s : St B) : Prop := s.nrStructsPerPage.toNat * structSize ≤ B.pageSize

/-- nothing has been done with memory -/
def Fresh (s : St B) : Prop := s.pages = none ∧ s.log = []

/-- what the call of `__free_pages` has added to the log -/
def freed (x : ExitPc) (b : Block B) : List (Op B) :=
  match x with
  | .done _ => [.free (some b) b.order]
  | _ => []

theorem freed_of_not_past {x : ExitPc} (h : ¬ x.Past) (b : Block B) : freed x b = [] := by
  unfold freed
  split
  · exact absurd trivial h
  · rfl

/-- the block is there, has room for the pages, and the accesses up to now were to it -/
structure Holds (s : St B) (b : Block B) (ops : List (Op B)) : Prop where
  pages : s.pages = some b
  order : b.order = s.order
  perPage : PerPage s
  room : s.nrPages.toNat ≤ 2 ^ s.order
  owns : ∀ o ∈ ops, b.Owns o
  log : s.log = .alloc (some b) :: (ops ++ freed s.exit b)

/-- loops that go through the block -/
structure LoopOk (s : St B) (phys : ℕ) (p : Nest.Place) : Prop where
  phys : phys = B.pfnPhys (pageToPfn s.pages)
  range : p.InRange s.nrPages.toNat s.nrStructsPerPage.toNat

/-- what is so at a place of the thread -/
def ThreadOk (s : St B) (stop : Bool) : Place ThreadPc → Prop
  | .entry => stop = false ∧ Fresh s
  | .fn .perPage => Fresh s
  | .fn .divide | .fn .remainder | .fn .order => Fresh s ∧ PerPage s
  | .fn .alloc => Fresh s ∧ PerPage s ∧ s.nrPages.toNat ≤ 2 ^ s.order
  | .fn (.loops phys p) => (∃ b ops, Holds s b ops) ∧ LoopOk s phys p
  | .fn .phys | .fn .test | .fn .sched | .exited => ∃ b ops, Holds s b ops
  | .inSchedule pc => pc = .test ∧ ∃ b ops, Holds s b ops

structure Inv (s : St B) : Prop extends Basic s where
  fresh : s.kthread = none → Fresh s
  thread : ∀ a, s.kthread = some a → ThreadOk s a.shouldStop a.place
  exitLoops : ∀ phys p c, s.exit = .loops phys p c → LoopOk s phys p
  noOops : s.exit ≠ .oops

theorem start_inv (nrStructs : Word) (mem : Mem) : Inv (start nrStructs mem : St B) where
  toBasic := start_basic nrStructs mem
  fresh _ := ⟨rfl, rfl⟩
  thread _ h := by cases h
  exitLoops _ _ _ h := by cases h
  noOops h := by cases h

/-- the word that the loops visit is in the block, so it is mapped -/
theorem Holds.visit {s : St B} {b : Block B} {ops : List (Op B)} {phys : ℕ} {p q : Nest.Place} {i j k : ℕ}
    (h : Holds s b ops) (hl : LoopOk s phys p)
    (hst : p.step s.nrPages.toNat s.nrStructsPerPage.toNat arrSize = .visit i j k q) :
    b.Owns (.write (addr B phys i j k)) ∧ b.Owns (.read (addr B phys i j k)) ∧ B.present (addr B phys i j k) = true ∧
      LoopOk s phys q := by
  obtain ⟨⟨hi, hj, hk⟩, hq⟩ := Nest.InRange.visit hl.range hst
  have hphys : phys = B.pfnPhys b.pfn := by rw [hl.phys, h.pages]; rfl
  have haddr := addr_owned b (h.order ▸ h.room) h.perPage hi hj hk
  rw [hphys]
  exact ⟨haddr, haddr, b.present _ haddr.1 haddr.2, rfl.trans (hphys ▸ hl.phys), hq⟩

/-- an access is added to the log -/
theorem Holds.log_append {s : St B} {b : Block B} {ops : List (Op B)} (h : Holds s b ops) (hf : freed s.exit b = [])
    (o : Op B) : s.log ++ [o] = .alloc (some b) :: (ops ++ [o] ++ []) := by
  rw [h.log, hf]
  simp

theorem forall_mem_append_singleton {b : Block B} {ops : List (Op B)} {o : Op B} (h : ∀ o ∈ ops, b.Owns o)
    (ho : b.Owns o) : ∀ o' ∈ ops ++ [o], b.Owns o' := by
  intro o' hmem
  rcases List.mem_append.1 hmem with hm | hm
  · exact h o' hm
  · rw [List.mem_singleton.1 hm]
    exact ho

theorem writeLoops_ok {s : St B} {a : TaskStruct ThreadPc} {phys : ℕ} {p : Nest.Place} (hnp : ¬ s.exit.Past)
    (h : (∃ b ops, Holds s b ops) ∧ LoopOk s phys p) :
    ∀ c, (writeLoops s a phys p).kthread = some c → ThreadOk (writeLoops s a phys p) c.shouldStop c.place := by
  obtain ⟨⟨b, ops, hh⟩, hl⟩ := h
  intro c hc
  unfold writeLoops at hc ⊢
  split at hc <;> rename_i hst
  · obtain rfl := Option.some.inj hc
    exact ⟨b, ops, { hh with }⟩
  · obtain rfl := Option.some.inj hc
    exact ⟨⟨b, ops, { hh with }⟩, hl.phys, Nest.InRange.move hl.range hst⟩
  · obtain ⟨hw, -, hpresent, hq⟩ := hh.visit hl hst
    rw [if_pos hpresent] at hc ⊢
    split_ifs at hc ⊢
    · obtain rfl := Option.some.inj hc
      exact ⟨⟨b, ops, { hh with }⟩, hq.phys, hq.range⟩
    · obtain rfl := Option.some.inj hc
      refine ⟨⟨b, ops ++ [_], { hh with owns := forall_mem_append_singleton hh.owns hw, log := ?_ }⟩, hq.phys, hq.range⟩
      have hf := freed_of_not_past hnp b
      simp only [hf]
      exact hh.log_append hf _

theorem perPage_ofNat {s : St B} (h : s.nrStructsPerPage = BitVec.ofNat 32 (B.pageSize / structSize)) : PerPage s := by
  unfold PerPage
  rw [h, BitVec.toNat_ofNat]
  calc B.pageSize / structSize % 2 ^ 32 * structSize ≤ B.pageSize / structSize * structSize :=
        Nat.mul_le_mul_right _ (Nat.mod_le _ _)
    _ ≤ B.pageSize := Nat.div_mul_le_self _ _

/-- a statement of `thread_fn` before `pages` is set, or after -/
theorem threadFn_ok {s t : St B} {a : TaskStruct ThreadPc} {b : Option (Block B)} {pc : ThreadPc}
    (hnp : ¬ s.exit.Past) (hb : pc = .alloc → b.isSome) (h : ThreadOk s a.shouldStop (.fn pc))
    (hst : threadFn s a b pc = some t) : ∀ c, t.kthread = some c → ThreadOk t c.shouldStop c.place := by
  cases pc with
  | perPage =>
    obtain rfl := Option.some.inj hst
    rintro _ ⟨⟩
    exact ⟨h, perPage_ofNat rfl⟩
  | divide =>
    obtain rfl := Option.some.inj hst
    rintro _ ⟨⟩
    exact h
  | remainder =>
    obtain rfl := Option.some.inj hst
    rintro _ ⟨⟩
    exact h
  | order =>
    obtain rfl := Option.some.inj hst
    rintro _ ⟨⟩
    exact ⟨h.1, h.2, le_two_pow_myGetOrder s.nrPages⟩
  | alloc =>
    obtain ⟨b, rfl⟩ := Option.isSome_iff_exists.1 (hb rfl)
    simp only [threadFn] at hst
    split_ifs at hst with hord
    obtain rfl := Option.some.inj hst
    rintro _ ⟨⟩
    have horder : b.order = s.order := hord b rfl
    obtain ⟨⟨-, hlog⟩, hper, hroom⟩ := h
    refine ⟨b, [], rfl, horder, hper, hroom, by simp, ?_⟩
    have hf := freed_of_not_past hnp b
    simp only [hf, hlog, List.nil_append]
  | phys =>
    obtain rfl := Option.some.inj hst
    rintro _ ⟨⟩
    obtain ⟨b, ops, hh⟩ := h
    exact ⟨⟨b, ops, { hh with }⟩, rfl, trivial⟩
  | loops phys p =>
    obtain rfl := Option.some.inj hst
    exact writeLoops_ok hnp h
  | test =>
    obtain rfl := Option.some.inj hst
    rintro _ ⟨⟩
    obtain ⟨b, ops, hh⟩ := h
    simp only
    split_ifs
    · exact ⟨b, ops, { hh with }⟩
    · exact ⟨b, ops, { hh with }⟩
  | sched =>
    obtain rfl := Option.some.inj hst
    rintro _ ⟨⟩
    obtain ⟨b, ops, hh⟩ := h
    unfold TaskStruct.schedule
    split_ifs
    · exact ⟨b, ops, { hh with }⟩
    · exact ⟨rfl, b, ops, { hh with }⟩

theorem threadStep_inv {s t : St B} {a : TaskStruct ThreadPc} {b : Option (Block B)} (hs : Inv s)
    (ha : s.kthread = some a) (hb : a.place = .fn .alloc → b.isSome) (hst : threadStep s a b = some t) : Inv t := by
  obtain ⟨c, hm⟩ := threadStep_moves hst
  have hnp : ¬ s.exit.Past := by
    intro hx
    have hex := hs.past hx
    rw [place?, ha, Option.map_some] at hex
    exact hm.running (Option.some.inj hex)
  have hok := hs.thread a ha
  refine ⟨threadStep_basic hs.toBasic ha hst, fun hnone => ?_, ?_, fun phys p c' hx => ?_, hm.exit ▸ hs.noOops⟩
  · rw [hm.kthread] at hnone
    cases hnone
  · cases hp : a.place with
    | entry =>
      simp only [threadStep, hp] at hst
      rw [hp] at hok
      obtain ⟨c', hc', rfl⟩ := Option.map_eq_some_iff.1 hst
      obtain ⟨-, rfl⟩ := enter_eq_some hc'
      rintro _ ⟨⟩
      obtain ⟨hstop, hfresh⟩ := hok
      simp only [hstop]
      exact hfresh
    | fn pc =>
      simp only [threadStep, hp] at hst
      rw [hp] at hok
      exact threadFn_ok hnp (fun hpc => hb (hp.trans (congrArg _ hpc))) hok hst
    | inSchedule pc =>
      simp only [threadStep, hp] at hst
      rw [hp] at hok
      obtain ⟨c', hc', rfl⟩ := Option.map_eq_some_iff.1 hst
      obtain ⟨-, rfl⟩ := resume_eq_some hc'
      rintro _ ⟨⟩
      obtain ⟨rfl, b', ops, hh⟩ := hok
      exact ⟨b', ops, { hh with }⟩
    | exited => simp [threadStep, hp] at hst
  · exact absurd (by rw [← hm.exit, hx]; trivial) hnp

section

variable (n : Word) (k : Option (TaskStruct ThreadPc)) (i : InitPc)

/-- what is held does not depend on the parameter, the thread and the places of the other functions -/
theorem Holds.frame {s : St B} {b : Block B} {ops : List (Op B)} (h : Holds s b ops) {x : ExitPc}
    (hf : freed x b = freed s.exit b) : Holds { s with nrStructs := n, kthread := k, init := i, exit := x } b ops :=
  { h with log := by simp only [hf]; exact h.log }

theorem LoopOk.frame {s : St B} {phys : ℕ} {p : Nest.Place} (h : LoopOk s phys p) (x : ExitPc) :
    LoopOk { s with nrStructs := n, kthread := k, init := i, exit := x } phys p := ⟨h.phys, h.range⟩

theorem ThreadOk.frame {s : St B} {stop : Bool} {p : Place ThreadPc} (h : ThreadOk s stop p) {x : ExitPc}
    (hf : ∀ b : Block B, freed x b = freed s.exit b) :
    ThreadOk { s with nrStructs := n, kthread := k, init := i, exit := x } stop p := by
  have holds : (∃ b ops, Holds s b ops) →
      ∃ b ops, Holds { s with nrStructs := n, kthread := k, init := i, exit := x } b ops := by
    rintro ⟨b, ops, hh⟩
    exact ⟨b, ops, hh.frame n k i (hf b)⟩
  match p, h with
  | .entry, h | .fn .perPage, h | .fn .divide, h | .fn .remainder, h | .fn .order, h | .fn .alloc, h => exact h
  | .fn (.loops _ _), h => exact ⟨holds h.1, h.2.frame n k i x⟩
  | .fn .phys, h | .fn .test, h | .fn .sched, h | .exited, h => exact holds h
  | .inSchedule _, h => exact ⟨h.1, holds h.2⟩

end

theorem ThreadOk.stop {s : St B} {stop stop' : Bool} {p : Place ThreadPc} (h : ThreadOk s stop p) (hp : p ≠ .entry) :
    ThreadOk s stop' p := by
  match p, h with
  | .entry, _ => exact absurd rfl hp
  | .fn pc, h => cases pc <;> exact h
  | .inSchedule _, h | .exited, h => exact h

/-- the loops of `kernel_memory_exit` -/
theorem checkLoops_ok {s : St B} {b : Block B} {ops : List (Op B)} {phys : ℕ} {p : Nest.Place} {clean : Bool}
    (h : Holds s b ops) (hf : freed s.exit b = []) (hl : LoopOk s phys p) :
    (∃ ops', Holds (checkLoops s phys p clean) b ops') ∧ (∀ phys' p' c, (checkLoops s phys p clean).exit = .loops phys' p' c →
      LoopOk (checkLoops s phys p clean) phys' p') ∧ (checkLoops s phys p clean).exit ≠ .oops := by
  unfold checkLoops
  split <;> rename_i hst
  · exact ⟨⟨ops, h.frame s.nrStructs s.kthread s.init (hf.symm ▸ rfl)⟩, fun _ _ _ hx => (by cases hx), by simp⟩
  · refine ⟨⟨ops, h.frame s.nrStructs s.kthread s.init (hf.symm ▸ rfl)⟩, ?_, by simp⟩
    rintro _ _ _ ⟨⟩
    exact ⟨hl.phys, Nest.InRange.move hl.range hst⟩
  · obtain ⟨-, hr, hpresent, hq⟩ := h.visit hl hst
    rw [if_pos hpresent]
    refine ⟨⟨ops ++ [_], { h with owns := forall_mem_append_singleton h.owns hr, log := h.log_append hf _ }⟩, ?_, by simp⟩
    rintro _ _ _ ⟨⟩
    exact ⟨hq.phys, hq.range⟩

/-- `kernel_memory_exit` after the wait, when the thread has held a block -/
theorem exitStep_holds {s t : St B} {b : Block B} {ops : List (Op B)} (h : Holds s b ops) (hx : s.exit.Past)
    (hl : ∀ phys p c, s.exit = .loops phys p c → LoopOk s phys p) (hst : exitStep s = some t) :
    (∃ ops', Holds t b ops') ∧ (∀ phys p c, t.exit = .loops phys p c → LoopOk t phys p) ∧ t.exit ≠ .oops := by
  cases hs : s.exit with
  | phys =>
    simp only [exitStep, hs, Option.some.injEq] at hst
    subst hst
    refine ⟨⟨ops, h.frame s.nrStructs s.kthread s.init (by rw [hs]; rfl)⟩, ?_, by simp⟩
    rintro _ _ _ ⟨⟩
    exact ⟨rfl, trivial⟩
  | loops phys p clean =>
    simp only [exitStep, hs, Option.some.injEq] at hst
    exact hst ▸ checkLoops_ok h (by rw [hs]; rfl) (hl _ _ _ hs)
  | free clean =>
    simp only [exitStep, hs, Option.some.injEq] at hst
    subst hst
    rw [if_pos (by rw [h.pages]; rfl)]
    refine ⟨⟨ops, { h with log := ?_ }⟩, fun _ _ _ hx => (by cases hx), by simp⟩
    simp only [h.log, h.pages, ← h.order, hs, freed, List.append_nil, List.cons_append]
  | done clean => simp [exitStep, hs] at hst
  | oops => simp [exitStep, hs] at hst
  | live | wake | wait =>
    rw [hs] at hx
    exact hx.elim

theorem exitStep_inv {s t : St B} (hs : Inv s) (hlive : s.exit = .live → place? s ≠ some .entry)
    (hst : exitStep s = some t) : Inv t := by
  have hbasic := exitStep_basic hs.toBasic hst
  by_cases hx : s.exit.Past
  · obtain ⟨a, ha, hplace⟩ := Option.map_eq_some_iff.1 (hs.past hx)
    have hok := hs.thread a ha
    rw [hplace] at hok
    obtain ⟨b, ops, hh⟩ := hok
    obtain ⟨⟨ops', hh'⟩, hl, hno⟩ := exitStep_holds hh hx hs.exitLoops hst
    have hk := (exitStep_check hst hx).kthread
    refine ⟨hbasic, fun hnone => ?_, fun c hc => ?_, hl, hno⟩
    · rw [hk, ha] at hnone
      cases hnone
    · rw [hk, ha] at hc
      obtain rfl := Option.some.inj hc
      rw [hplace]
      exact ⟨b, ops', hh'⟩
  · -- up to the wait only the thread's flag and state change
    have hthread : ∀ (x : ExitPc) (f : TaskStruct ThreadPc → TaskStruct ThreadPc), ¬ x.Past →
        (∀ a, (f a).place = a.place ∧ ((f a).shouldStop = a.shouldStop ∨ s.exit = .live)) →
        ∀ c, s.kthread.map f = some c →
          ThreadOk { s with kthread := s.kthread.map f, exit := x } c.shouldStop c.place := by
      intro x f hnx hf c hc
      obtain ⟨a, ha, rfl⟩ := Option.map_eq_some_iff.1 hc
      obtain ⟨hp, hflag⟩ := hf a
      rw [hp]
      refine ThreadOk.frame s.nrStructs _ s.init ?_ fun b => by rw [freed_of_not_past hnx, freed_of_not_past hx]
      rcases hflag with hflag | hl
      · rw [hflag]
        exact hs.thread a ha
      · refine (hs.thread a ha).stop fun he => hlive hl ?_
        rw [place?, ha, Option.map_some, he]
    have hfresh : ∀ f : TaskStruct ThreadPc → TaskStruct ThreadPc, s.kthread.map f = none → Fresh s :=
      fun f hf => hs.fresh (Option.map_eq_none_iff.1 hf)
    cases hsx : s.exit with
    | live =>
      simp only [exitStep, hsx] at hst
      split_ifs at hst
      obtain rfl := Option.some.inj hst
      exact ⟨hbasic, hfresh _, hthread .wake _ not_false fun _ => ⟨rfl, Or.inr hsx⟩, fun _ _ _ h => (by cases h),
        by simp⟩
    | wake =>
      simp only [exitStep, hsx, Option.some.injEq] at hst
      subst hst
      exact ⟨hbasic, hfresh _, hthread .wait _ not_false fun _ => ⟨rfl, Or.inl rfl⟩, fun _ _ _ h => (by cases h),
        by simp⟩
    | wait =>
      simp only [exitStep, hsx] at hst
      split_ifs at hst with hex
      obtain rfl := Option.some.inj hst
      refine ⟨hbasic, hs.fresh, fun c hc => ?_, fun _ _ _ h => (by cases h), by simp⟩
      rw [hc, Option.map_some] at hex
      have hok := hs.thread c hc
      rw [Option.some.inj hex] at hok ⊢
      obtain ⟨b, ops, hh⟩ := hok
      exact ⟨b, ops, hh.frame s.nrStructs s.kthread s.init (by rw [hsx]; rfl)⟩
    | phys | loops _ _ _ | free _ | done _ | oops => exact absurd (by rw [hsx]; trivial) hx

theorem initStep_inv {s t : St B} {ok : Bool} (hs : Inv s) (h : initStep s ok = some t) : Inv t := by
  have hbasic := initStep_basic hs.toBasic h
  cases hi : s.init with
  | create =>
    simp only [initStep, hi] at h
    have hnone := hs.unborn (Or.inl hi)
    split_ifs at h
    · obtain rfl := Option.some.inj h
      refine ⟨hbasic, fun hk => by simp at hk, fun c hc => ?_, fun phys p c hx => (hs.exitLoops phys p c hx).frame _ _ _ _,
        hs.noOops⟩
      obtain rfl := Option.some.inj hc
      exact ⟨rfl, hs.fresh hnone⟩
    · obtain rfl := Option.some.inj h
      exact ⟨hbasic, hs.fresh, fun c hc => (hs.thread c hc).frame _ _ _ fun _ => rfl,
        fun phys p c hx => (hs.exitLoops phys p c hx).frame _ _ _ _,
        hs.noOops⟩
  | wake =>
    simp only [initStep, hi, Option.some.injEq] at h
    subst h
    refine ⟨hbasic, fun hk => hs.fresh (Option.map_eq_none_iff.1 hk), fun c hc => ?_,
      fun phys p c hx => (hs.exitLoops phys p c hx).frame _ _ _ _,
        hs.noOops⟩
    obtain ⟨a, ha, rfl⟩ := Option.map_eq_some_iff.1 hc
    exact (hs.thread a ha).frame _ _ _ fun _ => rfl
  | loaded => simp [initStep, hi] at h
  | failed => simp [initStep, hi] at h

theorem step_inv {s t : St B} {ev : Ev B} (hs : Inv s) (ho : Orderly s ev t) (h : step s ev = some t) : Inv t := by
  cases ev with
  | init ok => exact initStep_inv hs h
  | thread b =>
    simp only [step] at h
    split at h
    · cases h
    · rename_i a ha
      exact threadStep_inv hs ha (fun hp => ho (by rw [place?, ha, Option.map_some, hp])) h
  | exit => exact exitStep_inv hs ho h
  | param n =>
    have hbasic := step_basic hs.toBasic h
    obtain rfl := Option.some.inj h
    exact ⟨hbasic, hs.fresh, fun a ha => (hs.thread a ha).frame _ _ _ fun _ => rfl,
      fun phys p c hx => (hs.exitLoops phys p c hx).frame _ _ _ _, hs.noOops⟩

/-! ## Tidiness -/

theorem ThreadOk.fresh_or_holds {s : St B} {stop : Bool} {p : Place ThreadPc} (h : ThreadOk s stop p) :
    Fresh s ∨ ∃ b ops, Holds s b ops := by
  match p, h with
  | .entry, h => exact Or.inl h.2
  | .fn .perPage, h => exact Or.inl h
  | .fn .divide, h | .fn .remainder, h | .fn .order, h | .fn .alloc, h => exact Or.inl h.1
  | .fn (.loops _ _), h => exact Or.inr h.1
  | .fn .phys, h | .fn .test, h | .fn .sched, h | .exited, h => exact Or.inr h
  | .inSchedule _, h => exact Or.inr h.2

theorem Holds.tidy {s : St B} {b : Block B} {ops : List (Op B)} (h : Holds s b ops) : Tidy s.log := by
  rw [h.log]
  unfold freed
  split
  · exact .freed h.owns
  · rw [List.append_nil]
    exact .inUse h.owns

theorem Inv.tidy {s : St B} (h : Inv s) : Tidy s.log := by
  have hcase : Fresh s ∨ ∃ b ops, Holds s b ops := by
    cases hk : s.kthread with
    | none => exact Or.inl (h.fresh hk)
    | some a => exact (h.thread a hk).fresh_or_holds
  rcases hcase with hf | ⟨b, ops, hh⟩
  · rw [hf.2]
    exact .nothing
  · exact hh.tidy

theorem Inv.released {s : St B} (h : Inv s) (hu : Unloaded s) : Released s.log := by
  rcases hu with ⟨c, hc⟩ | ho | hf
  · obtain ⟨a, ha, hplace⟩ := Option.map_eq_some_iff.1 (h.past (by rw [hc]; trivial))
    have hok := h.thread a ha
    rw [hplace] at hok
    obtain ⟨b, ops, hh⟩ := hok
    have hlog : s.log = .alloc (some b) :: (ops ++ [.free (some b) b.order]) := by rw [hh.log, hc]; rfl
    intro b' hb'
    rw [hlog] at hb' ⊢
    simp only [List.mem_cons, List.mem_append, Op.alloc.injEq, Option.some.injEq, reduceCtorEq, List.not_mem_nil,
      or_false] at hb'
    rcases hb' with rfl | hb'
    · simp
    · exact (hh.owns _ hb').elim
  · exact absurd ho h.noOops
  · have hlog := (h.fresh (h.unborn (Or.inr hf))).2
    intro b hb
    rw [hlog] at hb
    cases hb

theorem reaches_inv {nrStructs : Word} {mem : Mem} {l : List (Ev B)} {s : St B} (h : Reaches nrStructs mem l s)
    (ho : Along (Takes step) Orderly (start nrStructs mem) l) : Inv s :=
  Along.inv (I := Inv) (fun _ _ _ hs ho hst => step_inv hs ho hst) ho h (start_inv nrStructs mem)

/-- a run that ends tidily has been orderly -/
theorem orderly_of_tidy {nrStructs : Word} {mem : Mem} {l : List (Ev B)} {s : St B} (h : Reaches nrStructs mem l s)
    (hu : Unloaded s) (ht : Tidy s.log) : Along (Takes step) Orderly (start nrStructs mem) l :=
  Along.of_not (fun _ _ _ hs hst => step_basic hs hst) (fun _ _ _ hs hl hst => step_lost hs hl hst)
    (fun _ _ _ hs hst hb => lost_of_not_orderly hs hst hb) h (start_basic nrStructs mem)
    fun hl => untidy_of_lost (reaches_basic h) hl hu ht

/-- **Ownership.** -/
theorem tidy_iff {nrStructs : Word} {mem : Mem} {l : List (Ev B)} {s : St B} (h : Reaches nrStructs mem l s) :
    (Along (Takes step) Orderly (start nrStructs mem) l → Tidy s.log) ∧
      (Unloaded s →
        (Tidy s.log ∧ Released s.log ↔ Along (Takes step) Orderly (start nrStructs mem) l)) := by
  refine ⟨fun ho => (reaches_inv h ho).tidy, fun hu => ⟨fun ht => orderly_of_tidy h hu ht.1, fun ho => ?_⟩⟩
  have hinv := reaches_inv h ho
  exact ⟨hinv.tidy, hinv.released hu⟩

/-! ## Runs -/

/-- the words above the offset are mapped -/
def above (offset a : ℕ) : Bool := decide (offset ≤ a)

/-- a board with pages of one struct -/
def smallBoard : Board := ⟨32, by decide, 2 ^ 31, 0, above (2 ^ 31)⟩

def onePage : Block smallBoard := ⟨5, 0, by decide, fun _ ha _ => decide_eq_true ((by decide : 2 ^ 31 ≤ 2147483808).trans ha)⟩

/-- one struct: it is written, checked and freed -/
def checkedRun : List (Ev smallBoard) :=
  [.init true, .init true] ++ List.replicate 5 (.thread none) ++ [.thread (some onePage)] ++
    List.replicate 15 (.thread none) ++ [.exit, .exit, .thread none, .thread none] ++ List.replicate 16 .exit

theorem tidy_with_block : ∃ s : St smallBoard, Reaches 1 (fun _ => 0) checkedRun s ∧ Tidy s.log ∧ Released s.log ∧
    s.exit = .done true ∧ s.log.length = 18 := by
  have hobs : (checkedRun.foldlM step (start 1 fun _ => 0)).map
      (fun s : St smallBoard => (s.exit, s.log.length)) = some (.done true, 18) := by decide +kernel
  obtain ⟨s, hs, ho⟩ := Option.map_eq_some_iff.1 hobs
  obtain ⟨hexit, hlen⟩ := Prod.mk.inj ho
  have hr : Reaches 1 (fun _ => 0) checkedRun s := run_takes_iff.2 hs
  obtain ⟨ht, hrel⟩ := ((tidy_iff hr).2 (Or.inl ⟨true, hexit⟩)).2 (by decide +kernel)
  exact ⟨s, hr, ht, hrel, hexit, hlen⟩

/-- the first gigabyte above the offset is mapped -/
def lowMemory (a : ℕ) : Bool := decide (2 ^ 31 ≤ a ∧ a + 4 ≤ 2 ^ 31 + 2 ^ 30)

/-- the pages and the mapping of the target; what NULL gives is outside of it -/
def armBoard : Board := ⟨4096, by decide, 2 ^ 31, 0x40380, lowMemory⟩

/-- the module is unloaded before the thread has run -/
def earlyUnload : List (Ev armBoard) :=
  [.init true, .init true, .exit, .exit, .thread none] ++ List.replicate 4 .exit

/-- one struct, and `alloc_pages` fails; up to the first word -/
def refusedRun : List (Ev armBoard) := [.init true, .init true] ++ List.replicate 10 (.thread none)

/-- NULL is freed, and a word outside of any block is written; each is an oops -/
theorem untidy_runs :
    (∃ s : St armBoard, Reaches 2000 (fun _ => 0) earlyUnload s ∧ s.exit = .oops ∧ s.log = [.free none 0] ∧
      ¬ Tidy s.log) ∧
    ∃ s : St armBoard, Reaches 1 (fun _ => 0) refusedRun s ∧ place? s = some .exited ∧
      s.log = [.alloc none, .write (2 ^ 31 + 0x40380000)] ∧ ¬ Tidy s.log := by
  have hfirst : (earlyUnload.foldlM step (start 2000 fun _ => 0)).map
      (fun s : St armBoard => (s.exit, s.log)) = some (.oops, [.free none 0]) := by decide
  have hsecond : (refusedRun.foldlM step (start 1 fun _ => 0)).map (fun s : St armBoard => (place? s, s.log)) =
      some (some .exited, [.alloc none, .write (2 ^ 31 + 0x40380000)]) := by decide +kernel
  obtain ⟨s, hs, ho⟩ := Option.map_eq_some_iff.1 hfirst
  obtain ⟨s', hs', ho'⟩ := Option.map_eq_some_iff.1 hsecond
  obtain ⟨hexit, hlog⟩ := Prod.mk.inj ho
  obtain ⟨hplace, hlog'⟩ := Prod.mk.inj ho'
  refine ⟨⟨s, run_takes_iff.2 hs, hexit, hlog, ?_⟩, s', run_takes_iff.2 hs', hplace, hlog', ?_⟩
  · rw [hlog]
    exact not_tidy_of_mem (List.mem_singleton_self _) (by simp) (by simp)
  · rw [hlog']
    intro htidy
    cases htidy

end Cse422.KernelMemory
