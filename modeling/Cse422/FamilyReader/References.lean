/-
References on tasks. `get_pid_task` takes one on the task that it returns. `pidme_store` keeps the pointer in `curr_task`,
the walk overwrites it, and nothing is put back.

- `refs_run`: each write that names a task leaves one reference on it;
- `balanced_iff`: every write of a run leaves the references as they were if and only if none of them names a task;
- `kept_reference`: a write of 1.
-/
import Cse422.FamilyReader.Module

namespace Cse422.FamilyReader

open Lts Words Kobject

variable {Pid Task : Type*} [DecidableEq Task]

/-- a write to the file, and what the kernel answers meanwhile -/
structure Write (Pid Task : Type*) where
  kernel : Kernel Pid Task
  buf : List Byte
  count : ℕ

/-- the task that is found under the pid that is written -/
def Write.task (w : Write Pid Task) : Option Task := w.kernel.task w.buf

/-- one call of `pidme_store` -/
def Stores (s : Loaded Task) (w : Write Pid Task) (t : Loaded Task) : Prop :=
  t = (pidmeStore w.kernel s w.buf w.count).2

/-- the module holds the references after the call that it held before -/
def Balanced (s : Loaded Task) (_ : Write Pid Task) (t : Loaded Task) : Prop := ∀ a, t.refs a = s.refs a

section References

variable {s t : Loaded Task} {w : Write Pid Task} {l : List (Write Pid Task)}

/-- what one write leaves -/
theorem stores_refs (h : Stores s w t) (a : Task) : t.refs a = s.refs a + if w.task = some a then 1 else 0 := by
  obtain rfl := h
  cases htask : w.task with
  | none =>
    rw [pidmeStore_none htask, if_neg (Option.some_ne_none a).symm]
    rfl
  | some b =>
    obtain ⟨n, -, hstore⟩ := pidmeStore_some s w.count htask
    rw [hstore]
    dsimp only
    rcases eq_or_ne a b with rfl | hab
    · rw [Function.update_self, if_pos rfl]
    · rw [Function.update_of_ne hab, if_neg fun heq => hab (Option.some.inj heq).symm]
      rfl

/-- **References only pile up.** -/
theorem refs_run (h : Run Stores s l t) (a : Task) :
    t.refs a = s.refs a + l.countP fun w => decide (w.task = some a) := by
  induction h with
  | nil => rfl
  | @cons s u t w l hst _ ih =>
    rw [ih, stores_refs hst a, List.countP_cons]
    simp only [decide_eq_true_eq]
    omega

/-- one write -/
theorem balanced_step_iff (h : Stores s w t) : Balanced s w t ↔ w.task = none := by
  constructor
  · intro hb
    by_contra hne
    obtain ⟨a, ha⟩ := Option.ne_none_iff_exists'.1 hne
    have hrefs := stores_refs h a
    rw [hb a, if_pos ha] at hrefs
    omega
  · intro hnone a
    rw [stores_refs h a, hnone, if_neg (Option.some_ne_none a).symm]
    rfl

/-- **References are balanced** along a sequence of writes if and only if no write names a task. -/
theorem balanced_iff (s : Loaded Task) (l : List (Write Pid Task)) :
    Along Stores Balanced s l ↔ ∀ w ∈ l, w.task = none := by
  induction l generalizing s with
  | nil => exact ⟨fun _ w hw => absurd hw List.not_mem_nil, fun _ => along_nil s⟩
  | cons w l ih =>
    rw [along_cons, List.forall_mem_cons]
    constructor
    · intro h
      obtain ⟨hb, hrest⟩ := h _ rfl
      exact ⟨(balanced_step_iff rfl).1 hb, (ih _).1 hrest⟩
    · rintro ⟨hw, hl⟩ t hst
      exact ⟨(balanced_step_iff hst).2 hw, (ih t).2 hl⟩

/-- the text "1", and a kernel that finds a task under it -/
def writeOne : Write Unit Unit :=
  ⟨⟨fun _ => some (), some, fun _ => ⟨fun _ => 1, fun _ => (), fun _ => "init"⟩⟩, [49], 1⟩

/-- **A reference that is kept.** The pid of `init` is written once. -/
theorem kept_reference : ∃ t : Loaded Unit, kstrtoint writeOne.buf = .ok 1 ∧
    Stores ⟨0, [], fun _ => 0⟩ writeOne t ∧ t.refs () = 1 ∧ ¬ Along Stores Balanced ⟨0, [], fun _ => 0⟩ [writeOne] := by
  have htask : writeOne.task = some () := by decide
  refine ⟨_, by decide, rfl, ?_, fun h => ?_⟩
  · rw [stores_refs rfl (), if_pos htask]
  · have hb : Balanced _ writeOne _ := h [] writeOne [] _ _ rfl (.nil _) rfl
    rw [balanced_step_iff rfl, htask] at hb
    cases hb

end References

end Cse422.FamilyReader
