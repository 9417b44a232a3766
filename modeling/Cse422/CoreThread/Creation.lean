/-
What `mod_init` creates. Its loop counts in `i`, and from the first wake-up on a thread counts there too, up to a
million. `mod_init` reads `i` anew for each turn's test, for each call of `kthread_create` and the slot of its answer,
and for each later access to `arr_taskptr`.

- `created_once`: in the runs in which `mod_init` finds its own value whenever it uses `i`, it stays within the array,
  fills each slot once and calls `kthread_create` four times;
- `created_once_lockstep`: such a run need not leave the threads asleep: the first counts in step with `mod_init`, and
  the others start between the read and the write of `++i`;
- `store_outside`: a thread that counts to 4 between the test of a turn and its `kthread_create`.
-/
import Cse422.CoreThread.Module

namespace Cse422.CoreThread

open Lts Kthread

/-- the loop of `mod_init` has ended -/
def ModPc.loopLeft : ModPc → Bool
  | .atomicSet | .done => true
  | _ => false

/-- each call of `kthread_create` has made a thread or failed -/
structure CreatedOnce (s : Loaded) : Prop where
  inBounds : ∀ x ∈ s.accesses, 0 ≤ x ∧ x < 4
  atMostOnce : ∀ x, s.stores.count x ≤ 1
  once : s.modInit.loopLeft → ∀ x, 0 ≤ x → x < 4 → s.stores.count x = 1
  four : s.modInit.loopLeft → s.threads.length + s.failed = 4

section Result

variable {src : Source} {iters T : ℕ} {s : Loaded}

theorem Owned.end (h : Owned T s) (hleft : s.modInit.loopLeft) : s.stores.length = T ∧ s.threads.length + s.failed = T := by
  have hpc := h.pc
  cases heq : s.modInit with
  | atomicSet => rwa [heq] at hpc
  | done => rwa [heq] at hpc
  | _ => rw [heq] at hleft; cases hleft

theorem Owned.nodup (h : Owned T s) : s.stores.Nodup := by
  rw [h.stores]
  exact List.nodup_range.map Nat.cast_injective

/-- **Each thread is created once**, for both modules, when `mod_init` uses only its own values of `i`. -/
theorem created_once (src : Source) (iters : ℕ) (l : List Ev) (s : Loaded)
    (hrun : Run (Takes (step src 4 iters)) (loaded 4) l s)
    (hown : Along (Takes (step src 4 iters)) (fun s ev _ => ModOwn s ev) (loaded 4) l) : CreatedOnce s := by
  have h := owned_run hrun hown
  refine ⟨h.accesses (by norm_num), List.nodup_iff_count_le_one.1 h.nodup, ?_, fun hleft => (h.end hleft).2⟩
  intro hleft x hlo hhi
  rw [List.count_eq_one_of_mem h.nodup]
  rw [h.stores, (h.end hleft).1]
  exact List.mem_map.2 ⟨x.toNat, List.mem_range.2 (by omega), Int.toNat_of_nonneg hlo⟩

/-- a turn of `mod_init` in which thread 0 makes a turn of its own and thread `k` starts -/
def turnWith (k : ℕ) : List Ev :=
  List.replicate 9 (.modInit true) ++ List.replicate 3 (.thread 0) ++
    [.modInit true, .thread k, .thread k, .modInit true, .thread 0]

/-- thread 0 starts in the first turn, before anything but 0 has been written to `i` -/
def lockstep : List Ev :=
  List.replicate 10 (.modInit true) ++ List.replicate 5 (.thread 0) ++ [.modInit true, .modInit true, .thread 0] ++
    [1, 2, 3].flatMap turnWith ++ List.replicate 2 (.modInit true)

/-- four threads run while `mod_init` creates them -/
theorem created_once_lockstep : ∃ s, Run (Takes (step .coreThreadAtomic 4 1000000)) (loaded 4) lockstep s ∧
    s.modInit = .done ∧ s.stores = [0, 1, 2, 3] ∧ (∀ a ∈ s.threads, a.place ≠ .entry) ∧ CreatedOnce s := by
  refine ⟨_, run_takes_iff.2 rfl, rfl, rfl, by decide, ?_⟩
  exact created_once .coreThreadAtomic 1000000 lockstep _ (run_takes_iff.2 rfl) (by decide +kernel)

/-- **A store outside of the array.** The first thread runs four turns of its loop when `mod_init` has begun its second
turn: its second thread goes to the slot with number 4. -/
theorem store_outside : ∃ s, Run (Takes (step .coreThreadAtomic 4 1000000)) (loaded 4)
    (List.replicate 14 (.modInit true) ++ List.replicate 18 (.thread 0) ++ List.replicate 2 (.modInit true)) s ∧
    s.threads.length = 2 ∧ s.stores = [0] ∧ 4 ∈ s.accesses ∧ ¬ CreatedOnce s := by
  refine ⟨_, run_takes_iff.2 rfl, rfl, rfl, by decide, ?_⟩
  intro h
  have hlt := (h.inBounds 4 (by decide)).2
  exact lt_irrefl 4 hlt

end Result

end Cse422.CoreThread
