/-
Kills and restarts. The shared object outlives a run that does not get to its `shm_unlink`, and nobody resets its
guards, so the next run finds them as they were.

- `restart_fresh_if_reset`: in every sequence of runs in which both programs are started only when there is no object
  or its `read_guard` is zero, a follower that completes has the array of the leader of its own run; and from every
  start with a `read_guard` that is set, the follower can complete with an array that its leader has not written;
- `restart_stale`: a follower killed before its `shm_unlink`, and the next one, which copies what the earlier leader
  wrote before its own leader has done anything.
-/
import Cse422.Handover.Delivery

namespace Cse422.Handover

open Lts Words

/-- a follower that has completed holds the whole array that the leader of its run has written -/
def FreshCopy (n : ℕ) (w : World) : Prop :=
  w.follower.pc = .returned 0 → w.leader.pc.notified ∧ ∀ i < n, load w.follower.arr (4 * i) = w.leader.arr i

/-- the programs are started only when there is no object, or one whose `read_guard` is zero -/
def CleanStart (w : World) (ev : LifeEv) (_ : World) : Prop :=
  match ev with
  | .start _ => ∀ id ∈ w.name, w.word id offReadGuard = 0
  | .prog _ | .killLeader | .killFollower => True

instance (w : World) (ev : LifeEv) (w' : World) : Decidable (CleanStart w ev w') := by
  unfold CleanStart; split <;> infer_instance

/-! ## Clean starts -/

section Clean

variable {n : ℕ} {w w' : World}

theorem inv_killLeader (h : Inv n w) : Inv n { w with leader := { w.leader with alive := false } } :=
  ⟨h.sizes, h.leaderMap, h.followerMap, h.inside, h.guard, h.written, h.copying, h.before, h.copied⟩

theorem inv_killFollower (h : Inv n w) : Inv n { w with follower := { w.follower with alive := false } } :=
  ⟨h.sizes, h.leaderMap, h.followerMap, h.inside, h.guard, h.written, h.copying, h.before, h.copied⟩

/-- a start forgets all but the objects and the name -/
theorem inv_start (hs : ∀ id, (w.objs id).size = 0 ∨ (w.objs id).size = sizeofSharedData n)
    (hg : ∀ id ∈ w.name, w.word id offReadGuard = 0) (rand : ℕ → Word) :
    Inv n { w with leader := startLeader rand, follower := startFollower } where
  sizes := hs
  leaderMap id hid := by cases hid
  followerMap id hid := by cases hid
  inside h := by cases h
  guard id hid hne := by
    rcases hid with hid | hid
    · exact absurd (hg id hid) hne
    · cases hid
  written id _ i hi := by cases hi
  copying h := by cases h
  before _ _ := rfl
  copied h := by cases h

theorem inv_idle (n : ℕ) : Inv n idle where
  sizes _ := Or.inl rfl
  leaderMap id hid := by cases hid
  followerMap id hid := by cases hid
  inside h := by cases h
  guard _ _ hne := absurd rfl hne
  written id _ i hi := by cases hi
  copying h := by cases h
  before _ _ := rfl
  copied h := by cases h

theorem life_inv {ev : LifeEv} (h : Inv n w) (hC : CleanStart w ev w') (hst : Life n w ev w') : Inv n w' := by
  unfold Life Takes lifeStep at hst
  split at hst
  · exact step_inv h hst
  · obtain rfl := Option.some.inj hst
    exact inv_killLeader h
  · obtain rfl := Option.some.inj hst
    exact inv_killFollower h
  · rename_i rand
    split_ifs at hst
    obtain rfl := Option.some.inj hst
    exact inv_start h.sizes hC rand

theorem Inv.freshCopy (h : Inv n w) : FreshCopy n w := fun hc => h.delivered (by rw [hc]; rfl)

end Clean

/-! ## Stale starts -/

/-- an object is empty, or it has its full size -/
def Sized (n : ℕ) (w : World) : Prop := ∀ id, w.objs id = Shm.empty ∨ (w.objs id).size = sizeofSharedData n

section Stale

variable {n : ℕ} {w w' : World}

theorem sized_congr (h : Sized n w) (hobj : ∀ id, w'.objs id = w.objs id ∨ w'.objs id = Shm.empty ∨
    (w'.objs id).size = sizeofSharedData n) : Sized n w' := by
  intro id
  rcases hobj id with ho | ho | ho
  · rw [ho]
    exact h id
  · exact Or.inl ho
  · exact Or.inr ho

theorem sized_storeAt (h : Sized n w) {m : Mapping} {off id : ℕ} {v : Word} (ha : w.access m off 4 = some id) :
    Sized n (w.storeAt id off v) := by
  refine sized_congr h fun id' => ?_
  by_cases hid : id' = id
  · subst hid
    rcases h id' with he | hs
    · have hsz := (access_eq_some.1 ha).2
      rw [he] at hsz
      simp [Shm.empty] at hsz
    · exact Or.inr (Or.inr (by rw [storeAt_size]; exact hs))
  · exact Or.inl (by simp [World.storeAt, Function.update_of_ne hid])

theorem sized_leaderStep {ans : Answer} (h : Sized n w) (hst : leaderStep n w ans = some w') : Sized n w' := by
  cases leaderStep_moves hst with
  | shmOpen =>
    obtain ⟨-, hobj, -⟩ := shmOpenCreate_spec w ans
    exact sized_congr h fun id => (hobj id).imp_right Or.inl
  | ftruncate =>
    obtain ⟨-, -, -, hobj⟩ := ftruncate_spec w w.leader.fd (sizeofSharedData n) ans
    refine sized_congr h fun id => (hobj id).imp_right fun ho => Or.inr ?_
    rw [leaderTo_objs, ho]
    rfl
  | copy _ _ ha => exact sized_storeAt h ha
  | notify _ ha => exact sized_storeAt h ha
  | mmap | test | fault | spin | writeSet | fill | copied | deleteSet | close => exact h

theorem sized_followerStep {ans : Answer} {byte : Option ℕ} (h : Sized n w)
    (hst : followerStep n w ans byte = some w') : Sized n w' := by
  cases followerStep_moves hst with
  | setWrite _ ha => exact sized_storeAt h ha
  | setDelete _ ha => exact sized_storeAt h ha
  | shmOpen | mmap | test | fault | spin | readSet | byte | copied | shmUnlink => exact h

theorem sized_life {ev : LifeEv} (h : Sized n w) (hst : Life n w ev w') : Sized n w' := by
  unfold Life Takes lifeStep at hst
  split at hst
  · unfold progStep at hst
    split at hst
    · split_ifs at hst
      exact sized_leaderStep h hst
    · split_ifs at hst
      exact sized_followerStep h hst
  · obtain rfl := Option.some.inj hst
    exact h
  · obtain rfl := Option.some.inj hst
    exact h
  · split_ifs at hst
    obtain rfl := Option.some.inj hst
    exact h

/-- the follower is in `memcpy` of an object of full size, it has copied the bytes below `k`, and the leader has not
taken a step -/
structure AtCopy (n k : ℕ) (w : World) : Prop where
  alive : w.follower.alive = true
  pc : w.follower.pc = .memcpy
  mapped : ∃ base id, w.follower.mapping = .object base id ∧ (w.objs id).size = sizeofSharedData n
  copied : ∀ j < k, w.follower.copied j = true
  leader : w.leader.pc = .shmOpen

/-- a step of the follower, in `memcpy` of byte `j` -/
def copyByte (byte : Option ℕ) : LifeEv := .prog (.follower (some 0) byte)

theorem life_copyByte {byte : Option ℕ} (ha : w.follower.alive = true)
    (hst : followerStep n w (some 0) byte = some w') : Life n w (copyByte byte) w' := by
  unfold Life Takes lifeStep copyByte progStep
  rw [← hst]
  exact if_pos ha

theorem followerStep_memcpy {ans : Answer} {byte : Option ℕ} (h : w.follower.pc = .memcpy) :
    followerStep n w ans byte = w.memcpy n byte := by
  unfold followerStep
  rw [h]

theorem atCopy_step {k : ℕ} (h : AtCopy n k w) (hk : k < 4 * n) :
    ∃ w', Life n w (copyByte (some k)) w' ∧ AtCopy n (k + 1) w' := by
  obtain ⟨base, id, hm, hs⟩ := h.mapped
  have hacc : w.access w.follower.mapping (12 + k) 1 = some id := by
    refine access_eq_some.2 ⟨by rw [hm]; rfl, ?_⟩
    rw [hs]
    simp only [sizeofSharedData, offData, offDeleteGuard, offReadGuard, offWriteGuard]
    omega
  refine ⟨{ w with follower := { w.follower with
      arr := Function.update w.follower.arr k ((w.objs id).mem (12 + k))
      copied := Function.update w.follower.copied k true } }, life_copyByte h.alive ?_, ?_⟩
  · rw [followerStep_memcpy h.pc]
    unfold World.memcpy
    simp only [if_pos hk, hacc]
  · refine ⟨h.alive, h.pc, ⟨base, id, hm, hs⟩, fun j hj => ?_, h.leader⟩
    by_cases hjk : j = k
    · subst hjk
      exact Function.update_self _ _ _
    · exact (Function.update_of_ne hjk _ _).trans (h.copied j (by omega))

theorem atCopy_run (h : AtCopy n 0 w) (k : ℕ) (hk : k ≤ 4 * n) :
    ∃ w', Run (Life n) w ((List.range k).map fun j => copyByte (some j)) w' ∧ AtCopy n k w' := by
  induction k with
  | zero => exact ⟨w, .nil w, h⟩
  | succ k ih =>
    obtain ⟨u, hu, hc⟩ := ih (by omega)
    obtain ⟨v, hv, hc'⟩ := atCopy_step hc (by omega)
    refine ⟨v, ?_, hc'⟩
    rw [List.range_succ, List.map_append, run_append_iff]
    exact ⟨u, hu, .cons hv (.nil v)⟩

/-- from there the follower completes by itself -/
theorem atCopy_completes (h : AtCopy n 0 w) :
    ∃ l w', Run (Life n) w l w' ∧ w'.follower.pc = .returned 0 ∧ w'.leader.pc = .shmOpen := by
  obtain ⟨u, hu, hc⟩ := atCopy_run h (4 * n) le_rfl
  obtain ⟨base, id, hm, hs⟩ := hc.mapped
  have hall : (List.range (4 * n)).all u.follower.copied = true :=
    List.all_eq_true.2 fun j hj => hc.copied j (List.mem_range.1 hj)
  have h1 : Life n u (copyByte none) (u.followerTo .shmUnlink) :=
    life_copyByte hc.alive ((followerStep_memcpy hc.pc).trans (if_pos hall))
  have h2 : Life n (u.followerTo .shmUnlink) (copyByte none) ((u.followerTo .shmUnlink).shmUnlink.followerTo .setDelete) :=
    life_copyByte hc.alive rfl
  have hacc : ((u.followerTo .shmUnlink).shmUnlink.followerTo .setDelete).access u.follower.mapping offDeleteGuard 4 =
      some id := by
    refine access_eq_some.2 ⟨by rw [hm]; rfl, ?_⟩
    show offDeleteGuard + 4 ≤ (u.objs id).size
    rw [hs]
    exact Nat.le_add_right _ _
  have h3 : Life n ((u.followerTo .shmUnlink).shmUnlink.followerTo .setDelete) (copyByte none)
      ((((u.followerTo .shmUnlink).shmUnlink.followerTo .setDelete).storeAt id offDeleteGuard 1).followerTo
        (.returned 0)) := by
    refine life_copyByte hc.alive ?_
    show some (World.followerStore _ offDeleteGuard 1 (.returned 0)) = _
    unfold World.followerStore
    rw [show ((u.followerTo .shmUnlink).shmUnlink.followerTo .setDelete).follower.mapping = u.follower.mapping from rfl,
      hacc]
  exact ⟨_, _, run_append_iff.2 ⟨u, hu, .cons h1 (.cons h2 (.cons h3 (.nil _)))⟩, rfl, hc.leader⟩

/-- a start with a `read_guard` that is set: the follower gets into `memcpy` by itself -/
theorem stale_atCopy (h : Sized n w) {id : ℕ} (hname : w.name = some id) (hg : w.word id offReadGuard ≠ 0)
    (hf : w.follower = startFollower) (hl : w.leader.pc = .shmOpen) :
    ∃ l w', Run (Life n) w l w' ∧ AtCopy n 0 w' := by
  have hs : (w.objs id).size = sizeofSharedData n := by
    refine (h id).resolve_left fun he => hg ?_
    rw [World.word, he]
    rfl
  -- it opens and maps the object, and the test lets it pass
  set w₁ : World := { w with follower := ⟨.mmap, some id, .failed, fun _ => 0, fun _ => false, true⟩ }
  set w₂ : World := { w with follower := ⟨.test, some id, .object 0 id, fun _ => 0, fun _ => false, true⟩ }
  set u : World := { w with follower := ⟨.setWrite, some id, .object 0 id, fun _ => 0, fun _ => false, true⟩ }
  have h1 : Life n w (copyByte none) w₁ := by
    refine life_copyByte (by rw [hf]; rfl) ?_
    simp only [followerStep, hf, startFollower, World.shmOpen, hname, w₁]
  have h2 : Life n w₁ (copyByte none) w₂ := life_copyByte rfl rfl
  have h3 : Life n w₂ (copyByte none) u := by
    refine life_copyByte rfl ?_
    simp only [followerStep, ltZero_eq_false, Bool.false_eq_true, if_false, World.followerTo, w₂, u]
  have access : ∀ (v : World) off, v.follower.mapping = .object 0 id → (v.objs id).size = sizeofSharedData n →
      off + 4 ≤ offData → v.access v.follower.mapping off 4 = some id := by
    intro v off hm hsz hoff
    refine access_eq_some.2 ⟨by rw [hm]; rfl, ?_⟩
    rw [hsz]
    exact hoff.trans (Nat.le_add_right _ _)
  set v : World := (u.storeAt id offWriteGuard 1).followerTo .waitRead
  have hvs : (v.objs id).size = sizeofSharedData n := by
    rw [followerTo_objs, storeAt_size]
    exact hs
  have hv : Life n u (copyByte none) v := by
    refine life_copyByte rfl ?_
    show some (u.followerStore offWriteGuard 1 .waitRead) = some v
    unfold World.followerStore
    rw [access u offWriteGuard rfl hs (by decide)]
  have hread : Life n v (copyByte none) (v.followerTo .memcpy) := by
    refine life_copyByte rfl ?_
    have hne : v.word id offReadGuard ≠ 0 := by
      rw [followerTo_word, word_storeAt (Or.inr (by decide))]
      exact hg
    have hpc : v.follower.pc = .waitRead := rfl
    simp only [followerStep, hpc, access v offReadGuard rfl hvs (by decide), if_neg hne]
  refine ⟨_, v.followerTo .memcpy, .cons h1 (.cons h2 (.cons h3 (.cons hv (.cons hread (.nil _))))), ?_⟩
  exact ⟨rfl, rfl, ⟨0, id, rfl, hvs⟩, fun j hj => absurd hj (Nat.not_lt_zero j), hl⟩

end Stale

/-! ## Results -/

/-- **A restart hands over fresh data when the guard has been reset.** -/
theorem restart_fresh_if_reset (n : ℕ) :
    (∀ l w, Along (Life n) CleanStart idle l → Run (Life n) idle l w → FreshCopy n w) ∧
    ∀ l w rand w', Run (Life n) idle l w → Life n w (.start rand) w' → ¬ CleanStart w (.start rand) w' →
      ∃ k t, Run (Life n) w' k t ∧ ¬ FreshCopy n t := by
  refine ⟨fun l w hC hr => ?_, fun l w rand w' hr hst hv => ?_⟩
  · have hI : Inv n w := Along.inv (I := Inv n) (fun _ _ _ h hc hst => life_inv h hc hst) hC hr (inv_idle n)
    exact hI.freshCopy
  · have hs : Sized n w := Run.inv (I := Sized n) (fun _ _ _ h hst => sized_life h hst) hr fun _ => Or.inl rfl
    simp only [CleanStart] at hv
    push Not at hv
    obtain ⟨id, hname, hg⟩ := hv
    have hw' : w' = { w with leader := startLeader rand, follower := startFollower } := by
      unfold Life Takes lifeStep at hst
      split_ifs at hst
      exact (Option.some.inj hst).symm
    subst hw'
    obtain ⟨l₁, u, hu, hc⟩ := stale_atCopy (n := n) (w := { w with leader := startLeader rand, follower := startFollower })
      hs hname hg rfl rfl
    obtain ⟨l₂, t, ht, hf, hl⟩ := atCopy_completes hc
    refine ⟨l₁ ++ l₂, t, run_append_iff.2 ⟨u, hu, ht⟩, fun hfresh => ?_⟩
    have hn := (hfresh hf).1
    rw [hl] at hn
    cases hn

/-- both programs up to their first loops -/
def startUp : List Ev := leaderSteps 4 ++ followerSteps 4

/-- the follower from its loop over `read_guard` to its end, with one element -/
def receive : List Ev :=
  followerSteps 1 ++ [0, 1, 2, 3].map (fun j => .follower (some 0) (some j)) ++ followerSteps 3

/-- a start, some steps, and then nobody is left -/
def cutShort (rand : ℕ → Word) (l : List Ev) : List LifeEv := .start rand :: l.map .prog ++ [.killLeader, .killFollower]

/-- a run in which the leader is killed in the middle of its array, and then a whole one -/
def cutInCopy : List LifeEv :=
  cutShort (fun _ => 7) (startUp ++ leaderSteps 3) ++
    .start (fun _ => 9) :: (startUp ++ leaderSteps 5 ++ receive).map .prog

theorem restart_fresh_after_cut :
    ∃ w, Run (Life 1) idle cutInCopy w ∧ w.follower.pc = .returned 0 ∧ load w.follower.arr 0 = 9 ∧ FreshCopy 1 w := by
  have hobs : (cutInCopy.foldlM (lifeStep 1) idle).map
      (fun w : World => (w.follower.pc, load w.follower.arr 0)) = some (.returned 0, 9) := by rfl
  obtain ⟨w, hw, ho⟩ := Option.map_eq_some_iff.1 hobs
  obtain ⟨hf, harr⟩ := Prod.mk.inj ho
  have hr := run_takes_iff.2 hw
  exact ⟨w, hr, hf, harr, (restart_fresh_if_reset 1).1 _ w (by decide) hr⟩

/-- a run in which both are killed when the leader has notified, and then only the follower gets to run -/
def cutAfterNotify : List LifeEv :=
  cutShort (fun _ => 7) (startUp ++ leaderSteps 5) ++ .start (fun _ => 7) :: (followerSteps 4 ++ receive).map .prog

/-- **A stale hand-over.** The follower completes with the element of the earlier run, when the leader of its own run
has not taken a step. -/
theorem restart_stale :
    ∃ w, Run (Life 1) idle cutAfterNotify w ∧ w.follower.pc = .returned 0 ∧ load w.follower.arr 0 = 7 ∧
      w.leader.pc = .shmOpen ∧ ¬ FreshCopy 1 w := by
  have hobs : (cutAfterNotify.foldlM (lifeStep 1) idle).map
      (fun w : World => (w.follower.pc, load w.follower.arr 0, w.leader.pc)) = some (.returned 0, 7, .shmOpen) := by
    rfl
  obtain ⟨w, hw, ho⟩ := Option.map_eq_some_iff.1 hobs
  simp only [Prod.mk.injEq] at ho
  obtain ⟨hf, harr, hl⟩ := ho
  refine ⟨w, run_takes_iff.2 hw, hf, harr, hl, fun hfresh => ?_⟩
  have hn := (hfresh hf).1
  rw [hl] at hn
  cases hn

end Cse422.Handover
