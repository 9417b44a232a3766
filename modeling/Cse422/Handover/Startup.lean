/-
Starting up. `mapping < 0` compares addresses and never holds, `MAP_FAILED` included, and the results of `shm_open`
and `ftruncate` are not looked at; so a program whose call has failed goes on to access its mapping.

- `startup_safe_in_order`: in every interleaving from the start in which the kernel refuses no call, the follower
  opens the object after the leader has, and the follower writes `write_guard` after the leader's `ftruncate`, every
  access is of a mapped object of full size; and from every step that is not so, the programs can go on to an access
  that is not;
- `startup_faults`: a follower that starts first, and one that comes between `shm_open` and `ftruncate`.
-/
import Cse422.Handover.Delivery

namespace Cse422.Handover

open Lts Words

/-! ## The property and the condition -/

/-- the mapping that a step accesses -/
def accessed (n : ℕ) (w : World) : Ev → Option Mapping
  | .leader _ =>
    match w.leader.pc with
    | .waitWrite | .notify | .waitDelete => some w.leader.mapping
    | .copy i => if i < n then some w.leader.mapping else none
    | _ => none
  | .follower _ byte =>
    match w.follower.pc with
    | .setWrite | .waitRead | .setDelete => some w.follower.mapping
    | .memcpy => byte.map fun _ => w.follower.mapping
    | _ => none

/-- `shm_open` and `mmap` have succeeded, and the object has the size of `shared_data` -/
def Backed (n : ℕ) (w : World) (m : Mapping) : Prop := ∃ id, m.id? = some id ∧ sizeofSharedData n ≤ (w.objs id).size

/-- a program whose mapping has failed leaves with its error return -/
def ErrorExit (w : World) (ev : Ev) (w' : World) : Prop :=
  match ev with
  | .leader _ => w.leader.pc = .test → w.leader.mapping.id? = none → w'.leader.pc = .returned (-1)
  | .follower _ _ => w.follower.pc = .test → w.follower.mapping.id? = none → w'.follower.pc = .returned (-1)

def SafeStep (n : ℕ) (w : World) (ev : Ev) (w' : World) : Prop :=
  (∀ m ∈ accessed n w ev, Backed n w m) ∧ ErrorExit w ev w'

/-- no call is refused, the follower opens the object when there is one, and writes `write_guard` when the leader is
past `ftruncate` -/
def InOrder (w : World) (ev : Ev) (_ : World) : Prop :=
  match ev with
  | .leader ans => w.leader.pc.mapped = false → ans ≠ none
  | .follower ans _ => (w.follower.pc.mapped = false → ans ≠ none) ∧ (w.follower.pc = .shmOpen → w.name ≠ none) ∧
      (w.follower.pc = .setWrite → w.leader.pc.opened = true)

instance (w : World) (ev : Ev) (w' : World) : Decidable (InOrder w ev w') := by
  unfold InOrder; split <;> infer_instance

/-! ## In order -/

/-- what the calls have left, when none is refused and the leader goes first -/
structure Ready (n : ℕ) (w : World) : Prop where
  closed : w.leader.pc = .shmOpen → w.next = 0 ∧ w.name = none
  name : ∀ id ∈ w.name, id = 0
  fd : w.leader.pc = .ftruncate ∨ w.leader.pc = .mmap → w.leader.fd = some 0
  leaderMap : w.leader.pc.mapped → w.leader.mapping.id? = some 0
  sized : w.leader.pc.opened → (w.objs 0).size = sizeofSharedData n
  followerFd : w.follower.pc = .mmap → w.follower.fd = some 0
  followerMap : w.follower.pc.mapped → w.follower.mapping.id? = some 0
  within : w.follower.pc.within → w.leader.pc.opened

section Order

variable {n : ℕ} {w w' : World}

theorem ready_leaderStep {ans : Answer} (h : Ready n w) (hC : w.leader.pc.mapped = false → ans ≠ none)
    (hst : leaderStep n w ans = some w') : Ready n w' := by
  by_cases hopen : w.leader.pc = .shmOpen
  · obtain ⟨base, rfl⟩ := Option.ne_none_iff_exists'.1 (hC (by rw [hopen]; rfl))
    obtain ⟨hnext, hname⟩ := h.closed hopen
    simp only [leaderStep, hopen, World.shmOpenCreate, hname, hnext, Option.some.injEq] at hst
    subst hst
    refine ⟨by simp, fun id hid => (Option.some.inj hid).symm, fun _ => rfl, by simp [LeaderPc.mapped],
      by simp [LeaderPc.opened], h.followerFd, h.followerMap, fun hw => ?_⟩
    have hop := h.within hw
    rw [hopen] at hop
    cases hop
  by_cases htrunc : w.leader.pc = .ftruncate
  · obtain ⟨base, rfl⟩ := Option.ne_none_iff_exists'.1 (hC (by rw [htrunc]; rfl))
    have hfd := h.fd (Or.inl htrunc)
    simp only [leaderStep, htrunc, World.ftruncate, hfd, Option.some.injEq] at hst
    subst hst
    refine ⟨by simp [World.leaderTo], h.name, fun _ => hfd, by simp [World.leaderTo, LeaderPc.mapped], fun _ => ?_,
      h.followerFd, h.followerMap, fun _ => rfl⟩
    simp [Shm.resize]
  have ho : w.leader.pc.opened = true := by
    cases hpc : w.leader.pc <;> simp_all [LeaderPc.opened]
  have hL := leader_effect ho hst
  refine ⟨fun hx => ?_, by rw [hL.name]; exact h.name, fun hx => ?_, fun hm => ?_, fun _ => ?_, ?_, ?_, fun _ => hL.opened⟩
  · have hm := hL.mapped
    rw [hx] at hm
    cases hm
  · have hm := hL.mapped
    rcases hx with hx | hx <;> rw [hx] at hm <;> cases hm
  · by_cases hmm : w.leader.pc = .mmap
    · obtain ⟨base, rfl⟩ := Option.ne_none_iff_exists'.1 (hC (by rw [hmm]; rfl))
      have hfd := h.fd (Or.inr hmm)
      simp only [leaderStep, hmm, hfd, Option.some.injEq] at hst
      subst hst
      rfl
    · rw [hL.mapping hmm]
      apply h.leaderMap
      cases hpc : w.leader.pc <;> simp_all [LeaderPc.mapped]
  · rw [hL.sizes]
    exact h.sized ho
  · rw [hL.follower]
    exact h.followerFd
  · rw [hL.follower]
    exact h.followerMap

theorem ready_followerStep {ans : Answer} {byte : Option ℕ} (h : Ready n w)
    (hC : InOrder w (.follower ans byte) w') (hst : followerStep n w ans byte = some w') : Ready n w' := by
  obtain ⟨hans, hthere, hsized⟩ := hC
  have hF := follower_effect hst
  refine ⟨fun hx => ?_, fun id hid => ?_, ?_, ?_, fun ho => ?_, fun hx => ?_, fun hm => ?_, fun hw => ?_⟩
  · rw [hF.leader] at hx
    obtain ⟨hnext, hname⟩ := h.closed hx
    exact ⟨hF.next.trans hnext, hF.name.elim (fun hn => hn.trans hname) id⟩
  · rcases hF.name with hn | hn
    · exact h.name id (hn ▸ hid)
    · rw [hn] at hid
      cases hid
  · rw [hF.leader]
    exact h.fd
  · rw [hF.leader]
    exact h.leaderMap
  · rw [hF.leader] at ho
    rw [hF.sizes]
    exact h.sized ho
  · -- only `shm_open` leads to `mmap`
    have hopen : w.follower.pc = .shmOpen := by
      rcases hF.mapped with hm | ⟨hopen, -⟩
      · rw [hx] at hm
        cases hm
      · exact hopen
    obtain ⟨base, rfl⟩ := Option.ne_none_iff_exists'.1 (hans (by rw [hopen]; rfl))
    obtain ⟨id, hid⟩ := Option.ne_none_iff_exists'.1 (hthere hopen)
    simp only [followerStep, hopen, World.shmOpen, Option.some.injEq] at hst
    subst hst
    rw [← h.name id hid]
    exact hid
  · cases hpc : w.follower.pc with
    | shmOpen =>
      simp only [followerStep, hpc, Option.some.injEq] at hst
      subst hst
      cases hm
    | mmap =>
      obtain ⟨base, rfl⟩ := Option.ne_none_iff_exists'.1 (hans (by rw [hpc]; rfl))
      have hfd := h.followerFd hpc
      simp only [followerStep, hpc, hfd, Option.some.injEq] at hst
      subst hst
      rfl
    | test | setWrite | waitRead | memcpy | shmUnlink | setDelete | returned | faulted =>
      rw [hF.mapping (by simp [hpc])]
      exact h.followerMap (by rw [hpc]; rfl)
  · rw [hF.leader]
    rcases hF.within hw with hw | hset
    · exact h.within hw
    · exact hsized hset

theorem ready_step {ev : Ev} (h : Ready n w) (hC : InOrder w ev w') (hst : Prog n w ev w') : Ready n w' := by
  unfold Prog Takes progStep at hst
  split at hst
  · split_ifs at hst
    exact ready_leaderStep h hC hst
  · split_ifs at hst
    exact ready_followerStep h hC hst

theorem ready_started (n : ℕ) (rand : ℕ → Word) : Ready n (started rand) where
  closed _ := ⟨rfl, rfl⟩
  name id hid := by cases hid
  fd h := by rcases h with h | h <;> cases h
  leaderMap h := by cases h
  sized h := by cases h
  followerFd h := by cases h
  followerMap h := by cases h
  within h := by cases h

theorem Ready.safeStep (h : Ready n w) {ev : Ev} (hC : InOrder w ev w') : SafeStep n w ev w' := by
  have backed : ∀ m : Mapping, m.id? = some 0 → w.leader.pc.opened → Backed n w m :=
    fun m hm ho => ⟨0, hm, (h.sized ho).ge⟩
  cases ev with
  | leader ans =>
    refine ⟨fun m hm => ?_, fun ht hid => ?_⟩
    · have hpc : w.leader.pc.mapped ∧ m = w.leader.mapping := by
        simp only [accessed] at hm
        cases hpc : w.leader.pc <;> simp_all [LeaderPc.mapped]
      rw [hpc.2]
      exact backed _ (h.leaderMap hpc.1) (LeaderPc.mapped_opened hpc.1)
    · rw [h.leaderMap (by rw [ht]; rfl)] at hid
      cases hid
  | follower ans byte =>
    refine ⟨fun m hm => ?_, fun ht hid => ?_⟩
    · have hpc : (w.follower.pc.mapped ∧ m = w.follower.mapping) ∧
          (w.follower.pc.within ∨ w.follower.pc = .setWrite) := by
        simp only [accessed] at hm
        cases hpc : w.follower.pc <;> simp_all [FollowerPc.mapped, FollowerPc.within]
      obtain ⟨⟨hmap, rfl⟩, hin⟩ := hpc
      exact backed _ (h.followerMap hmap) (hin.elim h.within hC.2.2)
    · rw [h.followerMap (by rw [ht]; rfl)] at hid
      cases hid

end Order

/-! ## Out of order -/

section Disorder

variable {n : ℕ} {w w' : World}

/-- before its `ftruncate` the leader has given no object a size -/
def Unsized (w : World) : Prop := w.leader.pc.opened = false → ∀ id, (w.objs id).size = 0

theorem unsized_step {ev : Ev} (h : Unsized w) (hst : Prog n w ev w') : Unsized w' := by
  unfold Prog Takes progStep at hst
  split at hst
  · split_ifs at hst
    intro hno id
    by_cases hopen : w.leader.pc = .shmOpen
    · simp only [leaderStep, hopen, Option.some.injEq] at hst
      subst hst
      rcases (shmOpenCreate_spec w _).2.1 id with ho | ho
      · show (World.objs _ id).size = 0
        rw [ho]
        exact h (by rw [hopen]; rfl) id
      · show (World.objs _ id).size = 0
        rw [ho]
        rfl
    by_cases htrunc : w.leader.pc = .ftruncate
    · simp only [leaderStep, htrunc, Option.some.injEq] at hst
      subst hst
      cases hno
    have ho : w.leader.pc.opened = true := by
      cases hpc : w.leader.pc <;> simp_all [LeaderPc.opened]
    rw [(leader_effect ho hst).opened] at hno
    cases hno
  · split_ifs at hst
    have hF := follower_effect hst
    intro hno id
    rw [hF.leader] at hno
    rw [hF.sizes]
    exact h hno id

theorem not_backed_failed : ¬ Backed n w .failed := by
  rintro ⟨id, hid, -⟩
  cases hid

theorem not_backed_unsized {m : Mapping} (h : ∀ id, (w.objs id).size = 0) : ¬ Backed n w m := by
  rintro ⟨id, -, hs⟩
  rw [h id] at hs
  exact absurd (Nat.le_zero.1 hs) (by simp [sizeofSharedData, offData])

/-- some steps lead from `w` to one that is not safe -/
def Fails (n : ℕ) (w : World) : Prop := ∃ k, ¬ Along (Prog n) (SafeStep n) w k

theorem fails_step {ev : Ev} (hst : Prog n w ev w') (h : Fails n w') : ∃ k, ¬ Along (Prog n) (SafeStep n) w (ev :: k) := by
  obtain ⟨k, hk⟩ := h
  exact ⟨k, fun ha => hk (along_cons.1 ha w' hst).2⟩

theorem fails_of_step {ev : Ev} (hst : Prog n w ev w') (h : ¬ SafeStep n w ev w') :
    ∃ k, ¬ Along (Prog n) (SafeStep n) w (ev :: k) := ⟨[], fun ha => h (along_cons.1 ha w' hst).1⟩

theorem Fails.cons {ev : Ev} (hst : Prog n w ev w') (h : Fails n w') : Fails n w := by
  obtain ⟨k, hk⟩ := fails_step hst h
  exact ⟨ev :: k, hk⟩

theorem prog_leader {ans : Answer} (ha : w.leader.alive = true) (hst : leaderStep n w ans = some w') :
    Prog n w (.leader ans) w' := by
  unfold Prog Takes progStep
  rw [← hst]
  exact if_pos ha

theorem prog_follower {ans : Answer} {byte : Option ℕ} (ha : w.follower.alive = true)
    (hst : followerStep n w ans byte = some w') : Prog n w (.follower ans byte) w' := by
  unfold Prog Takes progStep
  rw [← hst]
  exact if_pos ha

/-- the leader takes no notice of a mapping that has failed, or is of an object without size -/
theorem leader_fails (ha : w.leader.alive = true) (hpc : w.leader.pc = .test) (hb : ¬ Backed n w w.leader.mapping) :
    Fails n w := by
  have h1 : Prog n w (.leader (some 0)) (w.leaderTo .waitWrite) := by
    refine prog_leader ha ?_
    simp only [leaderStep, hpc, ltZero_eq_false, Bool.false_eq_true, if_false]
  have h2 : Prog n (w.leaderTo .waitWrite) (.leader (some 0))
      ((w.leaderTo .waitWrite).leaderWait offWriteGuard .fill) := prog_leader ha rfl
  refine Fails.cons h1 ⟨[.leader (some 0)], fun hal => hb ?_⟩
  exact (along_cons.1 hal _ h2).1.1 _ rfl

/-- nor does the follower of a mapping that has failed -/
theorem follower_fails (ha : w.follower.alive = true) (hpc : w.follower.pc = .test)
    (hm : w.follower.mapping.id? = none) : Fails n w := by
  have h1 : Prog n w (.follower (some 0) none) (w.followerTo .setWrite) := by
    refine prog_follower ha ?_
    simp only [followerStep, hpc, ltZero_eq_false, Bool.false_eq_true, if_false]
  refine ⟨[.follower (some 0) none], fun hal => ?_⟩
  have hexit := (along_cons.1 hal _ h1).1.2 hpc hm
  cases hexit

theorem mmap_none (ans : Answer) : mmap none ans = .failed := by
  unfold mmap
  split <;> rfl

/-- the follower goes on without a descriptor -/
theorem follower_fails_mmap (ha : w.follower.alive = true) (hpc : w.follower.pc = .mmap) (hfd : w.follower.fd = none) :
    Fails n w := by
  have h1 : Prog n w (.follower (some 0) none)
      { w with follower := { w.follower with mapping := .failed, pc := .test } } := by
    refine prog_follower ha ?_
    simp only [followerStep, hpc, hfd, mmap_none]
  exact Fails.cons h1 (follower_fails ha rfl rfl)

theorem leader_disorder (hu : Unsized w) {ans : Answer} (ha : w.leader.alive = true)
    (hst : leaderStep n w ans = some w') (hv : ¬ InOrder w (.leader ans) w') : Fails n w' := by
  have hv' : w.leader.pc.mapped = false ∧ ans = none := by
    simpa only [InOrder, Classical.not_imp, not_not] using hv
  obtain ⟨hmap, rfl⟩ := hv'
  -- from `mmap` on, with a descriptor that is of no use
  have at_mmap : ∀ {v : World}, v.leader.alive = true → v.leader.pc = .mmap →
      (v.leader.fd = none ∨ ∀ id, (v.objs id).size = 0) → Fails n v := by
    intro v hav hpc hfd
    have h1 : Prog n v (.leader (some 0))
        { v with leader := { v.leader with mapping := mmap v.leader.fd (some 0), pc := .test } } := by
      refine prog_leader hav ?_
      simp only [leaderStep, hpc]
    refine Fails.cons h1 (leader_fails hav rfl ?_)
    rcases hfd with hfd | hs
    · rw [hfd, mmap_none]
      exact not_backed_failed
    · exact not_backed_unsized hs
  cases hpc : w.leader.pc with
  | shmOpen =>
    simp only [leaderStep, hpc, World.shmOpenCreate, Option.some.injEq] at hst
    subst hst
    have h1 : Prog n { w with leader := { w.leader with fd := none, pc := .ftruncate } } (.leader (some 0))
        { w with leader := { w.leader with fd := none, pc := .mmap } } := prog_leader ha rfl
    exact Fails.cons h1 (at_mmap ha rfl (Or.inl rfl))
  | ftruncate =>
    simp only [leaderStep, hpc, World.ftruncate, Option.some.injEq] at hst
    subst hst
    exact at_mmap ha rfl (Or.inr (hu (by rw [hpc]; rfl)))
  | mmap =>
    simp only [leaderStep, hpc, mmap, Option.some.injEq] at hst
    subst hst
    exact leader_fails ha rfl not_backed_failed
  | test | waitWrite | fill | copy | notify | waitDelete | close | returned | faulted =>
    rw [hpc] at hmap
    cases hmap

theorem follower_disorder (hu : Unsized w) {ans : Answer} {byte : Option ℕ} (ha : w.follower.alive = true)
    (hst : followerStep n w ans byte = some w') (hv : ¬ InOrder w (.follower ans byte) w') :
    Fails n w' ∨ ¬ SafeStep n w (.follower ans byte) w' := by
  by_cases hset : w.follower.pc = .setWrite ∧ w.leader.pc.opened = false
  · refine Or.inr fun hs => ?_
    have hacc : w.follower.mapping ∈ accessed n w (.follower ans byte) := by simp [accessed, hset.1]
    exact not_backed_unsized (hu hset.2) (hs.1 _ hacc)
  refine Or.inl ?_
  cases hpc : w.follower.pc with
  | shmOpen =>
    have hfd : w.shmOpen ans = none := by
      unfold World.shmOpen
      split
      · rfl
      · by_contra hname
        exact hv ⟨fun _ => by simp, fun _ => hname, by simp [hpc]⟩
    simp only [followerStep, hpc, hfd, Option.some.injEq] at hst
    subst hst
    exact follower_fails_mmap ha rfl rfl
  | mmap =>
    have hans : ans = none := by
      by_contra hne
      exact hv ⟨fun _ => hne, by simp [hpc], by simp [hpc]⟩
    subst hans
    simp only [followerStep, hpc, mmap, Option.some.injEq] at hst
    subst hst
    exact follower_fails ha rfl rfl
  | setWrite =>
    refine absurd ⟨fun hm => ?_, by simp [hpc], fun _ => ?_⟩ hv
    · rw [hpc] at hm
      cases hm
    · simpa [hpc] using hset
  | test | waitRead | memcpy | shmUnlink | setDelete | returned | faulted =>
    refine absurd ⟨fun hm => ?_, by simp [hpc], by simp [hpc]⟩ hv
    rw [hpc] at hm
    cases hm

end Disorder

/-! ## Results -/

/-- **Starting up is safe in order.** -/
theorem startup_safe_in_order (n : ℕ) (rand : ℕ → Word) :
    (∀ l, Along (Prog n) InOrder (started rand) l → Along (Prog n) (SafeStep n) (started rand) l) ∧
    ∀ l w ev w', Run (Prog n) (started rand) l w → Prog n w ev w' → ¬ InOrder w ev w' →
      ∃ k, ¬ Along (Prog n) (SafeStep n) (started rand) (l ++ ev :: k) := by
  refine ⟨fun l hC => ?_, fun l w ev w' hr hst hv => ?_⟩
  · exact Along.mono (I := Ready n) (fun _ _ _ h hc hst => ready_step h hc hst) (fun _ _ _ h hc _ => h.safeStep hc) hC
      (ready_started n rand)
  · have hu : Unsized w := Run.inv (I := Unsized) (fun _ _ _ h hst => unsized_step h hst) hr fun _ _ => rfl
    have hfails : ∃ k, ¬ Along (Prog n) (SafeStep n) w (ev :: k) := by
      have hst' := hst
      unfold Prog Takes progStep at hst'
      split at hst'
      · split_ifs at hst' with ha
        exact fails_step hst (leader_disorder hu ha hst' hv)
      · split_ifs at hst' with ha
        rcases follower_disorder hu ha hst' hv with hf | hs
        · exact fails_step hst hf
        · exact fails_of_step hst hs
    obtain ⟨k, hk⟩ := hfails
    exact ⟨k, fun h => hk (h.append_right hr)⟩

/-- the leader up to its wait for the follower, the follower, and the hand-over of an element -/
theorem startup_safe_leader_first :
    Along (Prog 1) (SafeStep 1) (started fun _ => 7) (leaderSteps 4 ++ followerSteps 4 ++ leaderSteps 5) :=
  (startup_safe_in_order 1 fun _ => 7).1 _ (by decide)

/-- **A follower that comes too early.** It writes through `MAP_FAILED` when it comes before the leader, and past the
end of an object of size 0 when it comes between the leader's `shm_open` and `ftruncate`. -/
theorem startup_faults :
    ¬ Along (Prog shareSize) (SafeStep shareSize) (started fun _ => 7) (followerSteps 4) ∧
    (∃ w, Run (Prog shareSize) (started fun _ => 7) (followerSteps 4) w ∧ w.follower.pc = .faulted ∧
      w.follower.mapping.addr = BitVec.allOnes 64) ∧
    ∃ w, Run (Prog shareSize) (started fun _ => 7) (leaderSteps 1 ++ followerSteps 4) w ∧
      w.follower.pc = .faulted := by
  refine ⟨fun h => ?_, ?_, ?_⟩
  · have hobs : ((followerSteps 2).foldlM (progStep shareSize) (started fun _ => 7)).map (fun u : World =>
        (u.follower.pc, u.follower.mapping.id?, (progStep shareSize u (.follower (some 0) none)).map
          fun v : World => v.follower.pc)) = some (.test, none, some .setWrite) := by rfl
    obtain ⟨u, hu, ho⟩ := Option.map_eq_some_iff.1 hobs
    simp only [Prod.mk.injEq] at ho
    obtain ⟨hpc, hm, hv⟩ := ho
    obtain ⟨v, hst, hv⟩ := Option.map_eq_some_iff.1 hv
    have hexit := (h (followerSteps 2) _ (followerSteps 1) u v rfl (run_takes_iff.2 hu) hst).2 hpc hm
    rw [hv] at hexit
    cases hexit
  · have hobs : ((followerSteps 4).foldlM (progStep shareSize) (started fun _ => 7)).map (fun w : World =>
        (w.follower.pc, w.follower.mapping.addr)) = some (.faulted, BitVec.allOnes 64) := by rfl
    obtain ⟨w, hw, ho⟩ := Option.map_eq_some_iff.1 hobs
    exact ⟨w, run_takes_iff.2 hw, Prod.mk.inj ho⟩
  · have hobs : ((leaderSteps 1 ++ followerSteps 4).foldlM (progStep shareSize) (started fun _ => 7)).map
        (fun w : World => w.follower.pc) = some .faulted := by rfl
    obtain ⟨w, hw, ho⟩ := Option.map_eq_some_iff.1 hobs
    exact ⟨w, run_takes_iff.2 hw, ho⟩

end Cse422.Handover
