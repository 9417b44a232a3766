/-
Liveness of the hand-over: on a new object that both programs have mapped, they both get to their ends.

A step that waits leaves the world as it is, and a `memcpy` that copies a byte again copies nothing new. Every other step
is progress, and it counts down what is left (`World.left`).

- `live_leaderStep`, `live_followerStep`: no step faults or returns an error, and each is progress or changes nothing
  that counts;
- `leader_progress`, `follower_progress`: a program that does not wait for a guard can make progress;
- `ready_leader`, `ready_follower`: neither program can take that away from the other again;
- `handover_completes`: in every interleaving there are at most `5 * n + 13` steps of progress; while a program has not
  returned, one of the two can make progress; and from every state that is reached both can be run to their ends, with
  the array delivered and the object unlinked.
-/
import Cse422.Handover.Delivery

namespace Cse422.Handover

open Lts Words

/-! ## What is left -/

def LeaderPc.left (n : ℕ) : LeaderPc → ℕ
  | .test => n + 7
  | .waitWrite => n + 6
  | .fill => n + 5
  | .copy i => n - i + 4
  | .notify => 3
  | .waitDelete => 2
  | .close => 1
  | _ => 0

/-- the bytes that `memcpy` has still to copy -/
def uncopied (n : ℕ) (copied : ℕ → Bool) : Finset ℕ := (Finset.range (4 * n)).filter fun j => copied j = false

def Follower.left (n : ℕ) (p : Follower) : ℕ :=
  match p.pc with
  | .test => 4 * n + 6
  | .setWrite => 4 * n + 5
  | .waitRead => 4 * n + 4
  | .memcpy => (uncopied n p.copied).card + 3
  | .shmUnlink => 2
  | .setDelete => 1
  | _ => 0

/-- the steps of progress that are left -/
def World.left (n : ℕ) (w : World) : ℕ := w.leader.pc.left n + w.follower.left n

theorem uncopied_none {n : ℕ} {copied : ℕ → Bool} (h : ∀ j, copied j = false) : (uncopied n copied).card = 4 * n := by
  simp [uncopied, h]

theorem uncopied_update {n j : ℕ} {copied : ℕ → Bool} :
    uncopied n (Function.update copied j true) = (uncopied n copied).erase j := by
  ext k
  simp only [uncopied, Finset.mem_filter, Finset.mem_erase]
  by_cases hk : k = j
  · subst hk
    simp
  · simp [hk]

/-! ## The invariant -/

/-- the places of a leader that goes on without an error -/
def LeaderPc.fine (n : ℕ) : LeaderPc → Prop
  | .test | .waitWrite | .fill | .notify | .waitDelete | .close => True
  | .copy i => i ≤ n
  | .returned status => status = 0
  | .shmOpen | .ftruncate | .mmap | .faulted => False

def FollowerPc.fine : FollowerPc → Prop
  | .test | .setWrite | .waitRead | .memcpy | .shmUnlink | .setDelete => True
  | .returned status => status = 0
  | .shmOpen | .mmap | .faulted => False

/-- the follower has set `write_guard` -/
def FollowerPc.wrote : FollowerPc → Bool
  | .waitRead | .memcpy | .shmUnlink | .setDelete | .returned _ => true
  | _ => false

/-- both programs work on the object 0, which has its full size, and the guards that they have set are set -/
structure Live (n : ℕ) (w : World) : Prop where
  leaderAlive : w.leader.alive = true
  followerAlive : w.follower.alive = true
  leaderMap : w.leader.mapping.id? = some 0
  followerMap : w.follower.mapping.id? = some 0
  size : (w.objs 0).size = sizeofSharedData n
  leaderFine : w.leader.pc.fine n
  followerFine : w.follower.pc.fine
  wrote : w.follower.pc.wrote → w.word 0 offWriteGuard ≠ 0
  notified : w.leader.pc.notified → w.word 0 offReadGuard ≠ 0
  deleted : w.follower.pc = .returned 0 → w.word 0 offDeleteGuard ≠ 0
  fresh : w.follower.pc.before → ∀ j, w.follower.copied j = false

theorem live_bothMapped (n : ℕ) (rand : ℕ → Word) (bl bf : BitVec 64) : Live n (bothMapped n rand bl bf) where
  leaderAlive := rfl
  followerAlive := rfl
  leaderMap := rfl
  followerMap := rfl
  size := rfl
  leaderFine := trivial
  followerFine := trivial
  wrote h := by cases h
  notified h := by cases h
  deleted h := by cases h
  fresh _ _ := rfl

section Steps

variable {n : ℕ} {w w' : World} {ans : Answer} {byte : Option ℕ}

theorem Live.leader_access (h : Live n w) {off len : ℕ} (hoff : off + len ≤ sizeofSharedData n) :
    w.access w.leader.mapping off len = some 0 := access_eq_some.2 ⟨h.leaderMap, h.size ▸ hoff⟩

theorem Live.follower_access (h : Live n w) {off len : ℕ} (hoff : off + len ≤ sizeofSharedData n) :
    w.access w.follower.mapping off len = some 0 := access_eq_some.2 ⟨h.followerMap, h.size ▸ hoff⟩

/-- the guards lie in front of the data -/
theorem guards_lt (n : ℕ) : offWriteGuard + 4 ≤ sizeofSharedData n ∧ offReadGuard + 4 ≤ sizeofSharedData n ∧
    offDeleteGuard + 4 ≤ sizeofSharedData n := by
  simp only [sizeofSharedData, offData, offDeleteGuard, offReadGuard, offWriteGuard]
  omega

theorem Live.leaderTo (h : Live n w) {pc : LeaderPc} (hfine : pc.fine n) (hn : pc.notified → w.leader.pc.notified) :
    Live n (w.leaderTo pc) :=
  ⟨h.leaderAlive, h.followerAlive, h.leaderMap, h.followerMap, h.size, hfine, h.followerFine, h.wrote,
    fun hpc => h.notified (hn hpc), h.deleted, h.fresh⟩

theorem Live.followerTo (h : Live n w) {pc : FollowerPc} (hfine : pc.fine) (hw : pc.wrote → w.follower.pc.wrote)
    (hd : pc ≠ .returned 0) (hb : pc.before → w.follower.pc.before) : Live n (w.followerTo pc) :=
  ⟨h.leaderAlive, h.followerAlive, h.leaderMap, h.followerMap, h.size, h.leaderFine, hfine, fun hpc => h.wrote (hw hpc),
    h.notified, fun hpc => absurd hpc hd, fun hpc => h.fresh (hb hpc)⟩

/-- a store of something else than 0 sets no guard back -/
theorem word_store_ne {off g : ℕ} {v : Word} (hv : v ≠ 0) (hoff : off = g ∨ off + 4 ≤ g ∨ g + 4 ≤ off)
    (h : w.word 0 g ≠ 0) : (w.storeAt 0 off v).word 0 g ≠ 0 := by
  obtain rfl | hoff := hoff
  · rwa [word_storeAt_self]
  · rwa [word_storeAt hoff.symm]

/-- a store of the leader into its data -/
theorem Live.storeData (h : Live n w) {i : ℕ} (v : Word) : Live n (w.storeAt 0 (offData + 4 * i) v) := by
  have hguard : ∀ g, g + 4 ≤ offData → (w.storeAt 0 (offData + 4 * i) v).word 0 g = w.word 0 g :=
    fun g hg => word_storeAt (Or.inl (hg.trans (Nat.le_add_right _ _)))
  refine ⟨h.leaderAlive, h.followerAlive, h.leaderMap, h.followerMap, ?_, h.leaderFine, h.followerFine, fun hpc => ?_,
    fun hpc => ?_, fun hpc => ?_, h.fresh⟩
  · rw [storeAt_size]
    exact h.size
  · rw [hguard _ (by decide)]
    exact h.wrote hpc
  · rw [hguard _ (by decide)]
    exact h.notified hpc
  · rw [hguard _ (by decide)]
    exact h.deleted hpc

/-- a guard is set -/
theorem Live.storeGuard (h : Live n w) {off : ℕ}
    (hoff : off = offWriteGuard ∨ off = offReadGuard ∨ off = offDeleteGuard) : Live n (w.storeAt 0 off 1) := by
  have hkeep : ∀ g, g = offWriteGuard ∨ g = offReadGuard ∨ g = offDeleteGuard → w.word 0 g ≠ 0 →
      (w.storeAt 0 off 1).word 0 g ≠ 0 := by
    intro g hg
    refine word_store_ne (by decide) ?_
    simp only [offDeleteGuard, offReadGuard, offWriteGuard] at hoff hg
    omega
  refine ⟨h.leaderAlive, h.followerAlive, h.leaderMap, h.followerMap, ?_, h.leaderFine, h.followerFine, fun hpc => ?_,
    fun hpc => ?_, fun hpc => ?_, h.fresh⟩
  · rw [storeAt_size]
    exact h.size
  · exact hkeep _ (.inl rfl) (h.wrote hpc)
  · exact hkeep _ (.inr (.inl rfl)) (h.notified hpc)
  · exact hkeep _ (.inr (.inr rfl)) (h.deleted hpc)

theorem left_of_leader (hf : w'.follower = w.follower) (hpc : w'.leader.pc.left n + 1 = w.leader.pc.left n) :
    w'.left n + 1 = w.left n := by
  simp only [World.left, hf]
  omega

theorem left_of_follower (hl : w'.leader = w.leader) (hpc : w'.follower.left n + 1 = w.follower.left n) :
    w'.left n + 1 = w.left n := by
  simp only [World.left, hl]
  omega

/-- **A step of the leader.** -/
theorem live_leaderStep (h : Live n w) (hst : leaderStep n w ans = some w') :
    Live n w' ∧ (w' = w ∨ w'.left n + 1 = w.left n) := by
  have hfine := h.leaderFine
  obtain ⟨hwrite, hread, hdelete⟩ := guards_lt n
  cases leaderStep_moves hst with
  | shmOpen hpc => rw [hpc] at hfine; exact hfine.elim
  | ftruncate hpc => rw [hpc] at hfine; exact hfine.elim
  | mmap hpc => rw [hpc] at hfine; exact hfine.elim
  | test hpc =>
    refine ⟨h.leaderTo trivial (by simp [LeaderPc.notified]), .inr (left_of_leader rfl ?_)⟩
    rw [hpc]
    rfl
  | @fault off hoff hacc =>
    -- all that the leader accesses is inside of the object
    have hle : off + 4 ≤ sizeofSharedData n := by
      cases hpc : w.leader.pc with
      | waitWrite => rw [hpc] at hoff; cases hoff; exact hwrite
      | notify => rw [hpc] at hoff; cases hoff; exact hread
      | waitDelete => rw [hpc] at hoff; cases hoff; exact hdelete
      | copy i =>
        have hi : i < n := by
          by_contra hn
          simp [leaderStep, hpc, hn, World.leaderTo] at hst
        rw [hpc] at hoff
        cases hoff
        simp only [sizeofSharedData]
        omega
      | _ => rw [hpc] at hoff; cases hoff
    rw [h.leader_access hle] at hacc
    cases hacc
  | spin hpc => exact ⟨h, .inl rfl⟩
  | writeSet hpc =>
    refine ⟨h.leaderTo trivial (by simp [LeaderPc.notified]), .inr (left_of_leader rfl ?_)⟩
    rw [hpc]
    rfl
  | fill hpc =>
    refine ⟨⟨h.leaderAlive, h.followerAlive, h.leaderMap, h.followerMap, h.size, Nat.zero_le n, h.followerFine, h.wrote,
      by simp [LeaderPc.notified], h.deleted, h.fresh⟩, .inr (left_of_leader rfl ?_)⟩
    rw [hpc]
    rfl
  | @copy i id hpc hi hacc =>
    obtain rfl : id = 0 := Option.some.inj ((access_eq_some.1 hacc).1.symm.trans h.leaderMap)
    refine ⟨(h.storeData _).leaderTo hi (by simp [LeaderPc.notified]), .inr (left_of_leader rfl ?_)⟩
    rw [hpc]
    show n - (i + 1) + 4 + 1 = n - i + 4
    omega
  | @copied i hpc hi =>
    refine ⟨h.leaderTo trivial (by simp [LeaderPc.notified]), .inr (left_of_leader rfl ?_)⟩
    rw [hpc]
    show 3 + 1 = n - i + 4
    omega
  | @notify id hpc hacc =>
    obtain rfl : id = 0 := Option.some.inj ((access_eq_some.1 hacc).1.symm.trans h.leaderMap)
    have hstored := h.storeGuard (.inr (.inl rfl))
    refine ⟨⟨h.leaderAlive, h.followerAlive, h.leaderMap, h.followerMap, hstored.size, trivial, h.followerFine,
      hstored.wrote, fun _ => ?_, hstored.deleted, h.fresh⟩, .inr (left_of_leader rfl ?_)⟩
    · rw [leaderTo_word, word_storeAt_self]
      decide
    · rw [hpc]
      rfl
  | deleteSet hpc =>
    refine ⟨h.leaderTo trivial (fun _ => by rw [hpc]; rfl), .inr (left_of_leader rfl ?_)⟩
    rw [hpc]
    rfl
  | close hpc =>
    refine ⟨h.leaderTo rfl (fun _ => by rw [hpc]; rfl), .inr (left_of_leader rfl ?_)⟩
    rw [hpc]
    rfl

/-- the accesses of the follower are inside of the object -/
theorem Live.no_fault (h : Live n w) (hst : followerStep n w ans byte = some w') : w'.follower.pc ≠ .faulted := by
  obtain ⟨hwrite, hread, hdelete⟩ := guards_lt n
  cases hpc : w.follower.pc with
  | shmOpen | mmap | test | shmUnlink =>
    simp only [followerStep, hpc, ltZero_eq_false, Bool.false_eq_true, if_false, Option.some.injEq] at hst
    subst hst
    simp [World.followerTo]
  | setWrite =>
    simp only [followerStep, hpc, World.followerStore, h.follower_access hwrite, Option.some.injEq] at hst
    subst hst
    simp [World.followerTo]
  | waitRead =>
    simp only [followerStep, hpc, h.follower_access hread, Option.some.injEq] at hst
    split_ifs at hst
    · rw [← hst, hpc]
      simp
    · subst hst
      simp [World.followerTo]
  | memcpy =>
    simp only [followerStep, hpc, World.memcpy] at hst
    split at hst
    · split_ifs at hst
      obtain rfl := Option.some.inj hst
      simp [World.followerTo]
    · rename_i j
      split_ifs at hst with hj
      have hle : 12 + j + 1 ≤ sizeofSharedData n := by
        simp only [sizeofSharedData, offData, offDeleteGuard, offReadGuard, offWriteGuard]
        omega
      simp only [h.follower_access hle, Option.some.injEq] at hst
      subst hst
      simp
  | setDelete =>
    simp only [followerStep, hpc, World.followerStore, h.follower_access hdelete, Option.some.injEq] at hst
    subst hst
    simp [World.followerTo]
  | returned status => simp [followerStep, hpc] at hst
  | faulted => simp [followerStep, hpc] at hst

/-- **A step of the follower.** -/
theorem live_followerStep (h : Live n w) (hst : followerStep n w ans byte = some w') :
    Live n w' ∧ (w'.left n = w.left n ∨ w'.left n + 1 = w.left n) := by
  have hfine := h.followerFine
  have hfault := h.no_fault hst
  cases followerStep_moves hst with
  | shmOpen hpc => rw [hpc] at hfine; exact hfine.elim
  | mmap hpc => rw [hpc] at hfine; exact hfine.elim
  | test hpc =>
    refine ⟨h.followerTo trivial (by simp [FollowerPc.wrote]) (by simp) (fun _ => by rw [hpc]; rfl), .inr ?_⟩
    refine left_of_follower rfl ?_
    simp only [Follower.left, hpc, World.followerTo]
  | fault => exact absurd rfl hfault
  | @setWrite id hpc hacc =>
    obtain rfl : id = 0 := Option.some.inj ((access_eq_some.1 hacc).1.symm.trans h.followerMap)
    have hstored := h.storeGuard (.inl rfl)
    refine ⟨⟨h.leaderAlive, h.followerAlive, h.leaderMap, h.followerMap, hstored.size, h.leaderFine, trivial,
      fun _ => ?_, hstored.notified, by simp [World.followerTo], fun _ => h.fresh (by rw [hpc]; rfl)⟩, .inr ?_⟩
    · rw [followerTo_word, word_storeAt_self]
      decide
    · refine left_of_follower rfl ?_
      simp only [Follower.left, hpc, World.followerTo]
  | spin hpc => exact ⟨h, .inl rfl⟩
  | readSet hpc =>
    refine ⟨h.followerTo trivial (fun _ => by rw [hpc]; rfl) (by simp) (by simp [FollowerPc.before]), .inr ?_⟩
    refine left_of_follower rfl ?_
    have hnone := uncopied_none (n := n) (h.fresh (by rw [hpc]; rfl))
    simp only [Follower.left, hpc, World.followerTo, hnone]
  | @byte id j hpc hj hacc =>
    refine ⟨⟨h.leaderAlive, h.followerAlive, h.leaderMap, h.followerMap, h.size, h.leaderFine, h.followerFine, h.wrote,
      h.notified, h.deleted, fun hb => ?_⟩, ?_⟩
    · simp only [hpc] at hb
      cases hb
    · by_cases hcopied : w.follower.copied j = true
      · left
        have hsame : Function.update w.follower.copied j true = w.follower.copied := by
          rw [← hcopied, Function.update_eq_self]
        simp only [World.left, Follower.left, hpc, hsame]
      · right
        refine left_of_follower rfl ?_
        have hmem : j ∈ uncopied n w.follower.copied := by simp [uncopied, hj, hcopied]
        have hpos := Finset.card_pos.2 ⟨j, hmem⟩
        simp only [Follower.left, hpc, uncopied_update, Finset.card_erase_of_mem hmem]
        omega
  | copied hpc hall =>
    refine ⟨h.followerTo trivial (fun _ => by rw [hpc]; rfl) (by simp) (by simp [FollowerPc.before]), .inr ?_⟩
    refine left_of_follower rfl ?_
    have hnone : uncopied n w.follower.copied = ∅ := by
      apply Finset.filter_eq_empty_iff.2
      intro j hj
      simp [hall j (Finset.mem_range.1 hj)]
    simp only [Follower.left, hpc, World.followerTo, hnone, Finset.card_empty]
  | shmUnlink hpc =>
    refine ⟨⟨h.leaderAlive, h.followerAlive, h.leaderMap, h.followerMap, h.size, h.leaderFine, trivial,
      fun _ => h.wrote (by rw [hpc]; rfl), h.notified, by simp [World.followerTo], by simp [World.followerTo, FollowerPc.before]⟩, .inr ?_⟩
    refine left_of_follower rfl ?_
    simp only [Follower.left, hpc, World.followerTo, World.shmUnlink]
  | @setDelete id hpc hacc =>
    obtain rfl : id = 0 := Option.some.inj ((access_eq_some.1 hacc).1.symm.trans h.followerMap)
    have hstored := h.storeGuard (.inr (.inr rfl))
    refine ⟨⟨h.leaderAlive, h.followerAlive, h.leaderMap, h.followerMap, hstored.size, h.leaderFine, rfl,
      fun _ => hstored.wrote (by rw [storeAt_follower, hpc]; rfl), hstored.notified, fun _ => ?_,
      by simp [World.followerTo, FollowerPc.before]⟩, .inr ?_⟩
    · rw [followerTo_word, word_storeAt_self]
      decide
    · refine left_of_follower rfl ?_
      simp only [Follower.left, hpc, World.followerTo]

/-! ## Who can make progress -/

/-- the leader does not wait for a guard -/
def LeaderReady (w : World) : Prop :=
  match w.leader.pc with
  | .waitWrite => w.word 0 offWriteGuard ≠ 0
  | .waitDelete => w.word 0 offDeleteGuard ≠ 0
  | .returned _ | .faulted => False
  | _ => True

def FollowerReady (w : World) : Prop :=
  match w.follower.pc with
  | .waitRead => w.word 0 offReadGuard ≠ 0
  | .returned _ | .faulted => False
  | _ => True

theorem leader_step (h : Live n w) (hst : leaderStep n w none = some w') (hne : w' ≠ w) :
    ∃ w', Prog n w (.leader none) w' ∧ w'.left n + 1 = w.left n := by
  refine ⟨w', ?_, (live_leaderStep h hst).2.resolve_left hne⟩
  exact (if_pos h.leaderAlive).trans hst

/-- a world in which the leader is at another place is another world -/
theorem ne_of_leader_pc (hpc : w'.leader.pc ≠ w.leader.pc) : w' ≠ w := fun he => hpc (by rw [he])

theorem leader_progress (h : Live n w) (hr : LeaderReady w) :
    ∃ w', Prog n w (.leader none) w' ∧ w'.left n + 1 = w.left n := by
  obtain ⟨hwrite, hread, hdelete⟩ := guards_lt n
  have hfine := h.leaderFine
  unfold LeaderReady at hr
  cases hpc : w.leader.pc with
  | test =>
    have hst : leaderStep n w none = some (w.leaderTo .waitWrite) := by
      simp only [leaderStep, hpc, ltZero_eq_false, Bool.false_eq_true, if_false]
    exact leader_step h hst (ne_of_leader_pc (by simp [World.leaderTo, hpc]))
  | waitWrite =>
    rw [hpc] at hr
    have hst : leaderStep n w none = some (w.leaderTo .fill) := by
      simp only [leaderStep, hpc, World.leaderWait, h.leader_access hwrite]
      rw [if_neg hr]
    exact leader_step h hst (ne_of_leader_pc (by simp [World.leaderTo, hpc]))
  | fill =>
    have hst : leaderStep n w none = some { w with leader := { w.leader with arr := w.leader.rand, pc := .copy 0 } } := by
      simp only [leaderStep, hpc]
    exact leader_step h hst (ne_of_leader_pc (by simp [hpc]))
  | copy i =>
    by_cases hi : i < n
    · have hacc : w.access w.leader.mapping (offData + 4 * i) 4 = some 0 := by
        apply h.leader_access
        simp only [sizeofSharedData]
        omega
      have hst : leaderStep n w none =
          some ((w.storeAt 0 (offData + 4 * i) (w.leader.arr i)).leaderTo (.copy (i + 1))) := by
        simp only [leaderStep, hpc, if_pos hi, World.leaderStore, hacc]
      exact leader_step h hst (ne_of_leader_pc (by simp [World.leaderTo, hpc]))
    · have hst : leaderStep n w none = some (w.leaderTo .notify) := by
        simp only [leaderStep, hpc, if_neg hi]
      exact leader_step h hst (ne_of_leader_pc (by simp [World.leaderTo, hpc]))
  | notify =>
    have hst : leaderStep n w none = some ((w.storeAt 0 offReadGuard 1).leaderTo .waitDelete) := by
      simp only [leaderStep, hpc, World.leaderStore, h.leader_access hread]
    exact leader_step h hst (ne_of_leader_pc (by simp [World.leaderTo, hpc]))
  | waitDelete =>
    rw [hpc] at hr
    have hst : leaderStep n w none = some (w.leaderTo .close) := by
      simp only [leaderStep, hpc, World.leaderWait, h.leader_access hdelete]
      rw [if_neg hr]
    exact leader_step h hst (ne_of_leader_pc (by simp [World.leaderTo, hpc]))
  | close =>
    have hst : leaderStep n w none = some (w.leaderTo (.returned 0)) := by simp only [leaderStep, hpc]
    exact leader_step h hst (ne_of_leader_pc (by simp [World.leaderTo, hpc]))
  | returned status => rw [hpc] at hr; exact hr.elim
  | faulted => rw [hpc] at hr; exact hr.elim
  | shmOpen | ftruncate | mmap => rw [hpc] at hfine; exact hfine.elim

theorem follower_step (h : Live n w) (hst : followerStep n w none byte = some w')
    (hne : w'.follower.left n ≠ w.follower.left n) :
    ∃ byte w', Prog n w (.follower none byte) w' ∧ w'.left n + 1 = w.left n := by
  have hlead : w'.leader = w.leader := (follower_effect hst).leader
  have hleft : w'.left n ≠ w.left n := by
    simp only [World.left, hlead]
    omega
  exact ⟨byte, w', (if_pos h.followerAlive).trans hst, (live_followerStep h hst).2.resolve_left hleft⟩

theorem follower_progress (h : Live n w) (hr : FollowerReady w) :
    ∃ byte w', Prog n w (.follower none byte) w' ∧ w'.left n + 1 = w.left n := by
  obtain ⟨hwrite, hread, hdelete⟩ := guards_lt n
  have hfine := h.followerFine
  unfold FollowerReady at hr
  cases hpc : w.follower.pc with
  | test =>
    have hst : followerStep n w none none = some (w.followerTo .setWrite) := by
      simp only [followerStep, hpc, ltZero_eq_false, Bool.false_eq_true, if_false]
    exact follower_step h hst (by simp [Follower.left, World.followerTo, hpc])
  | setWrite =>
    have hst : followerStep n w none none = some ((w.storeAt 0 offWriteGuard 1).followerTo .waitRead) := by
      simp only [followerStep, hpc, World.followerStore, h.follower_access hwrite]
    exact follower_step h hst (by simp [Follower.left, World.followerTo, hpc])
  | waitRead =>
    rw [hpc] at hr
    have hst : followerStep n w none none = some (w.followerTo .memcpy) := by
      simp only [followerStep, hpc, h.follower_access hread]
      rw [if_neg hr]
    have hnone := uncopied_none (n := n) (h.fresh (by rw [hpc]; rfl))
    exact follower_step h hst (by simp [Follower.left, World.followerTo, hpc, hnone])
  | memcpy =>
    by_cases hall : ∀ j < 4 * n, w.follower.copied j = true
    · have hst : followerStep n w none none = some (w.followerTo .shmUnlink) := by
        simp only [followerStep, hpc, World.memcpy]
        exact if_pos (List.all_eq_true.2 fun j hj => hall j (List.mem_range.1 hj))
      exact follower_step h hst (by simp [Follower.left, World.followerTo, hpc])
    · -- a byte that has not been copied
      push Not at hall
      obtain ⟨j, hj, hnot⟩ := hall
      have hle : 12 + j + 1 ≤ sizeofSharedData n := by
        simp only [sizeofSharedData, offData, offDeleteGuard, offReadGuard, offWriteGuard]
        omega
      have hst : followerStep n w none (some j) = some { w with follower := { w.follower with
          arr := Function.update w.follower.arr j ((w.objs 0).mem (12 + j))
          copied := Function.update w.follower.copied j true } } := by
        simp only [followerStep, hpc, World.memcpy, if_pos hj, h.follower_access hle]
      have hmem : j ∈ uncopied n w.follower.copied := by simp [uncopied, hj, hnot]
      have hpos := Finset.card_pos.2 ⟨j, hmem⟩
      refine follower_step h hst ?_
      simp only [Follower.left, hpc, uncopied_update, Finset.card_erase_of_mem hmem]
      omega
  | shmUnlink =>
    have hst : followerStep n w none none = some (w.shmUnlink.followerTo .setDelete) := by simp only [followerStep, hpc]
    exact follower_step h hst (by simp [Follower.left, World.followerTo, hpc])
  | setDelete =>
    have hst : followerStep n w none none = some ((w.storeAt 0 offDeleteGuard 1).followerTo (.returned 0)) := by
      simp only [followerStep, hpc, World.followerStore, h.follower_access hdelete]
    exact follower_step h hst (by simp [Follower.left, World.followerTo, hpc])
  | returned status => rw [hpc] at hr; exact hr.elim
  | faulted => rw [hpc] at hr; exact hr.elim
  | shmOpen | mmap => rw [hpc] at hfine; exact hfine.elim

/-! ## Nobody takes it away -/

/-- the follower sets no guard back -/
theorem follower_guards (h : Live n w) (hst : followerStep n w ans byte = some w') {g : ℕ}
    (hg : g = offWriteGuard ∨ g = offReadGuard ∨ g = offDeleteGuard) (hne : w.word 0 g ≠ 0) : w'.word 0 g ≠ 0 := by
  have hfine := h.followerFine
  have hstore : ∀ off, off = offWriteGuard ∨ off = offDeleteGuard → (w.storeAt 0 off 1).word 0 g ≠ 0 := by
    intro off hoff
    refine word_store_ne (by decide) ?_ hne
    simp only [offDeleteGuard, offReadGuard, offWriteGuard] at hoff hg
    omega
  cases followerStep_moves hst with
  | @setWrite id _ hacc =>
    obtain rfl : id = 0 := Option.some.inj ((access_eq_some.1 hacc).1.symm.trans h.followerMap)
    exact hstore _ (.inl rfl)
  | @setDelete id _ hacc =>
    obtain rfl : id = 0 := Option.some.inj ((access_eq_some.1 hacc).1.symm.trans h.followerMap)
    exact hstore _ (.inr rfl)
  | shmOpen | mmap | test | fault | spin | readSet | byte | copied | shmUnlink => exact hne

/-- and neither does the leader -/
theorem leader_guards (h : Live n w) (hst : leaderStep n w ans = some w') {g : ℕ}
    (hg : g = offWriteGuard ∨ g = offReadGuard ∨ g = offDeleteGuard) (hne : w.word 0 g ≠ 0) : w'.word 0 g ≠ 0 := by
  have hfine := h.leaderFine
  cases leaderStep_moves hst with
  | shmOpen hpc => rw [hpc] at hfine; exact hfine.elim
  | ftruncate hpc => rw [hpc] at hfine; exact hfine.elim
  | @copy i id _ _ hacc =>
    rw [leaderTo_word, word_storeAt (Or.inl ?_)]
    · exact hne
    · simp only [offData, offDeleteGuard, offReadGuard, offWriteGuard] at hg ⊢
      omega
  | @notify id _ hacc =>
    obtain rfl : id = 0 := Option.some.inj ((access_eq_some.1 hacc).1.symm.trans h.leaderMap)
    refine word_store_ne (by decide) ?_ hne
    simp only [offDeleteGuard, offReadGuard, offWriteGuard] at hg ⊢
    omega
  | mmap | test | fault | spin | writeSet | fill | copied | deleteSet | close => exact hne

theorem ready_leader (h : Live n w) (hst : followerStep n w ans byte = some w') (hr : LeaderReady w) :
    LeaderReady w' := by
  have hlead : w'.leader = w.leader := (follower_effect hst).leader
  have hguard := fun g => follower_guards h hst (g := g)
  unfold LeaderReady at hr ⊢
  rw [hlead]
  cases hpc : w.leader.pc with
  | waitWrite => rw [hpc] at hr; exact hguard _ (.inl rfl) hr
  | waitDelete => rw [hpc] at hr; exact hguard _ (.inr (.inr rfl)) hr
  | _ => rw [hpc] at hr; exact hr

theorem ready_follower (h : Live n w) (hst : leaderStep n w ans = some w') (hr : FollowerReady w) :
    FollowerReady w' := by
  have hfollow : w'.follower = w.follower := by
    have hfine := h.leaderFine
    cases leaderStep_moves hst with
    | shmOpen hpc => rw [hpc] at hfine; exact hfine.elim
    | ftruncate hpc => rw [hpc] at hfine; exact hfine.elim
    | mmap | test | fault | spin | writeSet | fill | copy | copied | notify | deleteSet | close => rfl
  have hguard := fun g => leader_guards h hst (g := g)
  unfold FollowerReady at hr ⊢
  rw [hfollow]
  cases hpc : w.follower.pc with
  | waitRead => rw [hpc] at hr; exact hguard _ (.inr (.inl rfl)) hr
  | _ => rw [hpc] at hr; exact hr

end Steps

/-! ## Result -/

theorem live_step {n : ℕ} {w w' : World} {ev : Ev} (h : Live n w) (hst : Prog n w ev w') :
    Live n w' ∧ (w'.left n = w.left n ∨ w'.left n + 1 = w.left n) := by
  unfold Prog Takes progStep at hst
  split at hst
  · split_ifs at hst
    obtain ⟨hlive, rfl | hleft⟩ := live_leaderStep h hst
    · exact ⟨hlive, .inl rfl⟩
    · exact ⟨hlive, .inr hleft⟩
  · split_ifs at hst
    exact live_followerStep h hst

/-- both programs have returned 0 -/
def Done (w : World) : Prop := w.leader.pc = .returned 0 ∧ w.follower.pc = .returned 0

/-- while they have not both returned, one of them does not have to wait -/
theorem exists_ready {n : ℕ} {w : World} (h : Live n w) (hh : Handed w) (hd : ¬ Done w) :
    LeaderReady w ∨ FollowerReady w := by
  by_contra hnone
  push Not at hnone
  obtain ⟨hl, hf⟩ := hnone
  have hlf := h.leaderFine
  have hff := h.followerFine
  -- a leader that has returned was let go by the follower
  have hrel : w.leader.pc = .returned 0 → w.follower.pc = .returned 0 := fun hpc => hh.released (by rw [hpc]; rfl)
  unfold LeaderReady at hl
  unfold FollowerReady at hf
  cases hfp : w.follower.pc with
  | waitRead =>
    rw [hfp] at hf
    have hwrote := h.wrote (by rw [hfp]; rfl)
    have hnot := h.notified
    cases hlp : w.leader.pc with
    | waitWrite => rw [hlp] at hl; exact hl hwrote
    | waitDelete => exact hf (hnot (by rw [hlp]; rfl))
    | returned status =>
      rw [hlp] at hlf
      obtain rfl : status = 0 := hlf
      have := hrel hlp
      rw [hfp] at this
      cases this
    | faulted => rw [hlp] at hlf; exact hlf
    | _ => rw [hlp] at hl; exact hl trivial
  | returned status =>
    rw [hfp] at hff
    obtain rfl : status = 0 := hff
    have hwrote := h.wrote (by rw [hfp]; rfl)
    have hdel := h.deleted hfp
    cases hlp : w.leader.pc with
    | waitWrite => rw [hlp] at hl; exact hl hwrote
    | waitDelete => rw [hlp] at hl; exact hl hdel
    | returned status =>
      rw [hlp] at hlf
      obtain rfl : status = 0 := hlf
      exact hd ⟨hlp, hfp⟩
    | faulted => rw [hlp] at hlf; exact hlf
    | _ => rw [hlp] at hl; exact hl trivial
  | faulted => rw [hfp] at hff; exact hff
  | _ => rw [hfp] at hf; exact hf trivial

theorem left_of_done {n : ℕ} {w : World} (h : Done w) : w.left n = 0 := by
  simp [World.left, LeaderPc.left, Follower.left, h.1, h.2]

/-- a run of progress to the end -/
theorem run_to_done {n : ℕ} {w : World} (h : Live n w) (hI : Inv n w) (hh : Handed w) :
    ∃ l w', Run (Prog n) w l w' ∧ l.length = w.left n ∧ Done w' ∧ Inv n w' ∧ Handed w' := by
  induction hk : w.left n generalizing w with
  | zero =>
    refine ⟨[], w, .nil w, rfl, ?_, hI, hh⟩
    by_contra hd
    obtain hr | hr := exists_ready h hh hd
    · obtain ⟨w', -, hleft⟩ := leader_progress h hr
      omega
    · obtain ⟨byte, w', -, hleft⟩ := follower_progress h hr
      omega
  | succ k ih =>
    have hd : ¬ Done w := fun hd => by
      rw [left_of_done hd] at hk
      cases hk
    obtain ⟨ev, u, hst, hleft⟩ : ∃ ev u, Prog n w ev u ∧ u.left n + 1 = w.left n := by
      obtain hr | hr := exists_ready h hh hd
      · obtain ⟨w', hst, hleft⟩ := leader_progress h hr
        exact ⟨_, w', hst, hleft⟩
      · obtain ⟨byte, w', hst, hleft⟩ := follower_progress h hr
        exact ⟨_, w', hst, hleft⟩
    obtain ⟨l, w', hl, hlen, hend⟩ := ih (live_step h hst).1 (step_inv hI hst) (step_handed hI hh hst) (by omega)
    exact ⟨ev :: l, w', .cons hst hl, by rw [List.length_cons, hlen], hend⟩

/-- **The hand-over completes.** In every state that a run reaches from a new object that both have mapped: a step is
progress or leaves the count of what is left, which was `5 * n + 13`; unless both programs have returned 0, one of them can
make progress, and a step of the other leaves that so; and some run from here makes progress only and ends with the array
delivered and the object unlinked. -/
theorem handover_completes (n : ℕ) (rand : ℕ → Word) (bl bf : BitVec 64) {l : List Ev} {w : World}
    (hr : Run (Prog n) (bothMapped n rand bl bf) l w) :
    (bothMapped n rand bl bf).left n = 5 * n + 13 ∧
    (∀ ev w', Prog n w ev w' → w'.left n = w.left n ∨ w'.left n + 1 = w.left n) ∧
    (¬ Done w → LeaderReady w ∨ FollowerReady w) ∧
    (LeaderReady w → (∃ w', Prog n w (.leader none) w' ∧ w'.left n + 1 = w.left n) ∧
      ∀ ans byte w', Prog n w (.follower ans byte) w' → LeaderReady w') ∧
    (FollowerReady w → (∃ byte w', Prog n w (.follower none byte) w' ∧ w'.left n + 1 = w.left n) ∧
      ∀ ans w', Prog n w (.leader ans) w' → FollowerReady w') ∧
    ∃ l' w', Run (Prog n) w l' w' ∧ l'.length = w.left n ∧ Done w' ∧ w'.name = none ∧
      ∀ i < n, load w'.follower.arr (4 * i) = w'.leader.arr i := by
  have hI : Live n w ∧ Inv n w ∧ Handed w := by
    refine Run.inv (I := fun w => Live n w ∧ Inv n w ∧ Handed w) ?_ hr
      ⟨live_bothMapped n rand bl bf, inv_bothMapped n rand bl bf, handed_bothMapped n rand bl bf⟩
    rintro w ev w' ⟨hlive, hinv, hh⟩ hst
    exact ⟨(live_step hlive hst).1, step_inv hinv hst, step_handed hinv hh hst⟩
  obtain ⟨hlive, hinv, hh⟩ := hI
  refine ⟨?_, fun ev w' hst => (live_step hlive hst).2, exists_ready hlive hh, fun hready => ⟨leader_progress hlive hready,
    fun ans byte w' hst => ?_⟩, fun hready => ⟨follower_progress hlive hready, fun ans w' hst => ?_⟩, ?_⟩
  · simp only [World.left, bothMapped, startLeader, startFollower, LeaderPc.left, Follower.left]
    omega
  · exact ready_leader hlive ((if_pos hlive.followerAlive).symm.trans hst) hready
  · exact ready_follower hlive ((if_pos hlive.leaderAlive).symm.trans hst) hready
  · obtain ⟨l', w', hl', hlen, hdone, hinv', hh'⟩ := run_to_done hlive hinv hh
    exact ⟨l', w', hl', hlen, hdone, hh'.unlinked (.inr hdone.2), (hinv'.delivered (by rw [hdone.2]; rfl)).2⟩

/-- the leader waits, the follower has set `write_guard` -/
theorem handover_completes_started :
    ∃ w, Run (Prog 1) (bothMapped 1 (fun _ => 7) 0x7f0000000000 0x7f1000000000) (leaderSteps 2 ++ followerSteps 2) w ∧
      w.left 1 = 15 ∧ ∃ l' w', Run (Prog 1) w l' w' ∧ l'.length = w.left 1 ∧ Done w' := by
  have hobs : ((leaderSteps 2 ++ followerSteps 2).foldlM (progStep 1)
      (bothMapped 1 (fun _ => 7) 0x7f0000000000 0x7f1000000000)).map (fun w : World => w.left 1) = some 15 := by rfl
  obtain ⟨w, hw, hleft⟩ := Option.map_eq_some_iff.1 hobs
  have hr := run_takes_iff.2 hw
  obtain ⟨-, -, -, -, -, l', w', hl', hlen, hdone, -⟩ := handover_completes 1 _ _ _ hr
  exact ⟨w, hr, hleft, l', w', hl', hlen, hdone⟩

end Cse422.Handover
