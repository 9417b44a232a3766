/-
What the guards say. The invariant `Inv` of a run of the two programs ties the value of `read_guard` to both program
counters: where it is set, in an object that the follower has or can still open, the leader of this run has written
its whole array there, and it writes no more.

- `step_inv`: every step of a program keeps the invariant, kills included (`Restart` adds the starts);
- `handover_delivers`: on a new object that both have mapped, in every interleaving, the follower's array is the
  leader's when `memcpy` has returned; the leader writes no data once the follower copies; and it gets past its wait
  for `delete_guard` only when the follower has copied and unlinked;
- `bothMapped_reached`: that is where the two programs get when they start in order.
-/
import Cse422.Handover.Programs

namespace Cse422.Handover

open Lts Words

/-! ## Places -/

/-- the leader has set `read_guard` -/
def LeaderPc.notified : LeaderPc → Bool
  | .waitDelete | .close => true
  | .returned status => status = 0
  | _ => false

/-- how many elements the leader has written -/
def LeaderPc.written (n : ℕ) : LeaderPc → ℕ
  | .copy i => i
  | .notify | .waitDelete | .close => n
  | .returned status => if status = 0 then n else 0
  | _ => 0

/-- the leader has read `write_guard` -/
def LeaderPc.inside : LeaderPc → Bool
  | .fill | .copy _ | .notify | .waitDelete | .close => true
  | .returned status => status = 0
  | _ => false

/-- the follower has not read `read_guard` yet -/
def FollowerPc.before : FollowerPc → Bool
  | .shmOpen | .mmap | .test | .setWrite | .waitRead => true
  | _ => false

/-- the follower copies or has copied -/
def FollowerPc.copying : FollowerPc → Bool
  | .memcpy | .shmUnlink | .setDelete => true
  | .returned status => status = 0
  | _ => false

/-- `memcpy` has returned -/
def FollowerPc.copied : FollowerPc → Bool
  | .shmUnlink | .setDelete => true
  | .returned status => status = 0
  | _ => false

theorem LeaderPc.notified_inside {pc : LeaderPc} (h : pc.notified = true) : pc.inside = true := by
  cases pc <;> simp_all [LeaderPc.notified, LeaderPc.inside]

/-! ## The invariant -/

structure Inv (n : ℕ) (w : World) : Prop where
  sizes : ∀ id, (w.objs id).size = 0 ∨ (w.objs id).size = sizeofSharedData n
  leaderMap : ∀ id, w.leader.mapping.id? = some id → w.leader.fd = some id ∧ w.leader.pc ≠ .shmOpen
  followerMap : ∀ id, w.follower.mapping.id? = some id → w.follower.fd = some id ∧ w.follower.pc ≠ .shmOpen
  /-- the leader's mapping has been accessed, so it is of an object that is large enough -/
  inside : w.leader.pc.inside → ∃ id, w.leader.mapping.id? = some id ∧ (w.objs id).size = sizeofSharedData n
  /-- `read_guard` is set by the leader of this run only -/
  guard : ∀ id, w.name = some id ∨ w.follower.fd = some id → w.word id offReadGuard ≠ 0 →
    w.leader.fd = some id ∧ w.leader.pc.notified
  written : ∀ id, w.leader.fd = some id → ∀ i < w.leader.pc.written n,
    w.word id (offData + 4 * i) = w.leader.arr i
  copying : w.follower.pc.copying → ∃ id, w.follower.fd = some id ∧ w.leader.fd = some id ∧ w.leader.pc.notified ∧
    ∀ j < 4 * n, w.follower.copied j → w.follower.arr j = (w.objs id).mem (offData + j)
  before : w.follower.pc.before → ∀ j, w.follower.copied j = false
  copied : w.follower.pc.copied → ∀ j < 4 * n, w.follower.copied j

section Step

variable {n : ℕ} {w : World}

/-- before the leader has notified, the follower has not begun to copy -/
theorem Inv.not_copying (h : Inv n w) (hn : w.leader.pc.notified = false) : w.follower.pc.copying = false := by
  by_contra hc
  obtain ⟨id, -, -, hl, -⟩ := h.copying (by simpa using hc)
  rw [hn] at hl
  cases hl

/-- and `read_guard` is not set -/
theorem Inv.guard_zero (h : Inv n w) (hn : w.leader.pc.notified = false) {id : ℕ}
    (hid : w.name = some id ∨ w.follower.fd = some id) : w.word id offReadGuard = 0 := by
  by_contra hne
  have hl := (h.guard id hid hne).2
  rw [hn] at hl
  cases hl

/-- the leader moves on without touching anything -/
theorem Inv.leaderTo (h : Inv n w) {pc : LeaderPc} (hopen : pc ≠ .shmOpen)
    (hinside : pc.inside → ∃ id, w.leader.mapping.id? = some id ∧ (w.objs id).size = sizeofSharedData n)
    (hnot : w.leader.pc.notified → pc.notified) (hwritten : pc.written n ≤ w.leader.pc.written n) :
    Inv n (w.leaderTo pc) where
  sizes := h.sizes
  leaderMap id hid := ⟨(h.leaderMap id hid).1, hopen⟩
  followerMap := h.followerMap
  inside := hinside
  guard id hid hne := ⟨(h.guard id hid hne).1, hnot (h.guard id hid hne).2⟩
  written id hid i hi := h.written id hid i (lt_of_lt_of_le hi hwritten)
  copying hc := by
    obtain ⟨id, hf, hl, hn, hb⟩ := h.copying hc
    exact ⟨id, hf, hl, hnot hn, hb⟩
  before := h.before
  copied := h.copied

/-- the follower moves on without touching anything -/
theorem Inv.followerTo (h : Inv n w) {pc : FollowerPc} (hopen : pc ≠ .shmOpen)
    (hcopying : pc.copying → w.follower.pc.copying) (hbefore : pc.before → w.follower.pc.before)
    (hcopied : pc.copied → ∀ j < 4 * n, w.follower.copied j) : Inv n (w.followerTo pc) where
  sizes := h.sizes
  leaderMap := h.leaderMap
  followerMap id hid := ⟨(h.followerMap id hid).1, hopen⟩
  inside := h.inside
  guard := h.guard
  written := h.written
  copying hc := h.copying (hcopying hc)
  before hb := h.before (hbefore hb)
  copied := hcopied

/-- a store into one of the two guards that the follower sets -/
theorem Inv.storeGuard (h : Inv n w) {id off : ℕ} {v : Word} (hoff : off = offWriteGuard ∨ off = offDeleteGuard) :
    Inv n (w.storeAt id off v) := by
  have hguard : ∀ id', (w.storeAt id off v).word id' offReadGuard = w.word id' offReadGuard := by
    intro id'
    apply word_storeAt
    rcases hoff with rfl | rfl <;> simp [offReadGuard, offDeleteGuard, offWriteGuard]
  have hdata : ∀ id' x, offData ≤ x → ((w.storeAt id off v).objs id').mem x = (w.objs id').mem x := by
    intro id' x hx
    apply storeAt_mem
    rcases hoff with rfl | rfl <;> simp only [offData, offDeleteGuard, offReadGuard, offWriteGuard] at hx ⊢ <;> omega
  refine ⟨fun id' => ?_, h.leaderMap, h.followerMap, fun hi => ?_, fun id' hid hne => ?_, fun id' hid i hi => ?_,
    fun hc => ?_, h.before, h.copied⟩
  · rw [storeAt_size]
    exact h.sizes id'
  · obtain ⟨id', hm, hs⟩ := h.inside hi
    exact ⟨id', hm, by rw [storeAt_size]; exact hs⟩
  · rw [hguard] at hne
    exact h.guard id' hid hne
  · calc (w.storeAt id off v).word id' (offData + 4 * i)
        = w.word id' (offData + 4 * i) := load_congr fun k _ => hdata id' _ (by omega)
      _ = w.leader.arr i := h.written id' hid i hi
  · obtain ⟨id', hf, hl, hn, hb⟩ := h.copying hc
    exact ⟨id', hf, hl, hn, fun j hj hcj => (hb j hj hcj).trans (hdata id' _ (by omega)).symm⟩

/-! ## The leader -/

/-- an access that succeeds is of an object of full size -/
theorem Inv.access_size (h : Inv n w) {m : Mapping} {off len id : ℕ} (hlen : 0 < len)
    (ha : w.access m off len = some id) : m.id? = some id ∧ (w.objs id).size = sizeofSharedData n := by
  obtain ⟨hm, hsz⟩ := access_eq_some.1 ha
  refine ⟨hm, (h.sizes id).resolve_left ?_⟩
  omega

/-- as long as the leader has not accessed its mapping, there is less to know -/
theorem Inv.early (h : Inv n w) {w' : World} (hnot : w.leader.pc.notified = false)
    (hf : w'.follower = w.follower) (hinside : w'.leader.pc.inside = false) (hwritten : w'.leader.pc.written n = 0)
    (hsizes : ∀ id, (w'.objs id).size = 0 ∨ (w'.objs id).size = sizeofSharedData n)
    (hmap : ∀ id, w'.leader.mapping.id? = some id → w'.leader.fd = some id ∧ w'.leader.pc ≠ .shmOpen)
    (hzero : ∀ id, w'.name = some id ∨ w.follower.fd = some id → w'.word id offReadGuard = 0) : Inv n w' where
  sizes := hsizes
  leaderMap := hmap
  followerMap := by rw [hf]; exact h.followerMap
  inside hc := by rw [hinside] at hc; cases hc
  guard id hid hne := by
    rw [hf] at hid
    exact absurd (hzero id hid) hne
  written id _ i hi := by rw [hwritten] at hi; cases hi
  copying hc := by
    rw [hf, h.not_copying hnot] at hc
    cases hc
  before := by rw [hf]; exact h.before
  copied := by rw [hf]; exact h.copied

theorem inv_shmOpen (h : Inv n w) (hpc : w.leader.pc = .shmOpen) (ans : Answer) :
    Inv n { (w.shmOpenCreate ans).1 with
      leader := { w.leader with fd := (w.shmOpenCreate ans).2, pc := .ftruncate } } := by
  have hnot : w.leader.pc.notified = false := by rw [hpc]; rfl
  obtain ⟨hf, hobj, hname⟩ := shmOpenCreate_spec w ans
  refine h.early hnot hf rfl rfl (fun id => ?_) (fun id hid => absurd hpc (h.leaderMap id hid).2) fun id hid => ?_
  · show ((w.shmOpenCreate ans).1.objs id).size = 0 ∨ _
    rcases hobj id with ho | ho
    · rw [ho]
      exact h.sizes id
    · rw [ho]
      exact Or.inl rfl
  · show load ((w.shmOpenCreate ans).1.objs id).mem offReadGuard = 0
    have old : w.name = some id ∨ w.follower.fd = some id ∨ (w.shmOpenCreate ans).1.objs id = Shm.empty := by
      rcases hid with hid | hid
      · rcases hname id hid with hid | ho
        · exact Or.inl hid
        · exact Or.inr (Or.inr ho)
      · exact Or.inr (Or.inl hid)
    rcases hobj id with ho | ho
    · rw [ho]
      rcases old with hid | hid | he
      · exact h.guard_zero hnot (Or.inl hid)
      · exact h.guard_zero hnot (Or.inr hid)
      · rw [← ho, he]
        rfl
    · rw [ho]
      rfl

theorem inv_ftruncate (h : Inv n w) (hpc : w.leader.pc = .ftruncate) (ans : Answer) :
    Inv n ((w.ftruncate w.leader.fd (sizeofSharedData n) ans).leaderTo .mmap) := by
  have hnot : w.leader.pc.notified = false := by rw [hpc]; rfl
  obtain ⟨hname, hl, hf, hobj⟩ := ftruncate_spec w w.leader.fd (sizeofSharedData n) ans
  refine h.early hnot hf rfl rfl (fun id => ?_) (fun id hid => ?_) fun id hid => ?_
  · rw [leaderTo_objs]
    rcases hobj id with ho | ho
    · rw [ho]
      exact h.sizes id
    · rw [ho]
      exact Or.inr rfl
  · simp only [World.leaderTo, hl] at hid ⊢
    exact ⟨(h.leaderMap id hid).1, by simp⟩
  · show load ((w.ftruncate w.leader.fd (sizeofSharedData n) ans).objs id).mem offReadGuard = 0
    have hold : w.word id offReadGuard = 0 := by
      apply h.guard_zero hnot
      rwa [← hname]
    rcases hobj id with ho | ho
    · rw [ho]
      exact hold
    · rw [ho]
      exact load_resize hold

theorem inv_mmap (h : Inv n w) (hpc : w.leader.pc = .mmap) (ans : Answer) :
    Inv n { w with leader := { w.leader with mapping := mmap w.leader.fd ans, pc := .test } } := by
  have hnot : w.leader.pc.notified = false := by rw [hpc]; rfl
  refine h.early hnot rfl rfl rfl h.sizes (fun id hid => ⟨mmap_id? hid, by simp⟩) fun id hid => ?_
  exact h.guard_zero hnot hid

/-- the leader's store of an element -/
theorem inv_copy (h : Inv n w) {i id : ℕ} (hpc : w.leader.pc = .copy i)
    (ha : w.access w.leader.mapping (offData + 4 * i) 4 = some id) :
    Inv n ((w.storeAt id (offData + 4 * i) (w.leader.arr i)).leaderTo (.copy (i + 1))) := by
  have hnot : w.leader.pc.notified = false := by rw [hpc]; rfl
  obtain ⟨hm, hsz⟩ := h.access_size (by omega) ha
  refine ⟨fun id' => ?_, fun id' hid => ?_, h.followerMap, fun _ => ⟨id, hm, ?_⟩, fun id' hid hne => ?_,
    fun id' hid j hj => ?_, fun hc => ?_, h.before, h.copied⟩
  · simpa using h.sizes id'
  · exact ⟨(h.leaderMap id' hid).1, by simp [World.leaderTo]⟩
  · simpa using hsz
  · have hw : (w.storeAt id (offData + 4 * i) (w.leader.arr i)).word id' offReadGuard = w.word id' offReadGuard := by
      apply word_storeAt
      simp only [offData, offDeleteGuard]
      omega
    exact absurd (hw.trans (h.guard_zero hnot hid)) hne
  · obtain rfl : id' = id := Option.some.inj (hid.symm.trans (h.leaderMap id hm).1)
    rcases Nat.lt_succ_iff_lt_or_eq.1 hj with hj | rfl
    · have hw : (w.storeAt id' (offData + 4 * i) (w.leader.arr i)).word id' (offData + 4 * j) =
          w.word id' (offData + 4 * j) := word_storeAt (by omega)
      exact hw.trans (h.written id' hid j (by rw [hpc]; exact hj))
    · exact word_storeAt_self
  · have hc' : w.follower.pc.copying = true := hc
    rw [h.not_copying hnot] at hc'
    cases hc'

/-- the leader's store of `read_guard` -/
theorem inv_notify (h : Inv n w) {id : ℕ} (hpc : w.leader.pc = .notify)
    (ha : w.access w.leader.mapping offReadGuard 4 = some id) :
    Inv n ((w.storeAt id offReadGuard 1).leaderTo .waitDelete) := by
  have hnot : w.leader.pc.notified = false := by rw [hpc]; rfl
  obtain ⟨hm, hsz⟩ := h.access_size (by omega) ha
  have hfd := (h.leaderMap id hm).1
  refine ⟨fun id' => ?_, fun id' hid => ?_, h.followerMap, fun _ => ⟨id, hm, ?_⟩, fun id' hid hne => ?_,
    fun id' hid j hj => ?_, fun hc => ?_, h.before, h.copied⟩
  · simpa using h.sizes id'
  · exact ⟨(h.leaderMap id' hid).1, by simp [World.leaderTo]⟩
  · simpa using hsz
  · refine ⟨?_, rfl⟩
    by_contra hl
    have hne' : id' ≠ id := by
      rintro rfl
      exact hl hfd
    exact hne ((word_storeAt_of_ne hne').trans (h.guard_zero hnot hid))
  · have hw : (w.storeAt id offReadGuard 1).word id' (offData + 4 * j) = w.word id' (offData + 4 * j) := by
      apply word_storeAt
      simp only [offData, offDeleteGuard]
      omega
    exact hw.trans (h.written id' hid j (by rw [hpc]; exact hj))
  · have hc' : w.follower.pc.copying = true := hc
    rw [h.not_copying hnot] at hc'
    cases hc'

/-- the leader starts its array anew -/
theorem inv_fill (h : Inv n w) (hpc : w.leader.pc = .fill) :
    Inv n { w with leader := { w.leader with arr := w.leader.rand, pc := .copy 0 } } := by
  have hw : Inv n (w.leaderTo (.copy 0)) :=
    h.leaderTo (by simp) (fun _ => h.inside (by rw [hpc]; rfl)) (by simp [hpc, LeaderPc.notified]) (Nat.zero_le _)
  exact ⟨hw.sizes, hw.leaderMap, hw.followerMap, hw.inside, hw.guard, fun id _ i hi => absurd hi (Nat.not_lt_zero i),
    hw.copying, hw.before, hw.copied⟩

/-- the access of a leader that has notified does not fault -/
theorem Inv.no_fault (h : Inv n w) {off : ℕ} (hoff : w.leader.pc.offset? = some off)
    (ha : w.access w.leader.mapping off 4 = none) : w.leader.pc.notified = false := by
  by_contra hn
  have hn' : w.leader.pc.notified = true := by simpa using hn
  obtain ⟨id, hm, hsz⟩ := h.inside (LeaderPc.notified_inside hn')
  have hd : off = offDeleteGuard := by
    cases hpc : w.leader.pc <;> simp_all [LeaderPc.notified, LeaderPc.offset?]
  have hok : w.access w.leader.mapping off 4 = some id := by
    refine access_eq_some.2 ⟨hm, ?_⟩
    rw [hsz, hd]
    exact Nat.le_add_right _ _
  rw [ha] at hok
  cases hok

theorem inv_leaderStep (h : Inv n w) {ans : Answer} {w' : World} (hst : leaderStep n w ans = some w') : Inv n w' := by
  cases leaderStep_moves hst with
  | shmOpen hpc => exact inv_shmOpen h hpc ans
  | ftruncate hpc => exact inv_ftruncate h hpc ans
  | mmap hpc => exact inv_mmap h hpc ans
  | test hpc =>
    exact h.leaderTo (by simp) (by simp [LeaderPc.inside]) (by simp [hpc, LeaderPc.notified]) (Nat.zero_le _)
  | fault hoff ha =>
    exact h.leaderTo (by simp) (by simp [LeaderPc.inside]) (by simp [h.no_fault hoff ha]) (Nat.zero_le _)
  | spin => exact h
  | @writeSet id hpc ha =>
    exact h.leaderTo (by simp) (fun _ => ⟨id, h.access_size (by omega) ha⟩) (by simp [hpc, LeaderPc.notified])
      (Nat.zero_le _)
  | fill hpc => exact inv_fill h hpc
  | copy hpc _ ha => exact inv_copy h hpc ha
  | copied hpc hi =>
    refine h.leaderTo (by simp) (fun _ => h.inside (by rw [hpc]; rfl)) (by simp [hpc, LeaderPc.notified]) ?_
    rw [hpc]
    exact hi
  | notify hpc ha => exact inv_notify h hpc ha
  | deleteSet hpc =>
    exact h.leaderTo (by simp) (fun _ => h.inside (by rw [hpc]; rfl)) (fun _ => rfl) (by rw [hpc]; exact le_rfl)
  | close hpc =>
    exact h.leaderTo (by simp) (fun _ => h.inside (by rw [hpc]; rfl)) (fun _ => rfl) (by rw [hpc]; exact le_rfl)

/-! ## The follower -/

/-- the follower reads `read_guard` and finds it set -/
theorem inv_waitRead (h : Inv n w) {id : ℕ} (hpc : w.follower.pc = .waitRead)
    (ha : w.access w.follower.mapping offReadGuard 4 = some id) (hg : w.word id offReadGuard ≠ 0) :
    Inv n (w.followerTo .memcpy) := by
  have hf := (h.followerMap id (access_eq_some.1 ha).1).1
  obtain ⟨hl, hn⟩ := h.guard id (Or.inr hf) hg
  have hbefore := h.before (by rw [hpc]; rfl)
  exact
    { sizes := h.sizes
      leaderMap := h.leaderMap
      followerMap := fun id hid => ⟨(h.followerMap id hid).1, by simp [World.followerTo]⟩
      inside := h.inside
      guard := h.guard
      written := h.written
      copying := fun _ => ⟨id, hf, hl, hn, fun j _ hj => by
        have hj' : w.follower.copied j = true := hj
        rw [hbefore j] at hj'
        cases hj'⟩
      before := by intro hb; cases hb
      copied := by intro hc; cases hc }

/-- `memcpy` copies a byte -/
theorem inv_memcpy (h : Inv n w) {id j : ℕ} (hpc : w.follower.pc = .memcpy)
    (ha : w.access w.follower.mapping (12 + j) 1 = some id) :
    Inv n { w with follower := { w.follower with
      arr := Function.update w.follower.arr j ((w.objs id).mem (12 + j))
      copied := Function.update w.follower.copied j true } } := by
  have hf := (h.followerMap id (access_eq_some.1 ha).1).1
  have hcop : w.follower.pc.copying := by rw [hpc]; rfl
  refine ⟨h.sizes, h.leaderMap, h.followerMap, h.inside, h.guard, h.written, fun _ => ?_, fun hb => ?_, fun hc => ?_⟩
  · obtain ⟨id', hf', hl, hn, hb⟩ := h.copying hcop
    obtain rfl : id' = id := Option.some.inj (hf'.symm.trans hf)
    refine ⟨id', hf', hl, hn, fun k hk hck => ?_⟩
    by_cases hkj : k = j
    · subst hkj
      exact Function.update_self _ _ _
    · have hck' : w.follower.copied k = true := by simpa [Function.update_of_ne hkj] using hck
      exact (Function.update_of_ne hkj _ _).trans (hb k hk hck')
  · simp [hpc, FollowerPc.before] at hb
  · simp [hpc, FollowerPc.copied] at hc

/-- the follower opens what the name stands for -/
theorem inv_followerOpen (h : Inv n w) (hpc : w.follower.pc = .shmOpen) (ans : Answer) :
    Inv n { w with follower := { w.follower with fd := w.shmOpen ans, pc := .mmap } } := by
  have hname : ∀ id, w.shmOpen ans = some id → w.name = some id := by
    intro id hid
    cases ans with
    | none => cases hid
    | some base => exact hid
  refine ⟨h.sizes, h.leaderMap, fun id hid => absurd hpc (h.followerMap id hid).2, h.inside, fun id hid hne => ?_,
    h.written, (by intro hc; cases hc), fun _ => h.before (by rw [hpc]; rfl), (by intro hc; cases hc)⟩
  rcases hid with hid | hid
  · exact h.guard id (Or.inl hid) hne
  · exact h.guard id (Or.inl (hname id hid)) hne

/-- the name goes -/
theorem Inv.shmUnlink (h : Inv n w) : Inv n w.shmUnlink where
  sizes := h.sizes
  leaderMap := h.leaderMap
  followerMap := h.followerMap
  inside := h.inside
  guard id hid := h.guard id (Or.inr (hid.resolve_left (by simp [World.shmUnlink])))
  written := h.written
  copying := h.copying
  before := h.before
  copied := h.copied

theorem inv_followerStep (h : Inv n w) {ans : Answer} {byte : Option ℕ} {w' : World}
    (hst : followerStep n w ans byte = some w') : Inv n w' := by
  cases followerStep_moves hst with
  | shmOpen hpc => exact inv_followerOpen h hpc ans
  | mmap hpc =>
    exact ⟨h.sizes, h.leaderMap, fun id hid => ⟨mmap_id? hid, by simp⟩, h.inside, h.guard, h.written,
      (by intro hc; cases hc), fun _ => h.before (by rw [hpc]; rfl), (by intro hc; cases hc)⟩
  | test hpc =>
    exact h.followerTo (by simp) (by simp [FollowerPc.copying]) (by simp [hpc, FollowerPc.before])
      (by simp [FollowerPc.copied])
  | fault =>
    exact h.followerTo (by simp) (by simp [FollowerPc.copying]) (by simp [FollowerPc.before])
      (by simp [FollowerPc.copied])
  | setWrite hpc =>
    exact (h.storeGuard (Or.inl rfl)).followerTo (by simp) (by simp [FollowerPc.copying])
      (by simp [hpc, FollowerPc.before]) (by simp [FollowerPc.copied])
  | spin => exact h
  | readSet hpc ha hg => exact inv_waitRead h hpc ha hg
  | byte hpc _ ha => exact inv_memcpy h hpc ha
  | copied hpc hall =>
    exact h.followerTo (by simp) (by simp [hpc, FollowerPc.copying]) (by simp [FollowerPc.before]) (fun _ => hall)
  | shmUnlink hpc =>
    exact h.shmUnlink.followerTo (by simp) (fun _ => by simp [World.shmUnlink, hpc, FollowerPc.copying])
      (by simp [FollowerPc.before]) (fun _ => h.copied (by rw [hpc]; rfl))
  | setDelete hpc =>
    exact (h.storeGuard (Or.inr rfl)).followerTo (by simp) (fun _ => by simp [hpc, FollowerPc.copying])
      (by simp [FollowerPc.before]) (fun _ => h.copied (by rw [hpc]; rfl))

end Step

theorem step_inv {n : ℕ} {w w' : World} {ev : Ev} (h : Inv n w) (hst : Prog n w ev w') : Inv n w' := by
  unfold Prog Takes progStep at hst
  split at hst
  · split_ifs at hst
    exact inv_leaderStep h hst
  · split_ifs at hst
    exact inv_followerStep h hst

/-! ## Release of the leader -/

/-- the leader has done with `shm_open` and `ftruncate` -/
def LeaderPc.opened : LeaderPc → Bool
  | .shmOpen | .ftruncate => false
  | _ => true

/-- the leader has done with `mmap` -/
def LeaderPc.mapped : LeaderPc → Bool
  | .shmOpen | .ftruncate | .mmap => false
  | _ => true

/-- the leader is past its wait for `delete_guard` -/
def LeaderPc.released : LeaderPc → Bool
  | .close => true
  | .returned status => status = 0
  | _ => false

/-- one step of a leader that has opened the object: what it leaves alone, and what lets it out of its last loop -/
structure Leads (w w' : World) : Prop where
  follower : w'.follower = w.follower
  name : w'.name = w.name
  fd : w'.leader.fd = w.leader.fd
  opened : w'.leader.pc.opened
  guard : ∀ id, w'.word id offDeleteGuard = w.word id offDeleteGuard
  released : w'.leader.pc.released → w.leader.pc.released ∨
    ∃ id, w.leader.mapping.id? = some id ∧ w.word id offDeleteGuard ≠ 0
  data : (∀ i, w.leader.pc ≠ .copy i) → ∀ id x, offData ≤ x → (w'.objs id).mem x = (w.objs id).mem x
  sizes : ∀ id, (w'.objs id).size = (w.objs id).size
  mapping : w.leader.pc ≠ .mmap → w'.leader.mapping = w.leader.mapping
  mapped : w'.leader.pc.mapped

theorem LeaderPc.mapped_opened {pc : LeaderPc} (h : pc.mapped = true) : pc.opened = true := by
  cases pc <;> simp_all [LeaderPc.mapped, LeaderPc.opened]

theorem leads_to {w : World} {pc : LeaderPc} (hm : pc.mapped) (hr : pc.released → w.leader.pc.released) :
    Leads w (w.leaderTo pc) :=
  ⟨rfl, rfl, rfl, LeaderPc.mapped_opened hm, fun _ => rfl, fun h => Or.inl (hr h), fun _ _ _ _ => rfl, fun _ => rfl,
    fun _ => rfl, hm⟩

/-- a store of the leader; one that reaches the data is made at `copy` -/
theorem leads_store {w : World} {id off : ℕ} {v : Word} {pc : LeaderPc} (hm : pc.mapped) (hr : pc.released = false)
    (hoff : off + 4 ≤ offDeleteGuard ∨ (offData ≤ off ∧ ∃ i, w.leader.pc = .copy i)) :
    Leads w ((w.storeAt id off v).leaderTo pc) := by
  have hdelete : off + 4 ≤ offDeleteGuard ∨ offDeleteGuard + 4 ≤ off := hoff.imp_right fun h => h.1
  refine ⟨rfl, rfl, rfl, LeaderPc.mapped_opened hm, fun _ => word_storeAt hdelete.symm, fun hrel => ?_,
    fun hpc id' x hx => ?_, fun _ => storeAt_size, fun _ => rfl, hm⟩
  · have hrel' : pc.released = true := hrel
    rw [hr] at hrel'
    cases hrel'
  · rcases hoff with hoff | ⟨-, i, hi⟩
    · have hle : offDeleteGuard ≤ offData := Nat.le_add_right _ _
      exact storeAt_mem (Or.inr (by omega))
    · exact absurd hi (hpc i)

theorem leader_effect {n : ℕ} {w w' : World} {ans : Answer} (ho : w.leader.pc.opened)
    (hst : leaderStep n w ans = some w') : Leads w w' := by
  cases leaderStep_moves hst with
  | shmOpen hpc =>
    rw [hpc] at ho
    cases ho
  | ftruncate hpc =>
    rw [hpc] at ho
    cases ho
  | mmap hpc =>
    exact ⟨rfl, rfl, rfl, rfl, fun _ => rfl, by simp [LeaderPc.released], fun _ _ _ _ => rfl, fun _ => rfl,
      fun hne => absurd hpc hne, rfl⟩
  | test => exact leads_to rfl (by simp [LeaderPc.released])
  | fault => exact leads_to rfl (by simp [LeaderPc.released])
  | spin hpc =>
    have hm : w.leader.pc.mapped := by rcases hpc with hpc | hpc <;> rw [hpc] <;> rfl
    exact leads_to hm id
  | writeSet => exact leads_to rfl (by simp [LeaderPc.released])
  | fill =>
    exact ⟨rfl, rfl, rfl, rfl, fun _ => rfl, by simp [LeaderPc.released], fun _ _ _ _ => rfl, fun _ => rfl,
      fun _ => rfl, rfl⟩
  | @copy i id hpc => exact leads_store rfl rfl (Or.inr ⟨Nat.le_add_right _ _, i, hpc⟩)
  | copied => exact leads_to rfl (by simp [LeaderPc.released])
  | notify => exact leads_store rfl rfl (Or.inl le_rfl)
  | @deleteSet id _ ha hg =>
    exact ⟨rfl, rfl, rfl, rfl, fun _ => rfl, fun _ => Or.inr ⟨id, (access_eq_some.1 ha).1, hg⟩, fun _ _ _ _ => rfl,
      fun _ => rfl, fun _ => rfl, rfl⟩
  | close hpc => exact leads_to rfl (fun _ => by rw [hpc]; rfl)

/-- the follower has done with `mmap` -/
def FollowerPc.mapped : FollowerPc → Bool
  | .shmOpen | .mmap => false
  | _ => true

/-- the follower has accessed its mapping and will access it again -/
def FollowerPc.within : FollowerPc → Bool
  | .waitRead | .memcpy | .shmUnlink | .setDelete => true
  | _ => false

/-- one step of the follower: what it leaves alone, and what it says to the leader -/
structure Follows (w w' : World) : Prop where
  leader : w'.leader = w.leader
  running : w.follower.pc ≠ .returned 0
  name : w'.name = w.name ∨ w'.name = none
  unlinked : w'.follower.pc = .setDelete → w'.name = none
  returned : w'.follower.pc = .returned 0 → w.follower.pc = .setDelete ∧ w'.name = w.name
  guard : ∀ id, w'.word id offDeleteGuard ≠ 0 → w.word id offDeleteGuard ≠ 0 ∨ w'.follower.pc = .returned 0
  data : ∀ id x, offData ≤ x → (w'.objs id).mem x = (w.objs id).mem x
  sizes : ∀ id, (w'.objs id).size = (w.objs id).size
  next : w'.next = w.next
  mapping : w.follower.pc ≠ .mmap → w'.follower.mapping = w.follower.mapping
  mapped : w'.follower.pc.mapped ∨ (w.follower.pc = .shmOpen ∧ w'.follower.pc = .mmap)
  within : w'.follower.pc.within → w.follower.pc.within ∨ w.follower.pc = .setWrite

theorem follows_to {w : World} {pc : FollowerPc} (hrun : w.follower.pc ≠ .returned 0) (hset : pc ≠ .setDelete)
    (hret : pc ≠ .returned 0) (hm : pc.mapped) (hw : pc.within → w.follower.pc.within ∨ w.follower.pc = .setWrite) :
    Follows w (w.followerTo pc) where
  leader := rfl
  running := hrun
  name := Or.inl rfl
  unlinked h := absurd h hset
  returned h := absurd h hret
  guard _ := Or.inl
  data _ _ _ := rfl
  sizes _ := rfl
  next := rfl
  mapping _ := rfl
  mapped := Or.inl hm
  within := hw

/-- a store of the follower -/
theorem follows_store {w : World} {id off : ℕ} {pc : FollowerPc} (hrun : w.follower.pc ≠ .returned 0)
    (hset : pc ≠ .setDelete) (hret : pc = .returned 0 → w.follower.pc = .setDelete) (hm : pc.mapped)
    (hw : pc.within → w.follower.pc.within ∨ w.follower.pc = .setWrite)
    (hoff : off + 4 ≤ offDeleteGuard ∨ (off + 4 ≤ offData ∧ pc = .returned 0)) :
    Follows w ((w.storeAt id off 1).followerTo pc) := by
  have hdata : off + 4 ≤ offData := by
    have hle : offDeleteGuard ≤ offData := Nat.le_add_right _ _
    rcases hoff with h | h
    · omega
    · exact h.1
  refine ⟨rfl, hrun, Or.inl rfl, fun h => absurd h hset, fun h => ⟨hret h, rfl⟩, fun id' hne => ?_, fun id' x hx => ?_,
    fun _ => storeAt_size, rfl, fun _ => rfl, Or.inl hm, hw⟩
  · rcases hoff with hoff | ⟨-, hpc⟩
    · rw [followerTo_word, word_storeAt (Or.inr hoff)] at hne
      exact Or.inl hne
    · exact Or.inr hpc
  · exact storeAt_mem (Or.inr (by omega))

theorem follower_effect {n : ℕ} {w w' : World} {ans : Answer} {byte : Option ℕ}
    (hst : followerStep n w ans byte = some w') : Follows w w' := by
  cases followerStep_moves hst with
  | shmOpen hpc =>
    exact ⟨rfl, by simp [hpc], Or.inl rfl, by simp, by simp, fun _ => Or.inl, fun _ _ _ => rfl, fun _ => rfl, rfl,
      fun _ => rfl, Or.inr ⟨hpc, rfl⟩, by simp [FollowerPc.within]⟩
  | mmap hpc =>
    exact ⟨rfl, by simp [hpc], Or.inl rfl, by simp, by simp, fun _ => Or.inl, fun _ _ _ => rfl, fun _ => rfl, rfl,
      fun hne => absurd hpc hne, Or.inl rfl, by simp [FollowerPc.within]⟩
  | test hpc => exact follows_to (by simp [hpc]) (by simp) (by simp) rfl (by simp [FollowerPc.within])
  | fault hacc =>
    have hrun : w.follower.pc ≠ .returned 0 := by
      intro hret
      rw [hret] at hacc
      cases hacc
    exact follows_to hrun (by simp) (by simp) rfl (by simp [FollowerPc.within])
  | setWrite hpc => exact follows_store (by simp [hpc]) (by simp) (by simp) rfl (fun _ => Or.inr hpc) (Or.inl (by decide))
  | spin hpc =>
    exact follows_to (by simp [hpc]) (by simp [hpc]) (by simp [hpc]) (by rw [hpc]; rfl) Or.inl
  | readSet hpc => exact follows_to (by simp [hpc]) (by simp) (by simp) rfl (fun _ => Or.inl (by rw [hpc]; rfl))
  | byte hpc =>
    have hwithin : w.follower.pc.within := by rw [hpc]; rfl
    exact ⟨rfl, by simp [hpc], Or.inl rfl, by simp [hpc], by simp [hpc], fun _ => Or.inl, fun _ _ _ => rfl,
      fun _ => rfl, rfl, fun _ => rfl, Or.inl (by simp [hpc, FollowerPc.mapped]), fun _ => Or.inl hwithin⟩
  | copied hpc => exact follows_to (by simp [hpc]) (by simp) (by simp) rfl (fun _ => Or.inl (by rw [hpc]; rfl))
  | shmUnlink hpc =>
    exact ⟨rfl, by simp [hpc], Or.inr rfl, fun _ => rfl, by simp [World.followerTo], fun _ => Or.inl,
      fun _ _ _ => rfl, fun _ => rfl, rfl, fun _ => rfl, Or.inl rfl, fun _ => Or.inl (by rw [hpc]; rfl)⟩
  | setDelete hpc =>
    exact follows_store (by simp [hpc]) (by simp) (fun _ => hpc) rfl (by simp [FollowerPc.within])
      (Or.inr ⟨le_rfl, rfl⟩)

/-- on an object that both have mapped: `delete_guard` is set by the follower, when it has done -/
structure Handed (w : World) : Prop where
  opened : w.leader.pc.opened
  guard : ∀ id, w.leader.fd = some id → w.word id offDeleteGuard ≠ 0 → w.follower.pc = .returned 0
  unlinked : w.follower.pc = .setDelete ∨ w.follower.pc = .returned 0 → w.name = none
  released : w.leader.pc.released → w.follower.pc = .returned 0

theorem step_handed {n : ℕ} {w w' : World} {ev : Ev} (hI : Inv n w) (h : Handed w) (hst : Prog n w ev w') :
    Handed w' := by
  unfold Prog Takes progStep at hst
  split at hst
  · split_ifs at hst
    have hL := leader_effect h.opened hst
    refine ⟨hL.opened, fun id hid hne => ?_, fun hu => ?_, fun hrel => ?_⟩
    · rw [hL.fd] at hid
      rw [hL.guard] at hne
      rw [hL.follower]
      exact h.guard id hid hne
    · rw [hL.follower] at hu
      rw [hL.name]
      exact h.unlinked hu
    · rw [hL.follower]
      rcases hL.released hrel with hrel | ⟨id, hm, hne⟩
      · exact h.released hrel
      · exact h.guard id (hI.leaderMap id hm).1 hne
  · split_ifs at hst
    have hF := follower_effect hst
    refine ⟨?_, fun id hid hne => ?_, fun hu => ?_, fun hrel => ?_⟩
    · rw [hF.leader]
      exact h.opened
    · rw [hF.leader] at hid
      rcases hF.guard id hne with hne | hret
      · exact absurd (h.guard id hid hne) hF.running
      · exact hret
    · rcases hu with hu | hu
      · exact hF.unlinked hu
      · obtain ⟨hset, hname⟩ := hF.returned hu
        rw [hname]
        exact h.unlinked (Or.inl hset)
    · rw [hF.leader] at hrel
      exact absurd (h.released hrel) hF.running

/-! ## Delivery -/

/-- what the follower has copied is the array of the leader of this run -/
theorem Inv.delivered {n : ℕ} {w : World} (h : Inv n w) (hc : w.follower.pc.copied) :
    w.leader.pc.notified ∧ ∀ i < n, load w.follower.arr (4 * i) = w.leader.arr i := by
  have hcopying : w.follower.pc.copying := by
    cases hpc : w.follower.pc <;> simp_all [FollowerPc.copied, FollowerPc.copying]
  obtain ⟨id, -, hl, hn, hb⟩ := h.copying hcopying
  refine ⟨hn, fun i hi => ?_⟩
  have hwritten : w.leader.pc.written n = n := by
    cases hpc : w.leader.pc <;> simp_all [LeaderPc.notified, LeaderPc.written]
  calc load w.follower.arr (4 * i)
      = w.word id (offData + 4 * i) := by
        apply load_congr
        intro k hk
        rw [Nat.add_assoc]
        exact hb _ (by omega) (h.copied hc _ (by omega))
    _ = w.leader.arr i := h.written id hl i (by rw [hwritten]; exact hi)

/-- once the follower copies, no step writes data -/
theorem data_frame {n : ℕ} {w w' : World} {ev : Ev} (hI : Inv n w) (h : Handed w) (hc : w.follower.pc.copying)
    (hst : Prog n w ev w') (id x : ℕ) (hx : offData ≤ x) : (w'.objs id).mem x = (w.objs id).mem x := by
  unfold Prog Takes progStep at hst
  split at hst
  · split_ifs at hst
    refine (leader_effect h.opened hst).data (fun i hi => ?_) id x hx
    obtain ⟨-, -, -, hn, -⟩ := hI.copying hc
    rw [hi] at hn
    cases hn
  · split_ifs at hst
    exact (follower_effect hst).data id x hx

theorem inv_bothMapped (n : ℕ) (rand : ℕ → Word) (bl bf : BitVec 64) : Inv n (bothMapped n rand bl bf) where
  sizes id := by
    by_cases hid : id = 0
    · exact Or.inr (if_pos hid)
    · exact Or.inl (if_neg hid)
  leaderMap id hid := ⟨hid, by simp [bothMapped]⟩
  followerMap id hid := ⟨hid, by simp [bothMapped]⟩
  inside h := by cases h
  guard id _ hne := absurd rfl hne
  written id _ i hi := by cases hi
  copying h := by cases h
  before _ _ := rfl
  copied h := by cases h

theorem handed_bothMapped (n : ℕ) (rand : ℕ → Word) (bl bf : BitVec 64) : Handed (bothMapped n rand bl bf) where
  opened := rfl
  guard id _ hne := absurd rfl hne
  unlinked h := by rcases h with h | h <;> cases h
  released h := by cases h

/-- **The hand-over delivers.** -/
theorem handover_delivers (n : ℕ) (rand : ℕ → Word) (bl bf : BitVec 64) {l : List Ev} {w : World}
    (hr : Run (Prog n) (bothMapped n rand bl bf) l w) :
    (w.follower.pc.copied → ∀ i < n, load w.follower.arr (4 * i) = w.leader.arr i) ∧
    (w.follower.pc.copying → ∀ ev w', Prog n w ev w' → ∀ id x, offData ≤ x →
      (w'.objs id).mem x = (w.objs id).mem x) ∧
    (w.leader.pc.released → w.follower.pc.copied ∧ w.name = none) := by
  have hI : Inv n w ∧ Handed w := Run.inv (I := fun w => Inv n w ∧ Handed w)
    (fun _ _ _ h hst => ⟨step_inv h.1 hst, step_handed h.1 h.2 hst⟩) hr
    ⟨inv_bothMapped n rand bl bf, handed_bothMapped n rand bl bf⟩
  refine ⟨fun hc => (hI.1.delivered hc).2, fun hc ev w' hst => data_frame hI.1 hI.2 hc hst, fun hrel => ?_⟩
  have hret := hI.2.released hrel
  exact ⟨by rw [hret]; rfl, hI.2.unlinked (Or.inr hret)⟩

/-- the two programs get there when the leader starts first -/
theorem bothMapped_reached (n : ℕ) (rand : ℕ → Word) (bl bf : BitVec 64) :
    Run (Prog n) (started rand)
      [.leader (some 0), .leader (some 0), .leader (some bl), .follower (some 0) none, .follower (some bf) none]
      (bothMapped n rand bl bf) := by
  have hobjs : Function.update (Function.update (fun _ => Shm.empty) 0 Shm.empty) 0
      (Shm.empty.resize (sizeofSharedData n)) = (bothMapped n rand bl bf).objs := by
    funext id
    by_cases hid : id = 0
    · subst hid
      simp [bothMapped, Shm.resize, Shm.empty]
    · simp [bothMapped, Shm.empty, hid]
  have hw : bothMapped n rand bl bf = { bothMapped n rand bl bf with
      objs := Function.update (Function.update (fun _ => Shm.empty) 0 Shm.empty) 0
        (Shm.empty.resize (sizeofSharedData n)) } := by rw [hobjs]
  rw [hw]
  exact run_takes_iff.2 rfl

/-- steps of the two programs where the kernel has nothing to refuse -/
def leaderSteps (k : ℕ) : List Ev := List.replicate k (.leader (some 0))

def followerSteps (k : ℕ) : List Ev := List.replicate k (.follower (some 0) none)

/-- three elements -/
def threeNumbers (i : ℕ) : Word := if i = 0 then 0x12345678 else if i = 1 then 0xdeadbeef else 7

/-- up to the middle of `memcpy`, which takes the bytes in an order of its own -/
def halfCopied : List Ev :=
  leaderSteps 1 ++ followerSteps 2 ++ leaderSteps 7 ++ followerSteps 1 ++
    [11, 0, 5, 2, 7, 1].map fun j => .follower (some 0) (some j)

/-- the leader looks at `delete_guard` in between -/
def restCopied : List Ev :=
  leaderSteps 1 ++ ([3, 4, 6, 10, 9, 8].map fun j => .follower (some 0) (some j)) ++ followerSteps 3 ++ leaderSteps 2

theorem handover_delivers_three :
    ∃ w v, Run (Prog 3) (bothMapped 3 threeNumbers 0x7f0000000000 0x7f1000000000) halfCopied w ∧
      (∀ ev w', Prog 3 w ev w' → ∀ id x, offData ≤ x → (w'.objs id).mem x = (w.objs id).mem x) ∧
      Run (Prog 3) w restCopied v ∧ v.leader.pc = .returned 0 ∧ v.follower.pc = .returned 0 ∧ v.name = none ∧
      v.leader.arr 1 = 0xdeadbeef ∧ ∀ i < 3, load v.follower.arr (4 * i) = v.leader.arr i := by
  have hhalf : (halfCopied.foldlM (progStep 3) (bothMapped 3 threeNumbers 0x7f0000000000 0x7f1000000000)).map
      (fun w : World => w.follower.pc) = some .memcpy := by rfl
  have hwhole : ((halfCopied ++ restCopied).foldlM (progStep 3)
      (bothMapped 3 threeNumbers 0x7f0000000000 0x7f1000000000)).map
        (fun w : World => (w.leader.pc, w.follower.pc, w.leader.arr 1)) =
      some (.returned 0, .returned 0, 0xdeadbeef) := by rfl
  obtain ⟨w, hw, hcopying⟩ := Option.map_eq_some_iff.1 hhalf
  obtain ⟨v, hv, ho⟩ := Option.map_eq_some_iff.1 hwhole
  simp only [Prod.mk.injEq] at ho
  obtain ⟨hl, hf, harr⟩ := ho
  have hr := run_takes_iff.2 hw
  have hrv := run_takes_iff.2 hv
  rw [List.foldlM_append, hw] at hv
  obtain ⟨-, hframe, -⟩ := handover_delivers 3 _ _ _ hr
  obtain ⟨hdelivered, -, hreleased⟩ := handover_delivers 3 _ _ _ hrv
  exact ⟨w, v, hr, hframe (by rw [hcopying]; rfl), run_takes_iff.2 hv, hl, hf, (hreleased (by rw [hl]; rfl)).2, harr,
    hdelivered (by rw [hf]; rfl)⟩

end Cse422.Handover
