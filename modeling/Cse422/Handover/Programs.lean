/-
The shared-memory programs (`studios/studio13/leader.c`, `follower.c`, `shared_process.h`): a leader hands an array
to a follower through the shared object "/sharedobj".

`progStep n` takes one step of one of them, where `n` is `SHARE_SIZE` (an `int` constant, so that the loop counters
do not overflow). A step is one access of shared memory, one system call, or local work between them. `lifeStep`
adds that a process can be killed between two steps, and that both programs are started again when both have ended.

An access through a mapping faults where the mapping is not of an object, or the object is too small.

Premises about the kernel and the compiler:
- the members of `shared_data` are volatile: each access in the source is one access of memory, in program order, and the
  processes see one memory. The bytes of a `memcpy` may be read in any order;
- `shm_open`, `ftruncate` and `mmap` fail or do what POSIX says; the address of a mapping is any; an object lives on
  without its name while somebody has it mapped, and `close` and the end of a process change no object;
- a killed process takes no further step, and its stores before that stay.

`leaderStep_moves` and `followerStep_moves` list what a step can do; no later module unfolds a whole step function.
-/
import Cse422.Core.Lts
import Cse422.Core.Words

namespace Cse422.Handover

open Lts Words

/-! ## shared_process.h -/

/-- the value of `SHARE_SIZE`; the results are for any -/
def shareSize : ℕ := 2000000

/-- the members of `shared_data` follow each other without padding, each an `int` but the last, which is an array -/
def offWriteGuard : ℕ := 0
def offReadGuard : ℕ := offWriteGuard + 4
def offDeleteGuard : ℕ := offReadGuard + 4
def offData : ℕ := offDeleteGuard + 4

/-- `sizeof(shared_data)` -/
def sizeofSharedData (n : ℕ) : ℕ := offData + 4 * n

/-! ## Processes -/

/-- what `mmap` returned: `MAP_FAILED`, or the address of a mapping of an object -/
inductive Mapping where
  | failed
  | object (base : BitVec 64) (id : ℕ)

def Mapping.addr : Mapping → BitVec 64
  | .failed => BitVec.allOnes 64
  | .object base _ => base

/-- `mapping < 0`: addresses compare as unsigned numbers -/
def Mapping.ltZero (m : Mapping) : Bool := m.addr.ult 0#64

def Mapping.id? : Mapping → Option ℕ
  | .failed => none
  | .object _ id => some id

/-- the next statement of the leader's `main` -/
inductive LeaderPc where
  | shmOpen
  | ftruncate
  | mmap
  /-- `if (mapping < 0)` -/
  | test
  /-- `while (data->write_guard == 0)` -/
  | waitWrite
  /-- the loop over `rand()` -/
  | fill
  /-- `data->data[i] = arr[i]` -/
  | copy (i : ℕ)
  /-- `data->read_guard = 1` -/
  | notify
  /-- `while (data->delete_guard == 0)` -/
  | waitDelete
  | close
  | returned (status : ℤ)
  | faulted
  deriving DecidableEq, Repr

structure Leader where
  pc : LeaderPc
  /-- the object behind `shm_fd`, none for -1 -/
  fd : Option ℕ
  mapping : Mapping
  /-- what the calls of `rand` return -/
  rand : ℕ → Word
  arr : ℕ → Word
  alive : Bool

/-- the next statement of the follower's `main` -/
inductive FollowerPc where
  | shmOpen
  | mmap
  | test
  /-- `data->write_guard = 1` -/
  | setWrite
  /-- `while (data->read_guard == 0)` -/
  | waitRead
  /-- in `memcpy`, which copies its bytes in any order -/
  | memcpy
  | shmUnlink
  /-- `data->delete_guard = 1` -/
  | setDelete
  | returned (status : ℤ)
  | faulted
  deriving DecidableEq, Repr

structure Follower where
  pc : FollowerPc
  fd : Option ℕ
  mapping : Mapping
  /-- the bytes of the local array -/
  arr : Mem
  /-- the bytes that `memcpy` has written -/
  copied : ℕ → Bool
  alive : Bool

/-! ## Shared objects -/

/-- a shared object; the bytes past its size are not there yet, and are zero when it grows -/
structure Shm where
  size : ℕ
  mem : Mem

def Shm.resize (o : Shm) (size : ℕ) : Shm := ⟨size, fun x => if x < o.size ∧ x < size then o.mem x else 0⟩

structure World where
  /-- the objects created so far, those below `next` -/
  objs : ℕ → Shm
  next : ℕ
  /-- the object that "/sharedobj" names -/
  name : Option ℕ
  leader : Leader
  follower : Follower

/-- what the kernel answers to a call: success, with an address for a mapping, or failure -/
abbrev Answer := Option (BitVec 64)

/-- `shm_open` with `O_CREAT` -/
def World.shmOpenCreate (w : World) : Answer → World × Option ℕ
  | none => (w, none)
  | some _ =>
    match w.name with
    | some id => (w, some id)
    | none =>
      ({ w with objs := Function.update w.objs w.next ⟨0, fun _ => 0⟩, next := w.next + 1, name := some w.next },
        some w.next)

/-- `shm_open` without `O_CREAT` -/
def World.shmOpen (w : World) : Answer → Option ℕ
  | none => none
  | some _ => w.name

/-- `ftruncate`, whose result nobody looks at -/
def World.ftruncate (w : World) (fd : Option ℕ) (size : ℕ) : Answer → World
  | none => w
  | some _ =>
    match fd with
    | none => w
    | some id =>
      { w with objs := Function.update w.objs id ((w.objs id).resize size) }

def mmap (fd : Option ℕ) : Answer → Mapping
  | none => .failed
  | some base =>
    match fd with
    | none => .failed
    | some id => .object base id

def World.shmUnlink (w : World) : World := { w with name := none }

/-- the object behind `len` bytes of a mapping from `off` on, unless the access faults -/
def World.access (w : World) (m : Mapping) (off len : ℕ) : Option ℕ :=
  match m with
  | .failed => none
  | .object _ id => if off + len ≤ (w.objs id).size then some id else none

def World.storeAt (w : World) (id off : ℕ) (v : Word) : World :=
  { w with objs := Function.update w.objs id ⟨(w.objs id).size, store (w.objs id).mem off v⟩ }

/-- the `int` at `off` in an object -/
def World.word (w : World) (id off : ℕ) : Word := load (w.objs id).mem off

/-! ## leader.c -/

def World.leaderTo (w : World) (pc : LeaderPc) : World := { w with leader := { w.leader with pc := pc } }

/-- a loop that reads an `int` until it is not zero, and a store, in the leader -/
def World.leaderWait (w : World) (off : ℕ) (pc : LeaderPc) : World :=
  match w.access w.leader.mapping off 4 with
  | none => w.leaderTo .faulted
  | some id => if w.word id off = 0 then w else w.leaderTo pc

def World.leaderStore (w : World) (off : ℕ) (v : Word) (pc : LeaderPc) : World :=
  match w.access w.leader.mapping off 4 with
  | none => w.leaderTo .faulted
  | some id => (w.storeAt id off v).leaderTo pc

def leaderStep (n : ℕ) (w : World) (ans : Answer) : Option World :=
  match w.leader.pc with
  | .shmOpen =>
    let r := w.shmOpenCreate ans
    some { r.1 with leader := { w.leader with fd := r.2, pc := .ftruncate } }
  | .ftruncate => some ((w.ftruncate w.leader.fd (sizeofSharedData n) ans).leaderTo .mmap)
  | .mmap => some { w with leader := { w.leader with mapping := mmap w.leader.fd ans, pc := .test } }
  | .test => some (w.leaderTo (if w.leader.mapping.ltZero then .returned (-1) else .waitWrite))
  | .waitWrite => some (w.leaderWait offWriteGuard .fill)
  | .fill => some { w with leader := { w.leader with arr := w.leader.rand, pc := .copy 0 } }
  | .copy i =>
    if i < n then some (w.leaderStore (offData + 4 * i) (w.leader.arr i) (.copy (i + 1)))
    else some (w.leaderTo .notify)
  | .notify => some (w.leaderStore offReadGuard 1 .waitDelete)
  | .waitDelete => some (w.leaderWait offDeleteGuard .close)
  | .close => some (w.leaderTo (.returned 0))
  | .returned _ | .faulted => none

/-! ## follower.c -/

def World.followerTo (w : World) (pc : FollowerPc) : World := { w with follower := { w.follower with pc := pc } }

def World.followerStore (w : World) (off : ℕ) (v : Word) (pc : FollowerPc) : World :=
  match w.access w.follower.mapping off 4 with
  | none => w.followerTo .faulted
  | some id => (w.storeAt id off v).followerTo pc

/-- `memcpy(arr, data + 12, SHARE_SIZE * sizeof(int))`: it copies byte `j`, or returns when it has copied them all -/
def World.memcpy (n : ℕ) (w : World) : Option ℕ → Option World
  | none => if (List.range (4 * n)).all w.follower.copied then some (w.followerTo .shmUnlink) else none
  | some j =>
    if j < 4 * n then
      match w.access w.follower.mapping (12 + j) 1 with
      | none => some (w.followerTo .faulted)
      | some id => some { w with follower := { w.follower with
          arr := Function.update w.follower.arr j ((w.objs id).mem (12 + j))
          copied := Function.update w.follower.copied j true } }
    else none

def followerStep (n : ℕ) (w : World) (ans : Answer) (byte : Option ℕ) : Option World :=
  match w.follower.pc with
  | .shmOpen => some { w with follower := { w.follower with fd := w.shmOpen ans, pc := .mmap } }
  | .mmap => some { w with follower := { w.follower with mapping := mmap w.follower.fd ans, pc := .test } }
  | .test => some (w.followerTo (if w.follower.mapping.ltZero then .returned (-1) else .setWrite))
  | .setWrite => some (w.followerStore offWriteGuard 1 .waitRead)
  | .waitRead =>
    match w.access w.follower.mapping offReadGuard 4 with
    | none => some (w.followerTo .faulted)
    | some id => some (if w.word id offReadGuard = 0 then w else w.followerTo .memcpy)
  | .memcpy => w.memcpy n byte
  | .shmUnlink => some (w.shmUnlink.followerTo .setDelete)
  | .setDelete => some (w.followerStore offDeleteGuard 1 (.returned 0))
  | .returned _ | .faulted => none

/-! ## Runs -/

/-- a step of one of the programs, with the answer of the kernel and, in `memcpy`, the byte to copy next -/
inductive Ev where
  | leader (ans : Answer)
  | follower (ans : Answer) (byte : Option ℕ)

def progStep (n : ℕ) (w : World) : Ev → Option World
  | .leader ans => if w.leader.alive then leaderStep n w ans else none
  | .follower ans byte => if w.follower.alive then followerStep n w ans byte else none

inductive LifeEv where
  | prog (ev : Ev)
  | killLeader
  | killFollower
  /-- both programs are started, and this is what `rand` will return in the leader -/
  | start (rand : ℕ → Word)

def Leader.ended (p : Leader) : Bool :=
  !p.alive || match p.pc with
    | .returned _ | .faulted => true
    | _ => false

def Follower.ended (p : Follower) : Bool :=
  !p.alive || match p.pc with
    | .returned _ | .faulted => true
    | _ => false

def startLeader (rand : ℕ → Word) : Leader := ⟨.shmOpen, none, .failed, rand, fun _ => 0, true⟩

def startFollower : Follower := ⟨.shmOpen, none, .failed, fun _ => 0, fun _ => false, true⟩

def lifeStep (n : ℕ) (w : World) : LifeEv → Option World
  | .prog ev => progStep n w ev
  | .killLeader => some { w with leader := { w.leader with alive := false } }
  | .killFollower => some { w with follower := { w.follower with alive := false } }
  | .start rand =>
    if w.leader.ended && w.follower.ended then
      some { w with leader := startLeader rand, follower := startFollower }
    else none

/-- both programs have been started, and there is no shared object -/
def started (rand : ℕ → Word) : World :=
  ⟨fun _ => ⟨0, fun _ => 0⟩, 0, none, startLeader rand, startFollower⟩

/-- no program runs, and there is no shared object -/
def idle : World :=
  let w := started fun _ => 0
  { w with leader := { w.leader with alive := false }, follower := { w.follower with alive := false } }

/-- both programs have mapped an object that is new and zero-filled, at the addresses `bl` and `bf` -/
def bothMapped (n : ℕ) (rand : ℕ → Word) (bl bf : BitVec 64) : World where
  objs := fun id => ⟨if id = 0 then sizeofSharedData n else 0, fun _ => 0⟩
  next := 1
  name := some 0
  leader := { startLeader rand with pc := .test, fd := some 0, mapping := .object bl 0 }
  follower := { startFollower with pc := .test, fd := some 0, mapping := .object bf 0 }

abbrev Prog (n : ℕ) : World → Ev → World → Prop := Takes (progStep n)

abbrev Life (n : ℕ) : World → LifeEv → World → Prop := Takes (lifeStep n)

/-! ## Spec lemmas -/

/-- no address is below zero, so the test never sees a failure -/
@[simp] theorem ltZero_eq_false (m : Mapping) : m.ltZero = false := by
  simp [Mapping.ltZero, BitVec.ult]

theorem access_eq_some {w : World} {m : Mapping} {off len id : ℕ} :
    w.access m off len = some id ↔ m.id? = some id ∧ off + len ≤ (w.objs id).size := by
  unfold World.access
  cases m with
  | failed => simp [Mapping.id?]
  | object base id' =>
    simp only [Mapping.id?, Option.ite_none_right_eq_some, Option.some.injEq]
    constructor
    · rintro ⟨h, rfl⟩
      exact ⟨rfl, h⟩
    · rintro ⟨rfl, h⟩
      exact ⟨h, rfl⟩

theorem mmap_id? {fd : Option ℕ} {ans : Answer} {id : ℕ} (h : (mmap fd ans).id? = some id) : fd = some id := by
  unfold mmap at h
  split at h
  · cases h
  · split at h
    · cases h
    · exact h

/-- the empty object -/
def Shm.empty : Shm := ⟨0, fun _ => 0⟩

/-- `shm_open` with `O_CREAT` leaves every object as it is, but a new one is empty -/
theorem shmOpenCreate_spec (w : World) (ans : Answer) :
    (w.shmOpenCreate ans).1.follower = w.follower ∧
    (∀ id, (w.shmOpenCreate ans).1.objs id = w.objs id ∨ (w.shmOpenCreate ans).1.objs id = Shm.empty) ∧
    ∀ id, (w.shmOpenCreate ans).1.name = some id →
      w.name = some id ∨ (w.shmOpenCreate ans).1.objs id = Shm.empty := by
  unfold World.shmOpenCreate
  split
  · exact ⟨rfl, fun _ => Or.inl rfl, fun _ h => Or.inl h⟩
  · split
    · exact ⟨rfl, fun _ => Or.inl rfl, fun _ h => Or.inl h⟩
    · refine ⟨rfl, fun id => ?_, fun id h => ?_⟩
      · by_cases hid : id = w.next
        · subst hid
          exact Or.inr (Function.update_self _ _ _)
        · exact Or.inl (Function.update_of_ne hid _ _)
      · obtain rfl := Option.some.inj h
        exact Or.inr (Function.update_self _ _ _)

/-- `ftruncate` leaves every object as it is or resizes it -/
theorem ftruncate_spec (w : World) (fd : Option ℕ) (size : ℕ) (ans : Answer) :
    (w.ftruncate fd size ans).name = w.name ∧ (w.ftruncate fd size ans).leader = w.leader ∧
    (w.ftruncate fd size ans).follower = w.follower ∧
    ∀ id, (w.ftruncate fd size ans).objs id = w.objs id ∨
      (w.ftruncate fd size ans).objs id = (w.objs id).resize size := by
  unfold World.ftruncate
  split
  · exact ⟨rfl, rfl, rfl, fun _ => Or.inl rfl⟩
  · split
    · exact ⟨rfl, rfl, rfl, fun _ => Or.inl rfl⟩
    · rename_i fd'
      refine ⟨rfl, rfl, rfl, fun id => ?_⟩
      by_cases hid : id = fd'
      · subst hid
        exact Or.inr (Function.update_self _ _ _)
      · exact Or.inl (Function.update_of_ne hid _ _)

/-- a word that is zero stays zero when the object is resized -/
theorem load_resize {o : Shm} {size off : ℕ} (h : load o.mem off = 0) : load (o.resize size).mem off = 0 := by
  rw [load_eq_zero] at h ⊢
  intro k hk
  show (if _ then o.mem (off + k) else 0) = 0
  split_ifs
  · exact h k hk
  · rfl

section Fields

variable {w : World}

@[simp] theorem leaderTo_objs (pc : LeaderPc) : (w.leaderTo pc).objs = w.objs := rfl
@[simp] theorem leaderTo_name (pc : LeaderPc) : (w.leaderTo pc).name = w.name := rfl
@[simp] theorem leaderTo_follower (pc : LeaderPc) : (w.leaderTo pc).follower = w.follower := rfl
@[simp] theorem leaderTo_word (pc : LeaderPc) (id off : ℕ) : (w.leaderTo pc).word id off = w.word id off := rfl
@[simp] theorem followerTo_objs (pc : FollowerPc) : (w.followerTo pc).objs = w.objs := rfl
@[simp] theorem followerTo_name (pc : FollowerPc) : (w.followerTo pc).name = w.name := rfl
@[simp] theorem followerTo_leader (pc : FollowerPc) : (w.followerTo pc).leader = w.leader := rfl
@[simp] theorem followerTo_word (pc : FollowerPc) (id off : ℕ) : (w.followerTo pc).word id off = w.word id off := rfl
@[simp] theorem storeAt_name (id off : ℕ) (v : Word) : (w.storeAt id off v).name = w.name := rfl
@[simp] theorem storeAt_leader (id off : ℕ) (v : Word) : (w.storeAt id off v).leader = w.leader := rfl
@[simp] theorem storeAt_follower (id off : ℕ) (v : Word) : (w.storeAt id off v).follower = w.follower := rfl

end Fields

section Store

variable {w : World} {id id' off off' x : ℕ} {v : Word}

@[simp] theorem storeAt_size : ((w.storeAt id off v).objs id').size = (w.objs id').size := by
  unfold World.storeAt
  by_cases h : id' = id
  · subst h
    simp
  · simp [Function.update_of_ne h]

/-- a store changes no byte outside its word -/
theorem storeAt_mem (h : x < off ∨ off + 4 ≤ x) : ((w.storeAt id off v).objs id').mem x = (w.objs id').mem x := by
  unfold World.storeAt
  by_cases hid : id' = id
  · subst hid
    simp [store_frame v h]
  · simp [Function.update_of_ne hid]

theorem word_storeAt (h : off' + 4 ≤ off ∨ off + 4 ≤ off') : (w.storeAt id off v).word id' off' = w.word id' off' :=
  load_congr fun _ _ => storeAt_mem (by omega)

@[simp] theorem word_storeAt_self : (w.storeAt id off v).word id off = v := by
  simp [World.storeAt, World.word]

theorem word_storeAt_of_ne (h : id' ≠ id) : (w.storeAt id off v).word id' off' = w.word id' off' := by
  simp [World.storeAt, World.word, Function.update_of_ne h]

end Store

/-! ## What a step does -/

/-- the offset of the `int` that the leader accesses at a place -/
def LeaderPc.offset? : LeaderPc → Option ℕ
  | .waitWrite => some offWriteGuard
  | .copy i => some (offData + 4 * i)
  | .notify => some offReadGuard
  | .waitDelete => some offDeleteGuard
  | _ => none

/-- the steps of the leader -/
inductive LeaderMoves (n : ℕ) (w : World) (ans : Answer) : World → Prop
  | shmOpen : w.leader.pc = .shmOpen → LeaderMoves n w ans { (w.shmOpenCreate ans).1 with
      leader := { w.leader with fd := (w.shmOpenCreate ans).2, pc := .ftruncate } }
  | ftruncate : w.leader.pc = .ftruncate →
      LeaderMoves n w ans ((w.ftruncate w.leader.fd (sizeofSharedData n) ans).leaderTo .mmap)
  | mmap : w.leader.pc = .mmap →
      LeaderMoves n w ans { w with leader := { w.leader with mapping := mmap w.leader.fd ans, pc := .test } }
  | test : w.leader.pc = .test → LeaderMoves n w ans (w.leaderTo .waitWrite)
  /-- the access at the place faults -/
  | fault {off : ℕ} : w.leader.pc.offset? = some off → w.access w.leader.mapping off 4 = none →
      LeaderMoves n w ans (w.leaderTo .faulted)
  /-- a turn of a loop that waits -/
  | spin : w.leader.pc = .waitWrite ∨ w.leader.pc = .waitDelete → LeaderMoves n w ans w
  | writeSet {id : ℕ} : w.leader.pc = .waitWrite → w.access w.leader.mapping offWriteGuard 4 = some id →
      w.word id offWriteGuard ≠ 0 → LeaderMoves n w ans (w.leaderTo .fill)
  | fill : w.leader.pc = .fill →
      LeaderMoves n w ans { w with leader := { w.leader with arr := w.leader.rand, pc := .copy 0 } }
  | copy {i id : ℕ} : w.leader.pc = .copy i → i < n → w.access w.leader.mapping (offData + 4 * i) 4 = some id →
      LeaderMoves n w ans ((w.storeAt id (offData + 4 * i) (w.leader.arr i)).leaderTo (.copy (i + 1)))
  | copied {i : ℕ} : w.leader.pc = .copy i → n ≤ i → LeaderMoves n w ans (w.leaderTo .notify)
  | notify {id : ℕ} : w.leader.pc = .notify → w.access w.leader.mapping offReadGuard 4 = some id →
      LeaderMoves n w ans ((w.storeAt id offReadGuard 1).leaderTo .waitDelete)
  | deleteSet {id : ℕ} : w.leader.pc = .waitDelete → w.access w.leader.mapping offDeleteGuard 4 = some id →
      w.word id offDeleteGuard ≠ 0 → LeaderMoves n w ans (w.leaderTo .close)
  | close : w.leader.pc = .close → LeaderMoves n w ans (w.leaderTo (.returned 0))

theorem leaderStep_moves {n : ℕ} {w w' : World} {ans : Answer} (h : leaderStep n w ans = some w') :
    LeaderMoves n w ans w' := by
  cases hpc : w.leader.pc with
  | shmOpen =>
    simp only [leaderStep, hpc, Option.some.injEq] at h
    exact h ▸ .shmOpen hpc
  | ftruncate =>
    simp only [leaderStep, hpc, Option.some.injEq] at h
    exact h ▸ .ftruncate hpc
  | mmap =>
    simp only [leaderStep, hpc, Option.some.injEq] at h
    exact h ▸ .mmap hpc
  | test =>
    simp only [leaderStep, hpc, ltZero_eq_false, Bool.false_eq_true, if_false, Option.some.injEq] at h
    exact h ▸ .test hpc
  | waitWrite =>
    simp only [leaderStep, hpc, World.leaderWait, Option.some.injEq] at h
    cases ha : w.access w.leader.mapping offWriteGuard 4 with
    | none =>
      simp only [ha] at h
      exact h ▸ .fault (by rw [hpc]; rfl) ha
    | some id =>
      simp only [ha] at h
      split_ifs at h with hg
      · exact h ▸ .spin (Or.inl hpc)
      · exact h ▸ .writeSet hpc ha hg
  | fill =>
    simp only [leaderStep, hpc, Option.some.injEq] at h
    exact h ▸ .fill hpc
  | copy i =>
    simp only [leaderStep, hpc] at h
    split_ifs at h with hi
    · simp only [World.leaderStore, Option.some.injEq] at h
      cases ha : w.access w.leader.mapping (offData + 4 * i) 4 with
      | none =>
        simp only [ha] at h
        exact h ▸ .fault (by rw [hpc]; rfl) ha
      | some id =>
        simp only [ha] at h
        exact h ▸ .copy hpc hi ha
    · exact Option.some.inj h ▸ .copied hpc (not_lt.1 hi)
  | notify =>
    simp only [leaderStep, hpc, World.leaderStore, Option.some.injEq] at h
    cases ha : w.access w.leader.mapping offReadGuard 4 with
    | none =>
      simp only [ha] at h
      exact h ▸ .fault (by rw [hpc]; rfl) ha
    | some id =>
      simp only [ha] at h
      exact h ▸ .notify hpc ha
  | waitDelete =>
    simp only [leaderStep, hpc, World.leaderWait, Option.some.injEq] at h
    cases ha : w.access w.leader.mapping offDeleteGuard 4 with
    | none =>
      simp only [ha] at h
      exact h ▸ .fault (by rw [hpc]; rfl) ha
    | some id =>
      simp only [ha] at h
      split_ifs at h with hg
      · exact h ▸ .spin (Or.inr hpc)
      · exact h ▸ .deleteSet hpc ha hg
  | close =>
    simp only [leaderStep, hpc, Option.some.injEq] at h
    exact h ▸ .close hpc
  | returned status => simp [leaderStep, hpc] at h
  | faulted => simp [leaderStep, hpc] at h

/-- the follower accesses its mapping -/
def FollowerPc.accesses : FollowerPc → Bool
  | .setWrite | .waitRead | .memcpy | .setDelete => true
  | _ => false

/-- the steps of the follower -/
inductive FollowerMoves (n : ℕ) (w : World) (ans : Answer) : World → Prop
  | shmOpen : w.follower.pc = .shmOpen →
      FollowerMoves n w ans { w with follower := { w.follower with fd := w.shmOpen ans, pc := .mmap } }
  | mmap : w.follower.pc = .mmap →
      FollowerMoves n w ans { w with follower := { w.follower with mapping := mmap w.follower.fd ans, pc := .test } }
  | test : w.follower.pc = .test → FollowerMoves n w ans (w.followerTo .setWrite)
  /-- the access at the place faults -/
  | fault : w.follower.pc.accesses → FollowerMoves n w ans (w.followerTo .faulted)
  | setWrite {id : ℕ} : w.follower.pc = .setWrite → w.access w.follower.mapping offWriteGuard 4 = some id →
      FollowerMoves n w ans ((w.storeAt id offWriteGuard 1).followerTo .waitRead)
  /-- a turn of the loop that waits -/
  | spin : w.follower.pc = .waitRead → FollowerMoves n w ans w
  | readSet {id : ℕ} : w.follower.pc = .waitRead → w.access w.follower.mapping offReadGuard 4 = some id →
      w.word id offReadGuard ≠ 0 → FollowerMoves n w ans (w.followerTo .memcpy)
  /-- `memcpy` copies a byte -/
  | byte {id j : ℕ} : w.follower.pc = .memcpy → j < 4 * n → w.access w.follower.mapping (12 + j) 1 = some id →
      FollowerMoves n w ans { w with follower := { w.follower with
        arr := Function.update w.follower.arr j ((w.objs id).mem (12 + j))
        copied := Function.update w.follower.copied j true } }
  /-- `memcpy` returns -/
  | copied : w.follower.pc = .memcpy → (∀ j < 4 * n, w.follower.copied j) →
      FollowerMoves n w ans (w.followerTo .shmUnlink)
  | shmUnlink : w.follower.pc = .shmUnlink → FollowerMoves n w ans (w.shmUnlink.followerTo .setDelete)
  | setDelete {id : ℕ} : w.follower.pc = .setDelete → w.access w.follower.mapping offDeleteGuard 4 = some id →
      FollowerMoves n w ans ((w.storeAt id offDeleteGuard 1).followerTo (.returned 0))

theorem memcpy_moves {n : ℕ} {w w' : World} {ans : Answer} {byte : Option ℕ} (hpc : w.follower.pc = .memcpy)
    (h : w.memcpy n byte = some w') : FollowerMoves n w ans w' := by
  cases byte with
  | none =>
    simp only [World.memcpy] at h
    split_ifs at h with hall
    exact Option.some.inj h ▸ .copied hpc fun j hj => List.all_eq_true.1 hall j (List.mem_range.2 hj)
  | some j =>
    simp only [World.memcpy] at h
    split_ifs at h with hj
    cases ha : w.access w.follower.mapping (12 + j) 1 with
    | none =>
      simp only [ha, Option.some.injEq] at h
      exact h ▸ .fault (by rw [hpc]; rfl)
    | some id =>
      simp only [ha, Option.some.injEq] at h
      exact h ▸ .byte hpc hj ha

theorem followerStep_moves {n : ℕ} {w w' : World} {ans : Answer} {byte : Option ℕ}
    (h : followerStep n w ans byte = some w') : FollowerMoves n w ans w' := by
  cases hpc : w.follower.pc with
  | shmOpen =>
    simp only [followerStep, hpc, Option.some.injEq] at h
    exact h ▸ .shmOpen hpc
  | mmap =>
    simp only [followerStep, hpc, Option.some.injEq] at h
    exact h ▸ .mmap hpc
  | test =>
    simp only [followerStep, hpc, ltZero_eq_false, Bool.false_eq_true, if_false, Option.some.injEq] at h
    exact h ▸ .test hpc
  | setWrite =>
    simp only [followerStep, hpc, World.followerStore, Option.some.injEq] at h
    cases ha : w.access w.follower.mapping offWriteGuard 4 with
    | none =>
      simp only [ha] at h
      exact h ▸ .fault (by rw [hpc]; rfl)
    | some id =>
      simp only [ha] at h
      exact h ▸ .setWrite hpc ha
  | waitRead =>
    simp only [followerStep, hpc] at h
    cases ha : w.access w.follower.mapping offReadGuard 4 with
    | none =>
      simp only [ha, Option.some.injEq] at h
      exact h ▸ .fault (by rw [hpc]; rfl)
    | some id =>
      simp only [ha, Option.some.injEq] at h
      split_ifs at h with hg
      · exact h ▸ .spin hpc
      · exact h ▸ .readSet hpc ha hg
  | memcpy =>
    simp only [followerStep, hpc] at h
    exact memcpy_moves hpc h
  | shmUnlink =>
    simp only [followerStep, hpc, Option.some.injEq] at h
    exact h ▸ .shmUnlink hpc
  | setDelete =>
    simp only [followerStep, hpc, World.followerStore, Option.some.injEq] at h
    cases ha : w.access w.follower.mapping offDeleteGuard 4 with
    | none =>
      simp only [ha] at h
      exact h ▸ .fault (by rw [hpc]; rfl)
    | some id =>
      simp only [ha] at h
      exact h ▸ .setDelete hpc ha
  | returned status => simp [followerStep, hpc] at h
  | faulted => simp [followerStep, hpc] at h

end Cse422.Handover
