/-
The program `tree_fork.c` of studio 5. Every process runs the loop of `main`: it prints its generation, and below the last
generation it forks twice; both children go back to the head of the loop, and the parent leaves it. After the loop each
process calls `wait(NULL)` once and exits.

The processes take turns in any order; a process is known by its place in the list, and the first one is the root. `wait`
blocks until a child has exited and reaps one that has; without children to reap it returns at once. `main` refuses a
number of generations below 1.

Premises: `fork` gives a child with the variables of its parent, or fails; the processes have no other children, and no
signal ends a process or interrupts a `wait`. A print counts for the process that calls `printf`.

- `step_cases`: all that a step can do;
- `step_work`: every step lowers the work that is left, so every run ends.
-/
import Cse422.Core.Lts
import Cse422.Core.Interleave

namespace Cse422.ForkTree

open Lts

/-! ## main -/

/-- the next statement of a process -/
inductive Pc where
  /-- the test of the `while` -/
  | test
  | print
  /-- `++gen` -/
  | incr
  /-- `if (!(gen < generations))` -/
  | last
  | forkLeft
  | forkRight
  | wait
  | exit
  | exited
  deriving DecidableEq, Repr

structure Proc where
  pc : Pc
  gen : ℕ
  /-- the processes that its calls of `fork` have created -/
  children : List ℕ
  /-- those of them that no `wait` has collected -/
  unreaped : List ℕ
  /-- the generations that it has printed -/
  printed : List ℕ
  deriving DecidableEq, Repr

/-- a process at the head of the loop: the root with `gen` 0, and a child with the `gen` of its parent -/
def fresh (gen : ℕ) : Proc := ⟨.test, gen, [], [], []⟩

def init : List Proc := [fresh 0]

/-- the statements that depend on the process alone -/
def Proc.go (generations : ℕ) (p : Proc) : Option Proc :=
  match p.pc with
  | .test => some { p with pc := if p.gen < generations then .print else .wait }
  | .print => some { p with printed := p.printed ++ [p.gen + 1], pc := .incr }
  | .incr => some { p with gen := p.gen + 1, pc := .last }
  | .last => some { p with pc := if p.gen < generations then .forkLeft else .wait }
  -- `ECHILD`
  | .wait => if p.unreaped = [] then some { p with pc := .exit } else none
  | .exit => some { p with pc := .exited }
  | .forkLeft | .forkRight | .exited => none

/-- where the parent goes on after a `fork`; the second is followed by the `break` -/
def Pc.afterFork : Pc → Option Pc
  | .forkLeft => some .forkRight
  | .forkRight => some .wait
  | _ => none

/-- the parent after a successful `fork` -/
def Proc.forked (p : Proc) (pc : Pc) (child : ℕ) : Proc :=
  { p with pc, children := p.children ++ [child], unreaped := p.unreaped ++ [child] }

def Proc.reaped (p : Proc) (child : ℕ) : Proc := { p with pc := .exit, unreaped := p.unreaped.erase child }

def Exited (s : List Proc) (i : ℕ) : Prop := (s[i]?.map Proc.pc) = some .exited

instance (s : List Proc) (i : ℕ) : Decidable (Exited s i) := inferInstanceAs (Decidable (_ = _))

/-- what the kernel answers to the statement -/
inductive Answer where
  | go
  | fork (ok : Bool)
  | reap (child : ℕ)
  deriving DecidableEq, Repr

structure Event where
  pid : ℕ
  answer : Answer
  deriving DecidableEq, Repr

def step (generations : ℕ) (s : List Proc) (e : Event) : Option (List Proc) :=
  match s[e.pid]? with
  | none => none
  | some p =>
    match e.answer with
    | .go => (p.go generations).map fun q => s.set e.pid q
    | .fork true => p.pc.afterFork.map fun pc => s.set e.pid (p.forked pc s.length) ++ [fresh p.gen]
    -- `exit(-1)`
    | .fork false => p.pc.afterFork.map fun _ => s.set e.pid { p with pc := .exit }
    | .reap c => if p.pc = .wait ∧ c ∈ p.unreaped ∧ Exited s c then some (s.set e.pid (p.reaped c)) else none

/-- the generation that a process prints -/
def Proc.generation (p : Proc) : ℕ := p.printed.headD (p.gen + 1)

/-! ## Steps -/

variable {generations : ℕ} {s t : List Proc} {e : Event} {p q : Proc} {i c : ℕ}

/-- all that a step can do -/
theorem step_cases (h : step generations s e = some t) : ∃ p, s[e.pid]? = some p ∧
    ((∃ q, p.go generations = some q ∧ t = s.set e.pid q) ∨
      (∃ pc, p.pc.afterFork = some pc ∧ t = s.set e.pid (p.forked pc s.length) ++ [fresh p.gen]) ∨
      (∃ pc, p.pc.afterFork = some pc ∧ e.answer = .fork false ∧ t = s.set e.pid { p with pc := .exit }) ∨
      ∃ c, p.pc = .wait ∧ c ∈ p.unreaped ∧ Exited s c ∧ t = s.set e.pid (p.reaped c)) := by
  obtain ⟨pid, answer⟩ := e
  unfold step at h
  cases hp : s[pid]? with
  | none => simp [hp] at h
  | some p =>
    refine ⟨p, rfl, ?_⟩
    simp only [hp] at h
    cases answer with
    | go =>
      obtain ⟨q, hq, rfl⟩ := Option.map_eq_some_iff.1 h
      exact .inl ⟨q, hq, rfl⟩
    | fork ok =>
      cases ok with
      | true =>
        obtain ⟨pc, hpc, rfl⟩ := Option.map_eq_some_iff.1 h
        exact .inr (.inl ⟨pc, hpc, rfl⟩)
      | false =>
        obtain ⟨pc, hpc, rfl⟩ := Option.map_eq_some_iff.1 h
        exact .inr (.inr (.inl ⟨pc, hpc, rfl, rfl⟩))
    | reap c =>
      dsimp only at h
      split_ifs at h with hc
      obtain ⟨hwait, hmem, hex⟩ := hc
      exact .inr (.inr (.inr ⟨c, hwait, hmem, hex, (Option.some.inj h).symm⟩))

theorem step_go (hp : s[i]? = some p) (hq : p.go generations = some q) :
    step generations s ⟨i, .go⟩ = some (s.set i q) := by
  simp only [step, hp, hq, Option.map_some]

theorem step_fork (generations : ℕ) (hp : s[i]? = some p) {pc : Pc} (hpc : p.pc.afterFork = some pc) :
    step generations s ⟨i, .fork true⟩ = some (s.set i (p.forked pc s.length) ++ [fresh p.gen]) := by
  simp only [step, hp, hpc, Option.map_some]

theorem step_reap (generations : ℕ) (hp : s[i]? = some p) (hwait : p.pc = .wait) (hc : c ∈ p.unreaped)
    (hex : Exited s c) :
    step generations s ⟨i, .reap c⟩ = some (s.set i (p.reaped c)) := by
  simp only [step, hp]
  exact if_pos ⟨hwait, hc, hex⟩

/-! ## The work that is left -/

/-- the steps of a process that starts with `r` generations to go, and of all its descendants -/
def treeWork : ℕ → ℕ
  | 0 => 3
  | r + 1 => 8 + 2 * treeWork r

/-- the steps that a process and the descendants that it will still create have left -/
def Proc.work (generations : ℕ) (p : Proc) : ℕ :=
  match p.pc with
  | .test => treeWork (generations - p.gen)
  | .print => 7 + 2 * treeWork (generations - p.gen - 1)
  | .incr => 6 + 2 * treeWork (generations - p.gen - 1)
  | .last => 5 + 2 * treeWork (generations - p.gen)
  | .forkLeft => 4 + 2 * treeWork (generations - p.gen)
  | .forkRight => 3 + treeWork (generations - p.gen)
  | .wait => 2
  | .exit => 1
  | .exited => 0

def work (generations : ℕ) (s : List Proc) : ℕ := (s.map (Proc.work generations)).sum

theorem two_lt_treeWork (r : ℕ) : 2 < treeWork r := by
  cases r with
  | zero => decide
  | succ r =>
    rw [treeWork]
    omega

theorem go_work (h : p.go generations = some q) : q.work generations < p.work generations := by
  obtain ⟨pc, gen, children, unreaped, printed⟩ := p
  cases pc with
  | test =>
    obtain rfl := Option.some.inj h
    dsimp only [Proc.work]
    split_ifs with hlt
    · obtain ⟨r, hr⟩ : ∃ r, generations - gen = r + 1 := ⟨generations - gen - 1, by omega⟩
      rw [hr, treeWork]
      simp
    · exact two_lt_treeWork _
  | print => obtain rfl := Option.some.inj h; simp [Proc.work]
  | incr => obtain rfl := Option.some.inj h; simp [Proc.work, Nat.sub_sub]
  | last =>
    obtain rfl := Option.some.inj h
    dsimp only [Proc.work]
    split_ifs
    · simp
    · dsimp only
      omega
  | wait =>
    dsimp only [Proc.go] at h
    split_ifs at h
    obtain rfl := Option.some.inj h
    simp [Proc.work]
  | exit => obtain rfl := Option.some.inj h; simp [Proc.work]
  | forkLeft => cases h
  | forkRight => cases h
  | exited => cases h

/-- a `fork` shares out the work of the parent -/
theorem forked_work (generations : ℕ) {pc : Pc} (h : p.pc.afterFork = some pc) (child : ℕ) :
    (p.forked pc child).work generations + (fresh p.gen).work generations < p.work generations := by
  obtain ⟨pc', gen, children, unreaped, printed⟩ := p
  cases pc' with
  | forkLeft =>
    obtain rfl := Option.some.inj h
    simp only [Proc.work, Proc.forked, fresh]
    omega
  | forkRight =>
    obtain rfl := Option.some.inj h
    simp only [Proc.work, Proc.forked, fresh]
    omega
  | _ => cases h

theorem set_work (generations : ℕ) (q : Proc) (hp : s[i]? = some p) :
    work generations (s.set i q) + p.work generations = work generations s + q.work generations := sum_map_set _ hp

/-- every step lowers the work that is left -/
theorem step_work (h : step generations s e = some t) : work generations t < work generations s := by
  obtain ⟨p, hp, hcases⟩ := step_cases h
  have hset := fun q => set_work generations q hp
  obtain ⟨q, hq, rfl⟩ | ⟨pc, hpc, rfl⟩ | ⟨pc, hpc, -, rfl⟩ | ⟨c, hwait, -, -, rfl⟩ := hcases
  · have hlt := go_work hq
    have hq := hset q
    omega
  · have hlt := forked_work generations hpc s.length
    have hq := hset (p.forked pc s.length)
    have happ : work generations (s.set e.pid (p.forked pc s.length) ++ [fresh p.gen]) =
        work generations (s.set e.pid (p.forked pc s.length)) + (fresh p.gen).work generations := by
      simp [work]
    omega
  · have hlt : ({ p with pc := .exit } : Proc).work generations < p.work generations := by
      obtain ⟨pc', gen, children, unreaped, printed⟩ := p
      cases pc' with
      | forkLeft => simp only [Proc.work]; omega
      | forkRight => simp only [Proc.work]; omega
      | _ => cases hpc
    have hq := hset { p with pc := .exit }
    omega
  · have hlt : (p.reaped c).work generations < p.work generations := by simp [Proc.work, Proc.reaped, hwait]
    have hq := hset (p.reaped c)
    omega

/-- every run ends: this many steps are enough for all processes together -/
theorem run_length_le {l : List Event} (h : Run (Takes (step generations)) init l s) :
    l.length ≤ treeWork generations := by
  have hle := Run.length_le (I := fun _ => True) (work generations) (fun _ _ _ _ _ => trivial)
    (fun _ _ _ _ hst => step_work hst) h trivial
  have hinit : work generations init = treeWork generations := by simp [work, init, fresh, Proc.work]
  omega

end Cse422.ForkTree
