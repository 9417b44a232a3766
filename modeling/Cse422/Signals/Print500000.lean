/-
`print500000.c`: two loops over `i < size` in `main`, and a handler of SIGINT that stores to `called[i]`.

`main` goes step by step; the increment of the volatile `i` is a read and a write, and a call of `printf` begins and
returns. SIGINT comes between any two steps, and its handler runs to the end there. `size` is a parameter.

Premises about the kernel and the C library:
- SIGINT is blocked while its handler runs, and `sigaction` succeeds. An event here is a SIGINT that is delivered: one
  that is sent while another is pending is not an event of its own;
- `printf` writes all it is given, in the order of the calls, and what is buffered is written at the exit. It is not
  safe in a handler: where the handler comes inside a `printf` of `main`, text may be lost or doubled, and from there on
  nothing is known of the output. `main` goes on, and `i` and `called` are as they were.

- `LoopInv`: where `i` is at every place of `main`. Between the last increment of a loop and what follows it, `i` is
  `size`;
- `stores_inBounds_iff`: in every run, the handler has stayed inside the array exactly when no SIGINT was handled at
  such a place (`Inside`);
- `stores_outside`: for every size there is a run in which one is.
-/
import Cse422.Signals.Programs

namespace Cse422.Print500000

open Lts Signals

/-! ## The program -/

inductive Loop where
  | first | second
  deriving DecidableEq, Repr

/-- the places of `main` -/
inductive Main where
  /-- before `sigaction` -/
  | install
  /-- before `i = 0` -/
  | init (l : Loop)
  | test (l : Loop)
  /-- before `printf` -/
  | print (l : Loop)
  /-- in `printf`, with the value it was called with -/
  | printing (l : Loop) (x : ℕ)
  /-- before `if (shouldterm)` -/
  | check
  /-- before `if (called[i] == 1)` -/
  | called
  | incRead (l : Loop)
  /-- in `i++`, with the value that was read -/
  | incWrite (l : Loop) (x : ℕ)
  /-- after the second loop -/
  | ret
  | exited
  /-- ended by SIGINT -/
  | killed
  deriving DecidableEq, Repr

inductive Line where
  | number (i : ℕ)
  | interrupted (i : ℕ)
  | caught
  deriving DecidableEq, Repr

structure State where
  main : Main
  i : ℕ
  shouldterm : Bool
  /-- the indices of the stores `called[i] = 1` -/
  stored : List ℕ
  /-- what is printed, unless a handler has come inside a `printf` -/
  out : Option (List Line)
  /-- a store outside the array, or `i` counted past the largest `int`: nothing is known of what follows -/
  undef : Bool
  deriving DecidableEq, Repr

def init : State := ⟨.install, 0, false, [], some [], false⟩

/-- where a loop goes on while `i < size` -/
def Loop.body : Loop → Main
  | .first => .print .first
  | .second => .called

def Loop.next : Loop → Main
  | .first => .init .second
  | .second => .ret

def Loop.line : Loop → ℕ → Line
  | .first => .number
  | .second => .interrupted

def Loop.printed : Loop → Main
  | .first => .check
  | .second => .incRead .second

def State.say (s : State) (line : Line) : Option (List Line) := s.out.map fun out => out ++ [line]

def State.mainStep (size : ℕ) (s : State) : Option State :=
  match s.main with
  | .install => some { s with main := .init .first }
  | .init l => some { s with i := 0, main := .test l }
  | .test l => some { s with main := if s.i < size then l.body else l.next }
  | .print l => some { s with main := .printing l s.i }
  | .printing l x => some { s with out := s.say (l.line x), main := l.printed }
  | .check => some { s with main := if s.shouldterm then .init .second else .incRead .first }
  | .called => some { s with main := if s.i ∈ s.stored then .print .second else .incRead .second }
  | .incRead l => some { s with main := .incWrite l s.i }
  | .incWrite l x => some (if x = intMax then { s with undef := true } else { s with i := x + 1, main := .test l })
  | .ret => some { s with main := .exited }
  | .exited | .killed => none

def Main.inPrintf : Main → Bool
  | .printing _ _ => true
  | _ => false

/-- `sigaction_fn`; it does not set `shouldterm` -/
def State.handler (size : ℕ) (s : State) : State :=
  { s with stored := s.stored ++ [s.i], out := if s.main.inPrintf then none else s.say .caught,
           undef := s.undef || size ≤ s.i }

/-- SIGINT arrives; before `sigaction` it ends the process -/
def State.sigint (size : ℕ) (s : State) : Option State :=
  match s.main with
  | .install => some { s with main := .killed }
  | .exited | .killed => none
  | _ => some (s.handler size)

inductive Event where
  | main | sigint
  deriving DecidableEq, Repr

def step (size : ℕ) (s : State) (e : Event) : Option State :=
  if s.undef then none
  else
    match e with
    | .main => s.mainStep size
    | .sigint => s.sigint size

/-! ## Properties -/

def State.InBounds (size : ℕ) (s : State) : Prop := ∀ k ∈ s.stored, k < size

/-- the places that `main` reaches by the last increment of a loop, up to the next assignment to `i` -/
def AfterLast (size : ℕ) (s : State) : Prop :=
  match s.main with
  | .test _ => s.i = size
  | .init .second | .ret => True
  | _ => False

/-- a SIGINT that is handled: the array is not empty, and the last increment of a loop is not the last assignment to
`i` -/
def Inside (size : ℕ) (s : State) (e : Event) (_ : State) : Prop :=
  e = .sigint → s.main ≠ .install → 0 < size ∧ ¬ AfterLast size s

instance (size : ℕ) (s : State) : Decidable (AfterLast size s) := by
  unfold AfterLast; split <;> infer_instance

instance (size : ℕ) (s : State) (e : Event) (t : State) : Decidable (Inside size s e t) :=
  inferInstanceAs (Decidable (_ → _ → _))

/-! ## Where the counter is -/

def Main.Bound (size i : ℕ) : Main → Prop
  | .install | .init .first => i = 0
  | .init .second | .ret => i = size
  | .test _ => i ≤ size
  | .print _ | .check | .called | .incRead _ => i < size
  | .printing _ x | .incWrite _ x => x = i ∧ i < size
  | .exited | .killed => True

structure LoopInv (size : ℕ) (s : State) : Prop where
  shouldterm : s.shouldterm = false
  bound : s.main.Bound size s.i

variable {size : ℕ} {s t : State} {e : Event} {l : List Event}

theorem init_loopInv (size : ℕ) : LoopInv size init := ⟨rfl, rfl⟩

theorem mainStep_loopInv (hs : LoopInv size s) (hst : s.mainStep size = some t) : LoopInv size t := by
  obtain ⟨hterm, hbound⟩ := hs
  obtain ⟨main, i, shouldterm, stored, out, undef⟩ := s
  obtain rfl : shouldterm = false := hterm
  cases main with
  | install => obtain rfl := Option.some.inj hst; exact ⟨rfl, hbound⟩
  | init l => obtain rfl := Option.some.inj hst; exact ⟨rfl, Nat.zero_le size⟩
  | test l =>
    obtain rfl := Option.some.inj hst
    have hle : i ≤ size := hbound
    refine ⟨rfl, ?_⟩
    dsimp only
    split_ifs with hlt
    · cases l with
      | first => exact hlt
      | second => exact hlt
    · have heq : i = size := by omega
      cases l with
      | first => exact heq
      | second => exact heq
  | print l => obtain rfl := Option.some.inj hst; exact ⟨rfl, rfl, hbound⟩
  | printing l x =>
    obtain rfl := Option.some.inj hst
    cases l with
    | first => exact ⟨rfl, hbound.2⟩
    | second => exact ⟨rfl, hbound.2⟩
  | check => obtain rfl := Option.some.inj hst; exact ⟨rfl, hbound⟩
  | called =>
    obtain rfl := Option.some.inj hst
    refine ⟨rfl, ?_⟩
    dsimp only
    split_ifs
    · exact hbound
    · exact hbound
  | incRead l => obtain rfl := Option.some.inj hst; exact ⟨rfl, rfl, hbound⟩
  | incWrite l x =>
    obtain rfl := Option.some.inj hst
    obtain ⟨rfl, hlt⟩ := hbound
    dsimp only
    split_ifs
    · exact ⟨rfl, rfl, hlt⟩
    · exact ⟨rfl, hlt⟩
  | ret => obtain rfl := Option.some.inj hst; exact ⟨rfl, trivial⟩
  | exited => cases hst
  | killed => cases hst

theorem mainStep_stored (hst : s.mainStep size = some t) : t.stored = s.stored := by
  obtain ⟨main, i, shouldterm, stored, out, undef⟩ := s
  cases main with
  | incWrite l x =>
    obtain rfl := Option.some.inj hst
    dsimp only
    split_ifs <;> rfl
  | exited => cases hst
  | killed => cases hst
  | _ => obtain rfl := Option.some.inj hst; rfl

/-- what an arriving SIGINT does -/
theorem sigint_cases (hst : s.sigint size = some t) :
    s.main = .install ∧ t = { s with main := .killed } ∨
      s.main ≠ .install ∧ s.main ≠ .exited ∧ s.main ≠ .killed ∧ t = s.handler size := by
  obtain ⟨main, i, shouldterm, stored, out, undef⟩ := s
  cases main with
  | install => exact .inl ⟨rfl, (Option.some.inj hst).symm⟩
  | exited => cases hst
  | killed => cases hst
  | _ => exact .inr ⟨by simp, by simp, by simp, (Option.some.inj hst).symm⟩

theorem step_cases (hst : step size s e = some t) :
    e = .main ∧ s.mainStep size = some t ∨ e = .sigint ∧ s.sigint size = some t := by
  unfold step at hst
  split_ifs at hst
  cases e with
  | main => exact .inl ⟨rfl, hst⟩
  | sigint => exact .inr ⟨rfl, hst⟩

theorem step_loopInv (hs : LoopInv size s) (hst : step size s e = some t) : LoopInv size t := by
  obtain ⟨-, hst⟩ | ⟨-, hst⟩ := step_cases hst
  · exact mainStep_loopInv hs hst
  · obtain ⟨-, rfl⟩ | ⟨-, -, -, rfl⟩ := sigint_cases hst
    · exact ⟨hs.shouldterm, trivial⟩
    · exact ⟨hs.shouldterm, hs.bound⟩

/-- the index of a store that the handler makes -/
theorem LoopInv.lt_iff (hs : LoopInv size s) (hex : s.main ≠ .exited) (hkill : s.main ≠ .killed)
    (hinst : s.main ≠ .install) : s.i < size ↔ 0 < size ∧ ¬ AfterLast size s := by
  obtain ⟨-, hbound⟩ := hs
  obtain ⟨main, i, shouldterm, stored, out, undef⟩ := s
  cases main with
  | install => exact absurd rfl hinst
  | init l =>
    cases l with
    | first =>
      obtain rfl : i = 0 := hbound
      simp [AfterLast]
    | second =>
      obtain rfl : i = size := hbound
      simp [AfterLast]
  | test l =>
    have hle : i ≤ size := hbound
    simp only [AfterLast]
    omega
  | printing l x | incWrite l x =>
    obtain ⟨-, hlt⟩ := hbound
    exact ⟨fun _ => ⟨Nat.zero_lt_of_lt hlt, id⟩, fun _ => hlt⟩
  | ret =>
    obtain rfl : i = size := hbound
    simp [AfterLast]
  | exited => exact absurd rfl hex
  | killed => exact absurd rfl hkill
  | _ =>
    have hlt : i < size := hbound
    exact ⟨fun _ => ⟨Nat.zero_lt_of_lt hlt, id⟩, fun _ => hlt⟩

/-- a step stays in bounds exactly when it meets the condition -/
theorem step_inBounds (hs : LoopInv size s) (hst : step size s e = some t) :
    t.InBounds size ↔ s.InBounds size ∧ Inside size s e t := by
  obtain ⟨rfl, hmain⟩ | ⟨rfl, hsig⟩ := step_cases hst
  · simp [State.InBounds, mainStep_stored hmain, Inside]
  · obtain ⟨hinst, rfl⟩ | ⟨hinst, hex, hkill, rfl⟩ := sigint_cases hsig
    · simp [State.InBounds, Inside, hinst]
    · have hlt := hs.lt_iff hex hkill hinst
      simp only [State.InBounds, State.handler, List.forall_mem_append, List.forall_mem_singleton, hlt, Inside,
        forall_const, ne_eq, hinst, not_false_eq_true]

/-! ## Result -/

/-- **Exactly when the handler stays inside the array**, in every run. -/
theorem stores_inBounds_iff (h : Run (Takes (step size)) init l s) :
    s.InBounds size ↔ Along (Takes (step size)) (Inside size) init l := by
  have hinit : init.InBounds size := fun k hk => absurd hk List.not_mem_nil
  constructor
  · intro hs
    exact Along.of_not (J := LoopInv size) (L := fun s => ¬ s.InBounds size) (fun _ _ _ hs hst => step_loopInv hs hst)
      (fun _ _ _ hs hout hst hin => hout ((step_inBounds hs hst).1 hin).1)
      (fun _ _ _ hs hst hQ hin => hQ ((step_inBounds hs hst).1 hin).2) h (init_loopInv size) (not_not.2 hs)
  · intro hC
    exact (Along.inv (I := fun s => LoopInv size s ∧ s.InBounds size)
      (fun _ _ _ hs hQ hst => ⟨step_loopInv hs.1 hst, (step_inBounds hs.1 hst).2 ⟨hs.2, hQ⟩⟩) hC h
      ⟨init_loopInv size, hinit⟩).2

/-- SIGINT inside a `printf` of the first loop, and in `i++` of the second -/
theorem stores_inBounds_two : ∃ l s, Run (Takes (step 2)) init l s ∧ s.stored = [1, 0] ∧
    (s.InBounds 2 ↔ Along (Takes (step 2)) (Inside 2) init l) := by
  let l : List Event := List.replicate 10 .main ++ [.sigint] ++ List.replicate 9 .main ++ [.sigint]
  have h : Run (Takes (step 2)) init l ⟨.incWrite .second 0, 0, false, [1, 0], none, false⟩ := run_takes_iff.2 rfl
  exact ⟨l, _, h, rfl, stores_inBounds_iff h⟩

/-! ## The last increment -/

theorem first_turn {n : ℕ} (hn : n < size) (hsize : size ≤ intMax) (out : List Line) :
    Run (Takes (step size)) ⟨.test .first, n, false, [], some out, false⟩ (List.replicate 6 .main)
      ⟨.test .first, n + 1, false, [], some (out ++ [.number n]), false⟩ := by
  have hmax : n ≠ intMax := by omega
  apply run_takes_iff.2
  simp [step, State.mainStep, State.say, Loop.body, Loop.line, Loop.printed, hn, hmax, List.replicate]

/-- `main` alone brings the counter to every value up to `size` -/
theorem first_loop {n : ℕ} (hn : n ≤ size) (hsize : size ≤ intMax) :
    ∃ l out, Run (Takes (step size)) init l ⟨.test .first, n, false, [], some out, false⟩ := by
  induction n with
  | zero => exact ⟨[.main, .main], [], run_takes_iff.2 rfl⟩
  | succ n ih =>
    obtain ⟨l, out, h⟩ := ih (Nat.le_of_succ_le hn)
    exact ⟨l ++ List.replicate 6 .main, out ++ [.number n], run_append_iff.2 ⟨_, h, first_turn hn hsize out⟩⟩

/-- SIGINT between the last increment of the first loop and its test -/
theorem stores_outside (hsize : size ≤ intMax) :
    ∃ l s, Run (Takes (step size)) init l s ∧ size ∈ s.stored ∧ ¬ s.InBounds size := by
  obtain ⟨l, out, h⟩ := first_loop le_rfl hsize
  refine ⟨l ++ [.sigint], State.handler size ⟨.test .first, size, false, [], some out, false⟩, ?_, ?_, ?_⟩
  · exact run_append_iff.2 ⟨_, h, run_takes_iff.2 rfl⟩
  · exact List.mem_singleton_self size
  · intro hin
    exact lt_irrefl size (hin size (List.mem_singleton_self size))

/-- the array of the program has 500000 entries, and this store is to entry 500000 -/
theorem outside_500000 : ∃ l s, Run (Takes (step 500000)) init l s ∧ 500000 ∈ s.stored ∧ ¬ s.InBounds 500000 :=
  stores_outside (by decide)

end Cse422.Print500000
