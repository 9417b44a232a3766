/-
The signal programs of `studios/studio20`. `sender.c` sends a real-time signal `nr` times with the value 0 and then once
with the value 1, after it has compared `nr` with its limit of pending signals; the handler of `receiver.c` counts the
zeros, and its `main` waits in a loop until the handler has seen the one.

The two processes and the kernel take turns in any order. The kernel keeps the signals that are pending in a queue of
the capacity that the limit gives (`Fifo.Queue`): `sigqueue` refuses when it is full, the first signal is delivered
first, and not while the handler runs.

Premises about the kernel:
- signals of one number are delivered in the order of `sigqueue`, none is lost, and a handler is not interrupted by its
  own signal; the limit is on the signals that are pending, and no others are than those of the sender;
- the sender has the right to signal the receiver, which has installed its handler and is not killed meanwhile.

- `sigqueue_room`, `sigqueue_full`: a call of `sigqueue` that finds room, and one that does not;
- `deliver_eq_some`: what a delivery finds and leaves.
-/
import Cse422.Core.Lts
import Cse422.Core.Fifo

namespace Cse422.Signals

open Lts Fifo

/-! ## The programs -/

/-- what the sender finds: `strtol(argv[2], NULL, 0)`, a `long`, and `limit.rlim_cur`, an `rlim_t` -/
structure Setup where
  nr : BitVec 64
  rlimCur : BitVec 64
  deriving DecidableEq, Repr

/-- the sender's check passes; the `long` is converted to the unsigned type for it -/
def Setup.Accepted (c : Setup) : Prop := ¬ c.rlimCur.toNat < c.nr.toNat

instance (c : Setup) : Decidable c.Accepted := inferInstanceAs (Decidable (¬ _))

def intMax : ℕ := 2 ^ 31 - 1

/-- the places of the sender's `main` -/
inductive Sender where
  | check
  /-- the test of the `for` loop -/
  | loop
  /-- before the `sigqueue` in the loop -/
  | queue
  /-- before `++i` -/
  | incr
  /-- before the `sigqueue` after the loop -/
  | last
  | exited
  /-- returned -1 from the check -/
  | refused
  deriving DecidableEq, Repr

/-- the places of `sig_handler`, with `si->si_value.sival_int` -/
inductive Handler where
  | testZero (v : ℤ)
  | testOne (v : ℤ)
  | leave
  deriving DecidableEq, Repr

/-- the places of the receiver's `main` once the handler is installed -/
inductive Main where
  | spin
  | print
  /-- returned, after it has printed this number -/
  | ended (printed : ℕ)
  deriving DecidableEq, Repr

structure State (c : Setup) where
  sender : Sender
  i : ℕ
  /-- whether the calls of `sigqueue` succeeded; the sender does not look at it -/
  results : List Bool
  pending : Queue ℤ c.rlimCur.toNat
  handler : Option Handler
  main : Main
  done : Bool
  count : ℕ
  /-- an `int` has been counted past its largest value, and nothing is known of what follows -/
  undef : Bool
  deriving DecidableEq

def init (c : Setup) : State c := ⟨.check, 0, [], empty, none, .spin, false, 0, false⟩

variable {c : Setup}

def State.sigqueue (s : State c) (v : ℤ) : State c :=
  match s.pending.push v with
  | some q => { s with pending := q, results := s.results ++ [true] }
  | none => { s with results := s.results ++ [false] }

/-- `sender.c` -/
def State.senderStep (s : State c) : Option (State c) :=
  match s.sender with
  | .check => some { s with sender := if c.rlimCur.toNat < c.nr.toNat then .refused else .loop }
  | .loop => some { s with sender := if (s.i : ℤ) < c.nr.toInt then .queue else .last }
  | .queue => some { s.sigqueue 0 with sender := .incr }
  | .incr => some (if s.i = intMax then { s with undef := true } else { s with i := s.i + 1, sender := .loop })
  | .last => some { s.sigqueue 1 with sender := .exited }
  | .exited | .refused => none

/-- `sig_handler` -/
def State.handlerStep (s : State c) : Handler → State c
  | .testZero v =>
    if v = 0 then
      if s.count = intMax then { s with undef := true }
      else { s with count := s.count + 1, handler := some (.testOne v) }
    else { s with handler := some (.testOne v) }
  | .testOne v => { s with done := s.done || v = 1, handler := some .leave }
  | .leave => { s with handler := none }

/-- `main` of `receiver.c`; the loop does nothing while `done` is not set -/
def State.mainStep (s : State c) : Option (State c) :=
  match s.main with
  | .spin => if s.done then some { s with main := .print } else none
  | .print => some { s with main := .ended s.count }
  | .ended _ => none

/-- the kernel delivers the first pending signal; the handler runs with the signal blocked -/
def State.deliver (s : State c) : Option (State c) :=
  match s.handler, s.main with
  | some _, _ | none, .ended _ => none
  | none, _ => s.pending.pop.map fun p => { s with pending := p.2, handler := some (.testZero p.1) }

inductive Party where
  | sender | kernel | receiver
  deriving DecidableEq, Repr

def step (s : State c) (p : Party) : Option (State c) :=
  if s.undef then none
  else
    match p with
    | .sender => s.senderStep
    | .kernel => s.deliver
    | .receiver =>
      match s.handler with
      | some h => some (s.handlerStep h)
      | none => s.mainStep

/-- a run from the start, by any order of the parties -/
def Reaches (c : Setup) (l : List Party) (s : State c) : Prop := Run (Takes step) (init c) l s

/-! ## Spec lemmas -/

/-- a call of `sigqueue` that finds room -/
theorem sigqueue_room {s : State c} (h : s.pending.items.length < c.rlimCur.toNat) (v : ℤ) :
    ∃ q : Queue ℤ c.rlimCur.toNat, q.items = s.pending.items ++ [v] ∧
      s.sigqueue v = { s with pending := q, results := s.results ++ [true] } := by
  obtain ⟨q, hq, hitems⟩ := exists_push h v
  refine ⟨q, hitems, ?_⟩
  unfold State.sigqueue
  rw [hq]

/-- a call of `sigqueue` that finds the queue full -/
theorem sigqueue_full {s : State c} (h : c.rlimCur.toNat ≤ s.pending.items.length) (v : ℤ) :
    s.sigqueue v = { s with results := s.results ++ [false] } := by
  unfold State.sigqueue
  rw [push_eq_none.2 h]

theorem deliver_eq_some {s t : State c} (h : s.deliver = some t) :
    ∃ v q, s.handler = none ∧ (∀ n, s.main ≠ .ended n) ∧ s.pending.items = v :: q.items ∧
      t = { s with pending := q, handler := some (.testZero v) } := by
  unfold State.deliver at h
  split at h
  · cases h
  · cases h
  · rename_i hh hm
    obtain ⟨⟨v, q⟩, hpop, rfl⟩ := Option.map_eq_some_iff.1 h
    exact ⟨v, q, hh, hm, pop_eq_some.1 hpop, rfl⟩

theorem Reaches.snoc {l : List Party} {s t : State c} {p : Party} (h : Reaches c l s) (hst : step s p = some t) :
    Reaches c (l ++ [p]) t := run_append_iff.2 ⟨s, h, run_cons_iff.2 ⟨t, hst, .nil t⟩⟩

end Cse422.Signals
