/-
What a setup that passes the sender's check comes to when the signals need not fit (`Fits`), in every order of the
parties.

- `counting_outcome`: no wrong number is ever printed. The calls of `sigqueue` in the loop all succeed; the one after
  the loop is refused exactly when the loop has filled the limit and nothing has been delivered yet, and then the
  receiver has counted every signal and waits for ever. Only from `2 ^ 31` signals on is an `int` counted too far.

The invariant (`Tally`) is that of `Inv` with a call that may be refused: `b` says whether the last one was accepted.
-/
import Cse422.Signals.Counting

namespace Cse422.Signals

open Lts Fifo

variable {c : Setup}

/-! ## The outcome -/

/-- the rounds of the sender's loop; none for a negative number -/
def Setup.rounds (c : Setup) : ℕ := c.nr.toInt.toNat

/-- what holds of a state that the run `l` leads to -/
structure Outcome (c : Setup) (l : List Party) (s : State c) : Prop where
  /-- no call in the loop is refused -/
  loop : ∀ r ∈ s.results.take c.rounds, r = true
  /-- the call after it is, when as many as the limit allows are pending -/
  last : s.sender = .last → ∀ t, step s .sender = some t →
    t.results = s.results ++ [!decide (c.nr.toInt = c.rlimCur.toNat ∧ Party.kernel ∉ l)]
  printed : ∀ n, s.main = .ended n → n = c.rounds
  undef : s.undef = true → 2 ^ 31 ≤ c.nr.toInt
  /-- where no party can go on, all has been counted, and the number is printed unless the last call was refused -/
  quiet : s.undef = false → (∀ p, step s p = none) → ∃ b, s.results = List.replicate c.rounds true ++ [b] ∧
    s.count = c.rounds ∧ s.main = if b then .ended c.rounds else .spin
  /-- no run is longer -/
  ends : l.length ≤ 8 * c.nr.toNat + 12

theorem rounds_le_nr (c : Setup) : c.rounds ≤ c.nr.toNat := by
  have hlt := c.nr.isLt
  rw [Setup.rounds, BitVec.toInt_eq_toNat_cond]
  split_ifs <;> omega

theorem rounds_le_limit (hacc : c.Accepted) : c.rounds ≤ c.rlimCur.toNat :=
  (rounds_le_nr c).trans (Nat.le_of_not_lt hacc)

/-- a negative number passes only a limit that no round reaches -/
theorem rounds_eq_limit_iff (hacc : c.Accepted) : c.rounds = c.rlimCur.toNat ↔ c.nr.toInt = c.rlimCur.toNat := by
  have hle := Nat.le_of_not_lt hacc
  have hlt := c.nr.isLt
  rw [Setup.rounds, BitVec.toInt_eq_toNat_cond]
  split_ifs <;> omega

/-! ## The invariant -/

/-- what the sender has queued: the zeros, and the one if it was accepted -/
def queued (b : Bool) (s : State c) : List ℤ := if b then sent s else List.replicate (zeros s) 0

structure Tally (b : Bool) (s : State c) : Prop where
  results : s.results = List.replicate (zeros s) true ++ if s.sender = .exited then [b] else []
  conserved : queued b s = handled s ++ inFlight s
  place : s.sender.Bound c.rounds s.i
  main : s.main ≠ .spin → s.done = true
  printed : ∀ n, s.main = .ended n → n = s.count
  undef : s.undef = true → 2 ^ 31 ≤ c.nr.toInt

theorem init_tally (b : Bool) : Tally b (init c) where
  results := rfl
  conserved := by cases b <;> rfl
  place := rfl
  main h := absurd rfl h
  printed n h := by cases h
  undef h := by cases h

theorem queued_split {b : Bool} {s : State c} {u v : List ℤ} (h : queued b s = u ++ 1 :: v) :
    b = true ∧ s.sender = .exited ∧ v = [] ∧ u = List.replicate (zeros s) 0 := by
  cases b with
  | true => exact ⟨rfl, sent_split h⟩
  | false =>
    have hmem : (1 : ℤ) ∈ queued false s := by simp [h]
    exact absurd (List.eq_of_mem_replicate hmem) one_ne_zero

theorem mem_queued {b : Bool} {s : State c} {v : ℤ} (h : v ∈ queued b s) : v = 0 ∨ v = 1 := by
  cases b with
  | true => exact mem_sent h
  | false => exact Or.inl (List.eq_of_mem_replicate h)

theorem count_zero_queued (b : Bool) (s : State c) : (queued b s).count 0 = zeros s := by
  cases b with
  | true => exact count_zero_sent s
  | false => exact List.count_replicate_self

/-- before the sender is through, it does not matter whether its last call will be accepted -/
theorem queued_of_running {b : Bool} {s : State c} (h : s.sender ≠ .exited) :
    queued b s = List.replicate (zeros s) 0 := by
  cases b with
  | true => rw [queued, if_pos rfl, sent, if_neg h, List.append_nil]
  | false => rfl

theorem zeros_le_of_bound {n : ℕ} {s : State c} (h : s.sender.Bound n s.i) : zeros s ≤ n := by
  unfold zeros
  cases hs : s.sender <;> simp only [hs, Sender.Bound] at h <;> simp <;> omega

section tally

variable {b : Bool} {s : State c}

theorem Tally.split (h : Tally b s) (hd : s.done = true) :
    b = true ∧ s.sender = .exited ∧ inFlight s = [] ∧ List.replicate s.count 0 = List.replicate (zeros s) (0 : ℤ) := by
  refine queued_split ?_
  rw [h.conserved, handled, if_pos hd, List.append_assoc, List.singleton_append]

theorem Tally.not_done (h : Tally b s) (hf : inFlight s ≠ []) : s.done = false := by
  by_contra hd
  exact hf (h.split (Bool.eq_true_of_not_eq_false hd)).2.2.1

theorem Tally.count_of_done (h : Tally b s) (hd : s.done = true) : s.count = c.rounds := by
  obtain ⟨-, hex, -, hz⟩ := h.split hd
  have hplace := h.place
  rw [hex] at hplace
  calc s.count = zeros s := by simpa using congrArg List.length hz
    _ = s.i := by simp [zeros, hex]
    _ = c.rounds := hplace

theorem Tally.pending_le (h : Tally b s) (hs : s.sender ≠ .exited) : s.pending.items.length ≤ zeros s := by
  have hlen := congrArg List.length h.conserved
  rw [queued_of_running hs, inFlight, List.length_replicate, List.length_append, List.length_append] at hlen
  omega

end tally

/-! ## The invariant holds -/

/-- a step of the sender that sends nothing -/
theorem Tally.move {b : Bool} {s : State c} (h : Tally b s) {i : ℕ} {a : Sender} (hs : s.sender ≠ .exited)
    (ha : a ≠ .exited) (hz : zeros { s with i := i, sender := a } = zeros s) (hplace : a.Bound c.rounds i) :
    Tally b { s with i := i, sender := a } where
  results := by
    rw [hz, if_neg ha]
    have hr := h.results
    rwa [if_neg hs] at hr
  conserved := by
    rw [queued_of_running ha, hz, ← queued_of_running (b := b) hs]
    exact h.conserved
  place := hplace
  main := h.main
  printed := h.printed
  undef := h.undef

/-- the call of `sigqueue` in the loop -/
theorem Tally.queue {b : Bool} {s : State c} (h : Tally b s) (hacc : c.Accepted) (hs : s.sender = .queue) :
    Tally b { s.sigqueue 0 with sender := .incr } := by
  have hplace := h.place
  rw [hs] at hplace
  have hlt : s.i < c.rounds := hplace
  have hz : zeros s = s.i := by simp [zeros, hs]
  have hne : s.sender ≠ .exited := by simp [hs]
  have hle := h.pending_le hne
  have hroom : s.pending.items.length < c.rlimCur.toNat := by
    have hlimit := rounds_le_limit hacc
    omega
  obtain ⟨q, hq, hsig⟩ := sigqueue_room hroom 0
  have hresults := h.results
  have hconserved := h.conserved
  rw [if_neg hne, hz, List.append_nil] at hresults
  rw [queued_of_running hne, hz, inFlight] at hconserved
  rw [hsig]
  exact {
    results := by simp [zeros, hresults, List.replicate_succ']
    conserved := by
      rw [queued_of_running (by simp)]
      simp only [zeros, inFlight, hq, if_true, List.replicate_succ', hconserved, List.append_assoc]
      rfl
    place := hlt
    main := h.main
    printed := h.printed
    undef := h.undef }

/-- the call after the loop, which may be refused -/
theorem Tally.last {b : Bool} {s : State c} (h : Tally b s) (hs : s.sender = .last) :
    Tally (decide (s.pending.items.length < c.rlimCur.toNat)) { s.sigqueue 1 with sender := .exited } := by
  have hplace := h.place
  rw [hs] at hplace
  have hz : zeros s = s.i := by simp [zeros, hs]
  have hne : s.sender ≠ .exited := by simp [hs]
  have hresults := h.results
  have hconserved := h.conserved
  rw [if_neg hne, hz, List.append_nil] at hresults
  rw [queued_of_running hne, hz, inFlight] at hconserved
  by_cases hroom : s.pending.items.length < c.rlimCur.toNat
  · obtain ⟨q, hq, hsig⟩ := sigqueue_room hroom 1
    rw [hsig, decide_eq_true hroom]
    exact {
      results := by simp [zeros, hresults]
      conserved := by
        simp only [queued, sent, zeros, inFlight, hq, if_true, reduceCtorEq, if_false, Nat.add_zero, hconserved,
          List.append_assoc]
        rfl
      place := hplace
      main := h.main
      printed := h.printed
      undef := h.undef }
  · rw [sigqueue_full (Nat.le_of_not_lt hroom), decide_eq_false hroom]
    exact {
      results := by simp [zeros, hresults]
      conserved := by
        simp only [queued, zeros, reduceCtorEq, if_false, Nat.add_zero, Bool.false_eq_true, hconserved]
        rfl
      place := hplace
      main := h.main
      printed := h.printed
      undef := h.undef }

theorem senderStep_tally (hacc : c.Accepted) {b : Bool} {s t : State c} (h : Tally b s)
    (hst : s.senderStep = some t) : ∃ b', Tally b' t := by
  have hplace := h.place
  cases hs : s.sender with
  | check =>
    simp only [State.senderStep, hs, Option.some.injEq] at hst hplace
    rw [if_neg hacc] at hst
    exact ⟨b, hst ▸ h.move (by simp [hs]) (by decide) (by simp [zeros, hs]) (hplace.trans_le (Nat.zero_le _))⟩
  | loop =>
    simp only [State.senderStep, hs, Option.some.injEq] at hst hplace
    have hle : s.i ≤ c.rounds := hplace
    unfold Setup.rounds at hle
    refine ⟨b, ?_⟩
    split_ifs at hst with hlt
    · refine hst ▸ h.move (by simp [hs]) (by decide) (by simp [zeros, hs]) (show s.i < c.nr.toInt.toNat from ?_)
      omega
    · refine hst ▸ h.move (by simp [hs]) (by decide) (by simp [zeros, hs]) (show s.i = c.nr.toInt.toNat from ?_)
      omega
  | queue =>
    simp only [State.senderStep, hs, Option.some.injEq] at hst
    exact ⟨b, hst ▸ h.queue hacc hs⟩
  | incr =>
    simp only [State.senderStep, hs, Option.some.injEq] at hst hplace
    have hlt : s.i < c.rounds := hplace
    refine ⟨b, ?_⟩
    split_ifs at hst with hmax
    · -- counted up to the largest `int`, with a round to come
      obtain rfl : { s with undef := true } = t := by rw [← hst, hs]
      refine { h with undef := fun _ => ?_ }
      unfold Setup.rounds at hlt
      unfold intMax at hmax
      omega
    · exact hst ▸ h.move (by simp [hs]) (by decide) (by simp [zeros, hs]) (show s.i + 1 ≤ c.rounds from hlt)
  | last =>
    simp only [State.senderStep, hs, Option.some.injEq] at hst
    exact ⟨_, hst ▸ h.last hs⟩
  | exited => simp [State.senderStep, hs] at hst
  | refused => simp [State.senderStep, hs] at hst

theorem deliver_tally {b : Bool} {s t : State c} (h : Tally b s) (hst : s.deliver = some t) : Tally b t := by
  obtain ⟨v, q, hh, -, hq, rfl⟩ := deliver_eq_some hst
  have hflight : inFlight s = v :: q.items := by rw [inFlight, hh, hq]; rfl
  exact { h with conserved := h.conserved.trans (congrArg _ hflight) }

/-- while a value is in flight nothing has been printed -/
theorem Tally.not_ended {b : Bool} {s : State c} (h : Tally b s) (hf : inFlight s ≠ []) (n : ℕ) :
    s.main ≠ .ended n := by
  intro hm
  have hd := h.main (by rw [hm]; simp)
  rw [h.not_done hf] at hd
  cases hd

theorem handlerStep_tally {b : Bool} {s : State c} (h : Tally b s) {p : Handler} (hp : s.handler = some p) :
    Tally b (s.handlerStep p) := by
  have hcons := h.conserved
  rw [inFlight, hp] at hcons
  cases p with
  | testZero v =>
    have hcons : queued b s = handled s ++ v :: s.pending.items := hcons
    have hflight : inFlight s ≠ [] := by simp [inFlight, hp, Handler.value]
    have hdone := h.not_done hflight
    by_cases hv : v = 0
    · -- one more zero than the handler has counted has been queued
      have hcount : s.count < c.rounds := by
        have hz := zeros_le_of_bound h.place
        rw [← count_zero_queued b s, hcons, hv, handled, hdone] at hz
        simp at hz
        omega
      by_cases hmax : s.count = intMax
      · have ht : s.handlerStep (.testZero v) = { s with undef := true } := by
          rw [State.handlerStep, if_pos hv, if_pos hmax]
        rw [ht]
        refine { h with undef := fun _ => ?_ }
        unfold Setup.rounds at hcount
        unfold intMax at hmax
        omega
      · have ht : s.handlerStep (.testZero v) = { s with count := s.count + 1, handler := some (.testOne v) } := by
          rw [State.handlerStep, if_pos hv, if_neg hmax]
        rw [ht]
        refine { h with conserved := hcons.trans ?_, printed := fun n hm => absurd hm (h.not_ended hflight n) }
        simp [handled, inFlight, Handler.value, hdone, hv, List.replicate_succ']
    · have ht : s.handlerStep (.testZero v) = { s with handler := some (.testOne v) } := if_neg hv
      rw [ht]
      exact { h with conserved := hcons.trans (by simp [handled, inFlight, Handler.value, hv]) }
  | testOne v =>
    have hmain : s.main ≠ .spin → (s.done || decide (v = 1)) = true := fun hm => by simp [h.main hm]
    by_cases hv : v = 0
    · refine { h with conserved := hcons.trans ?_, main := hmain }
      simp [handled, inFlight, Handler.value, State.handlerStep, hv]
    · have hcons : queued b s = handled s ++ v :: s.pending.items := by simpa [Handler.value, hv] using hcons
      have hdone := h.not_done (by simp [inFlight, hp, Handler.value, hv])
      have hmem : v ∈ queued b s := by simp [hcons]
      have hone : v = 1 := (mem_queued hmem).resolve_left hv
      refine { h with conserved := hcons.trans ?_, main := hmain }
      simp [handled, inFlight, Handler.value, State.handlerStep, hdone, hone]
  | leave => exact { h with conserved := hcons }

theorem mainStep_tally {b : Bool} {s t : State c} (h : Tally b s) (hst : s.mainStep = some t) : Tally b t := by
  cases hm : s.main with
  | spin =>
    simp only [State.mainStep, hm] at hst
    split_ifs at hst with hd
    exact Option.some.inj hst ▸ { h with main := fun _ => hd, printed := fun n hn => by cases hn }
  | print =>
    simp only [State.mainStep, hm, Option.some.injEq] at hst
    refine hst ▸ { h with main := fun _ => h.main (by rw [hm]; decide), printed := fun n hn => ?_ }
    exact (Main.ended.inj hn).symm
  | ended n => simp [State.mainStep, hm] at hst

theorem step_tally (hacc : c.Accepted) {s t : State c} {p : Party} (h : ∃ b, Tally b s) (hst : step s p = some t) :
    ∃ b, Tally b t := by
  obtain ⟨b, h⟩ := h
  have hu := step_of_some hst
  unfold step at hst
  rw [hu, if_neg (by decide)] at hst
  cases p with
  | sender => exact senderStep_tally hacc h hst
  | kernel => exact ⟨b, deliver_tally h hst⟩
  | receiver =>
    cases hh : s.handler with
    | none => exact ⟨b, mainStep_tally h (by simpa [hh] using hst)⟩
    | some p =>
      obtain rfl : s.handlerStep p = t := by simpa [hh] using hst
      exact ⟨b, handlerStep_tally h hh⟩

theorem reaches_tally (hacc : c.Accepted) {l : List Party} {s : State c} (h : Reaches c l s) : ∃ b, Tally b s :=
  Run.inv (I := fun s => ∃ b, Tally b s) (fun _ _ _ hi hst => step_tally hacc hi hst) h ⟨true, init_tally true⟩

theorem length_le_of_reaches (hacc : c.Accepted) {l : List Party} {s : State c} (h : Reaches c l s) :
    l.length ≤ 8 * c.nr.toNat + 12 := by
  have hweight : ∀ (s : State c) p t, (∃ b, Tally b s) → Takes step s p t → weight t < weight s := by
    intro s p t hs hst
    obtain ⟨b, hb⟩ := hs
    refine step_weight (fun hs => ?_) hst
    have hplace := hb.place
    rw [hs] at hplace
    exact hplace.trans_le (rounds_le_nr c)
  have hle := Run.length_le weight (fun _ _ _ hi hst => step_tally hacc hi hst) hweight h ⟨true, init_tally true⟩
  have hinit : weight (init c) = 8 * c.nr.toNat + 12 := by
    simp [weight, init, Sender.weight, Handler.weight, Main.weight]
  omega

/-! ## What is pending and what has been delivered -/

theorem sigqueue_count (s : State c) (v : ℤ) :
    (s.sigqueue v).results.count true + s.pending.items.length =
      s.results.count true + (s.sigqueue v).pending.items.length := by
  by_cases hroom : s.pending.items.length < c.rlimCur.toNat
  · obtain ⟨q, hq, hsig⟩ := sigqueue_room hroom v
    simp only [hsig, hq, List.count_append, List.length_append, List.length_singleton, List.count_singleton_self]
    omega
  · simp [sigqueue_full (Nat.le_of_not_lt hroom)]

/-- an accepted call adds a pending signal, and a delivery takes one away -/
theorem step_count {s t : State c} {p : Party} (hst : step s p = some t) :
    t.results.count true + s.pending.items.length =
      s.results.count true + t.pending.items.length + [p].count .kernel := by
  have hu := step_of_some hst
  unfold step at hst
  rw [hu, if_neg (by decide)] at hst
  cases p with
  | sender =>
    cases hs : s.sender <;> simp only [State.senderStep, hs, Option.some.injEq, reduceCtorEq] at hst
    case queue => exact hst ▸ sigqueue_count s 0
    case last => exact hst ▸ sigqueue_count s 1
    case incr => split_ifs at hst <;> subst hst <;> rfl
    all_goals subst hst; rfl
  | kernel =>
    obtain ⟨v, q, -, -, hq, rfl⟩ := deliver_eq_some hst
    simp only [hq, List.length_cons, List.count_singleton_self]
    omega
  | receiver =>
    cases hh : s.handler with
    | none =>
      have hst : s.mainStep = some t := by simpa [hh] using hst
      unfold State.mainStep at hst
      cases hm : s.main <;> simp only [hm, Option.some.injEq, reduceCtorEq] at hst
      case spin =>
        split_ifs at hst
        obtain rfl := Option.some.inj hst
        rfl
      case print => subst hst; rfl
    | some p =>
      obtain rfl : s.handlerStep p = t := by simpa [hh] using hst
      cases p <;> simp only [State.handlerStep]
      case testZero v => split_ifs <;> rfl
      all_goals rfl

theorem run_count {s t : State c} {l : List Party} (h : Run (Takes step) s l t) :
    t.results.count true + s.pending.items.length =
      s.results.count true + t.pending.items.length + l.count .kernel := by
  induction h with
  | nil => rfl
  | @cons s u t p l h1 _ ih =>
    have hstep := step_count h1
    have hl : (p :: l).count .kernel = [p].count .kernel + l.count .kernel := by
      rw [← List.count_append, List.singleton_append]
    omega

/-! ## Every order of the parties -/

/-- before the call after the loop, the queue is full when the loop has filled it and nothing has been delivered -/
theorem full_iff (hacc : c.Accepted) {b : Bool} {l : List Party} {s : State c} (h : Tally b s) (hr : Reaches c l s)
    (hs : s.sender = .last) : ¬ s.pending.items.length < c.rlimCur.toNat ↔
      c.nr.toInt = c.rlimCur.toNat ∧ Party.kernel ∉ l := by
  have hplace := h.place
  rw [hs] at hplace
  have hcount := run_count hr
  have hresults : s.results = List.replicate c.rounds true := by
    have hz : zeros s = s.i := by simp [zeros, hs]
    rw [h.results, if_neg (by simp [hs]), List.append_nil, hz, show s.i = c.rounds from hplace]
  rw [← rounds_eq_limit_iff hacc, ← List.count_eq_zero]
  rw [hresults, List.count_replicate_self] at hcount
  have hlimit := rounds_le_limit hacc
  simp only [init, empty_items, List.length_nil, List.count_nil] at hcount
  omega

/-- where no party can go on -/
theorem Tally.quiet {b : Bool} {s : State c} (h : Tally b s) (hu : s.undef = false)
    (hstuck : ∀ p, step s p = none) : s.results = List.replicate c.rounds true ++ [b] ∧ s.count = c.rounds ∧
      s.main = if b then .ended c.rounds else .spin := by
  have hsender := hstuck .sender
  have hkernel := hstuck .kernel
  have hreceiver := hstuck .receiver
  simp only [step, hu, Bool.false_eq_true, if_false] at hsender hkernel hreceiver
  have hplace := h.place
  have hex : s.sender = .exited := by
    unfold State.senderStep at hsender
    cases hs : s.sender <;> simp only [hs, reduceCtorEq] at hsender
    · rfl
    · rw [hs] at hplace
      exact hplace.elim
  rw [hex] at hplace
  have hi : s.i = c.rounds := hplace
  have hz : zeros s = c.rounds := by simp [zeros, hex, hi]
  have hresults := h.results
  rw [hz, if_pos hex] at hresults
  cases hh : s.handler with
  | some p => simp [hh] at hreceiver
  | none =>
    have hreceiver : s.mainStep = none := by simpa [hh] using hreceiver
    refine ⟨hresults, ?_⟩
    cases hm : s.main with
    | print => simp [State.mainStep, hm] at hreceiver
    | ended n =>
      have hd := h.main (by rw [hm]; simp)
      have hcount := h.count_of_done hd
      obtain ⟨rfl, -⟩ := h.split hd
      refine ⟨hcount, ?_⟩
      rw [h.printed n hm, hcount]
      rfl
    | spin =>
      -- the loop goes on, so `done` is not set, and what was queued has been counted
      have hd : s.done = false := by simpa [State.mainStep, hm] using hreceiver
      have hpending : s.pending.items = [] := by
        unfold State.deliver at hkernel
        rw [hh, hm] at hkernel
        exact pop_eq_none.1 (Option.map_eq_none_iff.1 hkernel)
      have hqueued : queued b s = List.replicate s.count 0 := by
        rw [h.conserved, handled, inFlight, hh, hpending, hd]
        simp [Handler.value]
      have hcount : s.count = c.rounds := by
        rw [← hz, ← count_zero_queued b s, hqueued, List.count_replicate_self]
      refine ⟨hcount, ?_⟩
      cases b with
      | false => rfl
      | true =>
        have hmem : (1 : ℤ) ∈ queued true s := by simp [queued, sent, hex]
        rw [hqueued] at hmem
        exact absurd (List.eq_of_mem_replicate hmem) one_ne_zero

/-- **Outcome.** For every setup that the check accepts and in every order of the parties, no wrong number is printed,
and only the call of `sigqueue` after the loop can be refused. -/
theorem counting_outcome (hacc : c.Accepted) {l : List Party} {s : State c} (hr : Reaches c l s) : Outcome c l s := by
  obtain ⟨b, h⟩ := reaches_tally hacc hr
  refine ⟨fun r hmem => ?_, fun hs t hst => ?_, fun n hm => ?_, h.undef, fun hu hstuck => ⟨b, h.quiet hu hstuck⟩,
    length_le_of_reaches hacc hr⟩
  · rw [h.results] at hmem
    by_cases hex : s.sender = .exited
    · have hplace := h.place
      rw [hex] at hplace
      have hz : zeros s = c.rounds := by simpa [zeros, hex, Sender.Bound] using hplace
      rw [if_pos hex, hz, List.take_left' List.length_replicate] at hmem
      exact List.eq_of_mem_replicate hmem
    · rw [if_neg hex, List.append_nil] at hmem
      exact List.eq_of_mem_replicate (List.mem_of_mem_take hmem)
  · have hu := step_of_some hst
    have hst : { s.sigqueue 1 with sender := .exited } = t := by
      simpa [step, hu, State.senderStep, hs] using hst
    have hfull := full_iff hacc h hr hs
    by_cases hroom : s.pending.items.length < c.rlimCur.toNat
    · obtain ⟨q, -, hsig⟩ := sigqueue_room hroom 1
      rw [← hst, hsig, decide_eq_false fun hc => hfull.2 hc hroom]
      rfl
    · rw [← hst, sigqueue_full (Nat.le_of_not_lt hroom), decide_eq_true (hfull.1 hroom)]
      rfl
  · have hd := h.main (by rw [hm]; simp)
    rw [h.printed n hm, h.count_of_done hd]

/-- the loop fills the limit of two before anything is delivered -/
theorem counting_outcome_drain : ∃ s : State ⟨2, 2⟩, Reaches ⟨2, 2⟩ drain s ∧ Outcome ⟨2, 2⟩ drain s := by
  obtain ⟨s, hs⟩ := Option.isSome_iff_exists.1
    (show (drain.foldlM step (init ⟨2, 2⟩)).isSome = true by decide)
  exact ⟨s, run_takes_iff.2 hs, counting_outcome (by decide) (run_takes_iff.2 hs)⟩

end Cse422.Signals
