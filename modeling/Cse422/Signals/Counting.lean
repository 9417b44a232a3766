/-
Counting signals. Every call of `sigqueue` must find room, the one after the loop included, and that needs a limit of
one more than the sender's check asks for.

- `counts_exactly_iff`: for a setup that passes the check, all calls succeed in every order of the parties, every run
  ends, with `done` set, and `count` is `nr` when it is, if and only if `nr` is not negative, below the limit and an
  `int`;
- `limit_reached`: as many signals as the limit allows, and a receiver that gets no turn before the sender is through.

The invariant (`Inv`) is one equation: what the sender has queued is what the handler has counted, and then what is
still in flight.
-/
import Cse422.Signals.Programs

namespace Cse422.Signals

open Lts Fifo

variable {c : Setup}

/-! ## The property -/

/-- the programs count to `nr` and stop, in every order of the parties -/
structure CountsExactly (c : Setup) : Prop where
  /-- every call of `sigqueue` succeeds -/
  queued : ∀ l s, Reaches c l s → s.undef = false ∧ ∀ r ∈ s.results, r = true
  exact : ∀ l s, Reaches c l s → s.done = true → (s.count : ℤ) = c.nr.toInt
  /-- where no party can go on, all `nr + 1` calls are made and `done` is set -/
  done : ∀ l s, Reaches c l s → (∀ p, step s p = none) → s.done = true ∧ (s.results.length : ℤ) = c.nr.toInt + 1
  ends : ∃ B, ∀ l s, Reaches c l s → l.length ≤ B

/-- the signals fit: the terminator has room too, and the numbers are `int`s -/
structure Fits (c : Setup) : Prop where
  nonneg : 0 ≤ c.nr.toInt
  room : c.nr.toInt < c.rlimCur.toNat
  small : c.nr.toInt < 2 ^ 31

instance (c : Setup) : Decidable (Fits c) :=
  decidable_of_iff (0 ≤ c.nr.toInt ∧ c.nr.toInt < c.rlimCur.toNat ∧ c.nr.toInt < 2 ^ 31)
    ⟨fun ⟨h1, h2, h3⟩ => ⟨h1, h2, h3⟩, fun h => ⟨h.nonneg, h.room, h.small⟩⟩

theorem toInt_of_nonneg (h : 0 ≤ c.nr.toInt) : c.nr.toInt = c.nr.toNat := by
  have hlt := c.nr.isLt
  rw [BitVec.toInt_eq_toNat_cond] at h ⊢
  split_ifs at h ⊢
  · rfl
  · omega

/-! ## What is sent, handled and in flight -/

/-- the zeros queued -/
def zeros (s : State c) : ℕ := s.i + if s.sender = .incr then 1 else 0

def sent (s : State c) : List ℤ := List.replicate (zeros s) 0 ++ if s.sender = .exited then [1] else []

/-- what the handler has acted on -/
def handled (s : State c) : List ℤ := List.replicate s.count 0 ++ if s.done then [1] else []

/-- the value the handler has not acted on yet -/
def Handler.value : Option Handler → List ℤ
  | some (.testZero v) => [v]
  | some (.testOne v) => if v = 0 then [] else [v]
  | some .leave | none => []

def inFlight (s : State c) : List ℤ := Handler.value s.handler ++ s.pending.items

/-- where `i` is at a place of the sender -/
def Sender.Bound (n i : ℕ) : Sender → Prop
  | .check => i = 0
  | .loop => i ≤ n
  | .queue | .incr => i < n
  | .last | .exited => i = n
  | .refused => False

structure Inv (s : State c) : Prop where
  undef : s.undef = false
  /-- every call has succeeded -/
  results : s.results = List.replicate (sent s).length true
  conserved : sent s = handled s ++ inFlight s
  place : s.sender.Bound c.nr.toNat s.i
  main : s.main ≠ .spin → s.done = true

theorem init_inv : Inv (init c) where
  undef := rfl
  results := rfl
  conserved := rfl
  place := rfl
  main h := absurd rfl h

/-! ## A one among zeros -/

theorem replicate_append_split {n : ℕ} {t a b : List ℤ} (ht : t = [] ∨ t = [1])
    (h : List.replicate n 0 ++ t = a ++ 1 :: b) : t = [1] ∧ b = [] ∧ a = List.replicate n 0 := by
  rcases List.append_eq_append_iff.1 h with ⟨a', rfl, ha⟩ | ⟨d, hd, hb⟩
  · rcases ht with rfl | rfl
    · simp at ha
    · cases a' with
      | nil => simp_all
      | cons x a' => simp at ha
  · cases d with
    | nil =>
      rcases ht with rfl | rfl
      · simp at hb
      · simp_all
    | cons x d =>
      -- the one would be among the zeros
      obtain ⟨rfl, -⟩ := List.cons.inj hb
      have hmem : (1 : ℤ) ∈ List.replicate n 0 := by simp [hd]
      exact absurd (List.eq_of_mem_replicate hmem) one_ne_zero

/-- after a one nothing has been sent, and it is the sender's last signal -/
theorem sent_split {s : State c} {a b : List ℤ} (h : sent s = a ++ 1 :: b) :
    s.sender = .exited ∧ b = [] ∧ a = List.replicate (zeros s) 0 := by
  have ht : (if s.sender = .exited then [1] else [] : List ℤ) = [] ∨
      (if s.sender = .exited then [1] else [] : List ℤ) = [1] := by
    split_ifs
    · exact Or.inr rfl
    · exact Or.inl rfl
  obtain ⟨h1, h2, h3⟩ := replicate_append_split ht h
  refine ⟨?_, h2, h3⟩
  by_contra hne
  rw [if_neg hne] at h1
  cases h1

theorem mem_sent {s : State c} {v : ℤ} (h : v ∈ sent s) : v = 0 ∨ v = 1 := by
  rcases List.mem_append.1 h with h | h
  · exact Or.inl (List.eq_of_mem_replicate h)
  · split_ifs at h
    · exact Or.inr (List.mem_singleton.1 h)
    · cases h

theorem count_zero_sent (s : State c) : (sent s).count 0 = zeros s := by
  unfold sent
  split_ifs <;> simp

theorem Inv.zeros_le {s : State c} (h : Inv s) : zeros s ≤ c.nr.toNat := by
  have hp := h.place
  unfold zeros
  cases hs : s.sender <;> simp only [hs, Sender.Bound] at hp <;> simp <;> omega

/-- while a value is in flight, the terminator has not been handled -/
theorem Inv.not_done {s : State c} (h : Inv s) (hf : inFlight s ≠ []) : s.done = false := by
  by_contra hd
  have hsent : sent s = List.replicate s.count 0 ++ 1 :: inFlight s := by
    rw [h.conserved, handled, if_pos (Bool.eq_true_of_not_eq_false hd), List.append_assoc, List.singleton_append]
  exact hf (sent_split hsent).2.1

/-- once `done` is set, everything has been sent and handled -/
theorem Inv.count_of_done {s : State c} (h : Inv s) (hd : s.done = true) : s.count = c.nr.toNat := by
  have hsent : sent s = List.replicate s.count 0 ++ 1 :: inFlight s := by
    rw [h.conserved, handled, if_pos hd, List.append_assoc, List.singleton_append]
  obtain ⟨hex, -, hz⟩ := sent_split hsent
  have hplace := h.place
  rw [hex] at hplace
  calc s.count = zeros s := by simpa using congrArg List.length hz
    _ = s.i := by simp [zeros, hex]
    _ = c.nr.toNat := hplace

/-! ## The invariant holds -/

theorem Inv.pending_le {s : State c} (h : Inv s) : s.pending.items.length ≤ (sent s).length := by
  rw [h.conserved, inFlight, List.length_append, List.length_append]
  omega

/-- a call of `sigqueue` that finds room, in a step of the sender -/
theorem Inv.sigqueue {s : State c} (h : Inv s) {v : ℤ} {a : Sender} (hroom : (sent s).length < c.rlimCur.toNat)
    (hsent : sent { s with sender := a } = sent s ++ [v]) (hplace : a.Bound c.nr.toNat s.i) :
    Inv { s.sigqueue v with sender := a } := by
  obtain ⟨q, hq, hs⟩ := sigqueue_room (h.pending_le.trans_lt hroom) v
  rw [hs]
  have hsent' : sent ({ s with pending := q, results := s.results ++ [true], sender := a } : State c) = sent s ++ [v] :=
    hsent
  exact {
    undef := h.undef
    results := by rw [hsent', List.length_append, List.length_singleton, List.replicate_succ', h.results]
    conserved := by
      rw [hsent', h.conserved, inFlight, List.append_assoc, List.append_assoc, ← hq]
      rfl
    place := hplace
    main := h.main }

/-- a step of the sender that sends nothing -/
theorem Inv.move {s : State c} (h : Inv s) {i : ℕ} {a : Sender} (hsent : sent { s with i := i, sender := a } = sent s)
    (hplace : a.Bound c.nr.toNat i) : Inv { s with i := i, sender := a } where
  undef := h.undef
  results := by rw [hsent]; exact h.results
  conserved := by rw [hsent]; exact h.conserved
  place := hplace
  main := h.main

theorem Fits.bounds (hf : Fits c) :
    c.nr.toInt = c.nr.toNat ∧ c.nr.toNat < c.rlimCur.toNat ∧ c.nr.toNat ≤ intMax := by
  have hn := toInt_of_nonneg hf.nonneg
  have hroom := hf.room
  have hsmall := hf.small
  rw [hn] at hroom hsmall
  refine ⟨hn, by omega, ?_⟩
  unfold intMax
  omega

theorem senderStep_inv (hf : Fits c) {s t : State c} (h : Inv s) (hst : s.senderStep = some t) : Inv t := by
  obtain ⟨hn, hroom, hsmall⟩ := hf.bounds
  have hplace := h.place
  cases hs : s.sender with
  | check =>
    simp only [State.senderStep, hs, Option.some.injEq] at hst hplace
    -- the check passes
    rw [if_neg (by omega)] at hst
    exact hst ▸ h.move (by simp [sent, zeros, hs]) (hplace.trans_le (Nat.zero_le _))
  | loop =>
    simp only [State.senderStep, hs, Option.some.injEq] at hst hplace
    have hle : s.i ≤ c.nr.toNat := hplace
    split_ifs at hst with hlt
    · exact hst ▸ h.move (by simp [sent, zeros, hs]) (show s.i < c.nr.toNat by omega)
    · exact hst ▸ h.move (by simp [sent, zeros, hs]) (show s.i = c.nr.toNat by omega)
  | queue =>
    simp only [State.senderStep, hs, Option.some.injEq] at hst hplace
    have hsent : sent s = List.replicate s.i 0 := by simp [sent, zeros, hs]
    refine hst ▸ h.sigqueue ?_ ?_ hplace
    · rw [hsent, List.length_replicate]
      exact (show s.i < c.nr.toNat from hplace).trans hroom
    · rw [hsent]
      simp [sent, zeros, List.replicate_succ']
  | incr =>
    simp only [State.senderStep, hs, Option.some.injEq] at hst hplace
    have hlt : s.i < c.nr.toNat := hplace
    rw [if_neg (by omega)] at hst
    exact hst ▸ h.move (by simp [sent, zeros, hs]) (show s.i + 1 ≤ c.nr.toNat from hlt)
  | last =>
    simp only [State.senderStep, hs, Option.some.injEq] at hst hplace
    have hsent : sent s = List.replicate s.i 0 := by simp [sent, zeros, hs]
    refine hst ▸ h.sigqueue ?_ ?_ hplace
    · rw [hsent, List.length_replicate]
      exact (show s.i = c.nr.toNat from hplace).trans_lt hroom
    · rw [hsent]
      simp [sent, zeros]
  | exited => simp [State.senderStep, hs] at hst
  | refused => simp [State.senderStep, hs] at hst

theorem deliver_inv {s t : State c} (h : Inv s) (hst : s.deliver = some t) : Inv t := by
  obtain ⟨v, q, hh, -, hq, rfl⟩ := deliver_eq_some hst
  have hflight : inFlight s = v :: q.items := by rw [inFlight, hh, hq]; rfl
  exact { h with conserved := h.conserved.trans (congrArg _ hflight) }

/-- a step of the handler keeps the equation: what it acts on it takes out of the flight -/
theorem handlerStep_inv (hf : Fits c) {s : State c} (h : Inv s) {p : Handler} (hp : s.handler = some p) :
    Inv (s.handlerStep p) := by
  have hcons := h.conserved
  rw [inFlight, hp] at hcons
  cases p with
  | testZero v =>
    have hcons : sent s = handled s ++ v :: s.pending.items := hcons
    have hdone : s.done = false := h.not_done (by simp [inFlight, hp, Handler.value])
    by_cases hv : v = 0
    · -- one more zero than the handler has counted has been sent, so `count` is below `nr`
      have hcount : s.count < zeros s := by
        rw [← count_zero_sent, hcons, hv, handled, hdone]
        simp
      have hz := h.zeros_le
      obtain ⟨-, -, hsmall⟩ := hf.bounds
      have ht : s.handlerStep (.testZero v) = { s with count := s.count + 1, handler := some (.testOne v) } := by
        rw [State.handlerStep, if_pos hv, if_neg (by omega)]
      rw [ht]
      refine { h with conserved := hcons.trans ?_ }
      simp [handled, inFlight, Handler.value, hdone, hv, List.replicate_succ']
    · have ht : s.handlerStep (.testZero v) = { s with handler := some (.testOne v) } := if_neg hv
      rw [ht]
      exact { h with conserved := hcons.trans (by simp [handled, inFlight, Handler.value, hv]) }
  | testOne v =>
    have hmain : s.main ≠ .spin → (s.done || decide (v = 1)) = true := fun hm => by simp [h.main hm]
    by_cases hv : v = 0
    · refine { h with conserved := hcons.trans ?_, main := hmain }
      simp [handled, inFlight, Handler.value, State.handlerStep, hv]
    · have hcons : sent s = handled s ++ v :: s.pending.items := by simpa [Handler.value, hv] using hcons
      have hdone : s.done = false := h.not_done (by simp [inFlight, hp, Handler.value, hv])
      have hmem : v ∈ sent s := by simp [hcons]
      have hone : v = 1 := (mem_sent hmem).resolve_left hv
      refine { h with conserved := hcons.trans ?_, main := hmain }
      simp [handled, inFlight, Handler.value, State.handlerStep, hdone, hone]
  | leave => exact { h with conserved := hcons }

theorem mainStep_inv {s t : State c} (h : Inv s) (hst : s.mainStep = some t) : Inv t := by
  cases hm : s.main with
  | spin =>
    simp only [State.mainStep, hm] at hst
    split_ifs at hst with hd
    exact Option.some.inj hst ▸ { h with main := fun _ => hd }
  | print =>
    simp only [State.mainStep, hm, Option.some.injEq] at hst
    exact hst ▸ { h with main := fun _ => h.main (by rw [hm]; decide) }
  | ended n => simp [State.mainStep, hm] at hst

theorem step_inv (hf : Fits c) {s t : State c} {p : Party} (h : Inv s) (hst : step s p = some t) : Inv t := by
  unfold step at hst
  rw [h.undef, if_neg (by decide)] at hst
  cases p with
  | sender => exact senderStep_inv hf h hst
  | kernel => exact deliver_inv h hst
  | receiver =>
    cases hh : s.handler with
    | none => exact mainStep_inv h (by simpa [hh] using hst)
    | some p =>
      obtain rfl : s.handlerStep p = t := by simpa [hh] using hst
      exact handlerStep_inv hf h hh

theorem reaches_inv (hf : Fits c) {l : List Party} {s : State c} (h : Reaches c l s) : Inv s :=
  Run.inv (I := Inv) (fun _ _ _ hi hst => step_inv hf hi hst) h init_inv

/-! ## Every run ends -/

/-- the steps that are left to the sender with `m` signals to send, and to the others for these signals -/
def Sender.weight (m : ℕ) : Sender → ℕ
  | .check => 8 * m + 9
  | .loop => 8 * m + 8
  | .queue => 8 * m + 7
  | .incr => 8 * m + 2
  | .last => 7
  | .exited | .refused => 0

def Handler.weight : Option Handler → ℕ
  | some (.testZero _) => 3
  | some (.testOne _) => 2
  | some .leave => 1
  | none => 0

def Main.weight : Main → ℕ
  | .spin => 2
  | .print => 1
  | .ended _ => 0

def weight (s : State c) : ℕ :=
  if s.undef then 0
  else s.sender.weight (c.nr.toNat - s.i) + 4 * s.pending.items.length + Handler.weight s.handler + s.main.weight + 1

theorem sigqueue_weight (s : State c) (v : ℤ) (a : Sender) :
    weight { s.sigqueue v with sender := a } ≤ weight { s with sender := a } + 4 := by
  unfold State.sigqueue
  cases hp : s.pending.push v with
  | none => exact Nat.le_add_right _ _
  | some q =>
    simp only [weight, push_eq_some.1 hp, List.length_append, List.length_singleton]
    split_ifs
    · exact Nat.zero_le _
    · omega

/-- what a step of the sender changes besides the signal it may send -/
theorem move_weight {s : State c} (h : s.undef = false) {i : ℕ} {a : Sender} {k : ℕ}
    (hlt : a.weight (c.nr.toNat - i) + k < s.sender.weight (c.nr.toNat - s.i)) :
    weight { s with i := i, sender := a } + k < weight s := by
  have hw : weight { s with i := i, sender := a } = a.weight (c.nr.toNat - i) + 4 * s.pending.items.length +
      Handler.weight s.handler + s.main.weight + 1 := by simp [weight, h]
  have hw' : weight s = s.sender.weight (c.nr.toNat - s.i) + 4 * s.pending.items.length +
      Handler.weight s.handler + s.main.weight + 1 := by simp [weight, h]
  omega

theorem senderStep_weight {s t : State c} (hundef : s.undef = false) (hincr : s.sender = .incr → s.i < c.nr.toNat)
    (hst : s.senderStep = some t) : weight t < weight s := by
  cases hs : s.sender with
  | check =>
    simp only [State.senderStep, hs, Option.some.injEq] at hst
    refine hst ▸ move_weight (k := 0) hundef ?_
    rw [hs]
    split_ifs <;> simp [Sender.weight]
  | loop =>
    simp only [State.senderStep, hs, Option.some.injEq] at hst
    refine hst ▸ move_weight (k := 0) hundef ?_
    rw [hs]
    split_ifs
    · simp [Sender.weight]
    · simp only [Sender.weight]
      omega
  | queue =>
    simp only [State.senderStep, hs, Option.some.injEq] at hst
    exact hst ▸ (sigqueue_weight s 0 .incr).trans_lt (move_weight hundef (by rw [hs]; simp [Sender.weight]))
  | incr =>
    simp only [State.senderStep, hs, Option.some.injEq] at hst
    have hlt := hincr hs
    split_ifs at hst
    · subst hst
      simp [weight, hundef]
    · refine hst ▸ move_weight (k := 0) hundef ?_
      rw [hs]
      simp only [Sender.weight]
      omega
  | last =>
    simp only [State.senderStep, hs, Option.some.injEq] at hst
    exact hst ▸ (sigqueue_weight s 1 .exited).trans_lt (move_weight hundef (by rw [hs]; simp [Sender.weight]))
  | exited => simp [State.senderStep, hs] at hst
  | refused => simp [State.senderStep, hs] at hst

theorem handlerStep_weight {s : State c} (hundef : s.undef = false) {p : Handler} (hp : s.handler = some p) :
    weight (s.handlerStep p) < weight s := by
  cases p with
  | testZero v =>
    simp only [State.handlerStep]
    split_ifs <;> simp [weight, hundef, hp, Handler.weight]
  | testOne v => simp [State.handlerStep, weight, hundef, hp, Handler.weight]
  | leave => simp [State.handlerStep, weight, hundef, hp, Handler.weight]

theorem mainStep_weight {s t : State c} (hundef : s.undef = false) (hst : s.mainStep = some t) :
    weight t < weight s := by
  cases hm : s.main with
  | spin =>
    simp only [State.mainStep, hm] at hst
    split_ifs at hst
    obtain rfl := Option.some.inj hst
    simp [weight, hundef, hm, Main.weight]
  | print =>
    simp only [State.mainStep, hm, Option.some.injEq] at hst
    subst hst
    simp [weight, hundef, hm, Main.weight]
  | ended n => simp [State.mainStep, hm] at hst

theorem deliver_weight {s t : State c} (hundef : s.undef = false) (hst : s.deliver = some t) :
    weight t < weight s := by
  obtain ⟨v, q, hh, -, hq, rfl⟩ := deliver_eq_some hst
  simp [weight, hundef, hh, hq, Handler.weight]
  omega

theorem step_of_some {s t : State c} {p : Party} (h : step s p = some t) : s.undef = false := by
  unfold step at h
  split_ifs at h with hu
  exact Bool.eq_false_of_not_eq_true hu

/-- every step lowers the weight, when the loop stops at `nr` -/
theorem step_weight {s t : State c} {p : Party} (hincr : s.sender = .incr → s.i < c.nr.toNat)
    (hst : step s p = some t) : weight t < weight s := by
  have hundef := step_of_some hst
  unfold step at hst
  rw [hundef, if_neg (by decide)] at hst
  cases p with
  | sender => exact senderStep_weight hundef hincr hst
  | kernel => exact deliver_weight hundef hst
  | receiver =>
    cases hh : s.handler with
    | none => exact mainStep_weight hundef (by simpa [hh] using hst)
    | some p =>
      obtain rfl : s.handlerStep p = t := by simpa [hh] using hst
      exact handlerStep_weight hundef hh

theorem weight_lt {s t : State c} {p : Party} (h : Inv s) (hst : step s p = some t) : weight t < weight s := by
  refine step_weight (fun hs => ?_) hst
  have hplace := h.place
  rwa [hs] at hplace

/-- where nothing can go on, all signals have been sent and `done` is set -/
theorem Inv.done_of_stuck {s : State c} (h : Inv s) (hstuck : ∀ p, step s p = none) :
    s.done = true ∧ s.results.length = c.nr.toNat + 1 := by
  have hsender := hstuck .sender
  have hkernel := hstuck .kernel
  have hreceiver := hstuck .receiver
  simp only [step, h.undef, Bool.false_eq_true, if_false] at hsender hkernel hreceiver
  have hplace := h.place
  have hex : s.sender = .exited := by
    unfold State.senderStep at hsender
    cases hs : s.sender <;> simp only [hs, reduceCtorEq] at hsender
    · rfl
    · rw [hs] at hplace
      exact hplace.elim
  have hsent : sent s = List.replicate s.i 0 ++ [1] := by simp [sent, zeros, hex]
  rw [hex] at hplace
  refine ⟨?_, ?_⟩
  · by_contra hd
    have hspin : s.main = .spin := by
      by_contra hne
      exact hd (h.main hne)
    cases hh : s.handler with
    | some p => simp [hh] at hreceiver
    | none =>
      -- the terminator is not handled, so it is still pending
      have hpending : s.pending.items = [] := by
        unfold State.deliver at hkernel
        rw [hh, hspin] at hkernel
        exact pop_eq_none.1 (Option.map_eq_none_iff.1 hkernel)
      have hone : (1 : ℤ) ∈ handled s ++ inFlight s := by rw [← h.conserved, hsent]; simp
      simp [handled, inFlight, hd, hh, hpending, Handler.value] at hone
  · rw [h.results, List.length_replicate, hsent, List.length_append, List.length_replicate,
      show s.i = c.nr.toNat from hplace]
    rfl

theorem counts_exactly_of_fits (hf : Fits c) : CountsExactly c where
  queued l s h := by
    have hi := reaches_inv hf h
    refine ⟨hi.undef, fun r hr => ?_⟩
    rw [hi.results] at hr
    exact List.eq_of_mem_replicate hr
  exact l s h hd := by rw [(reaches_inv hf h).count_of_done hd, hf.bounds.1]
  done l s h hstuck := by
    obtain ⟨hd, hlen⟩ := (reaches_inv hf h).done_of_stuck hstuck
    refine ⟨hd, ?_⟩
    rw [hlen, hf.bounds.1]
    push_cast
    rfl
  ends := by
    refine ⟨weight (init c), fun l s h => ?_⟩
    have hle := Run.length_le weight (fun _ _ _ hi hst => step_inv hf hi hst) (fun _ _ _ hi hst => weight_lt hi hst) h
      init_inv
    omega

/-! ## The sender alone -/

/-- the sender is at its loop with `k` signals queued, and the receiver has had no turn -/
structure Filled (c : Setup) (k : ℕ) (s : State c) : Prop where
  sender : s.sender = .loop
  i : s.i = k
  pending : s.pending.items = List.replicate k 0
  handler : s.handler = none
  main : s.main = .spin
  done : s.done = false
  count : s.count = 0
  undef : s.undef = false

theorem step_sender {s t : State c} (hu : s.undef = false) (h : s.senderStep = some t) : step s .sender = some t := by
  unfold step
  rw [hu]
  exact h

/-- a signal more, without a turn of the receiver -/
theorem Filled.succ {k : ℕ} {l : List Party} {s : State c} (h : Filled c k s) (hr : Reaches c l s)
    (hk : (k : ℤ) < c.nr.toInt) (hroom : k < c.rlimCur.toNat) :
    ∃ l' t, Reaches c l' t ∧ t.sender = .incr ∧ Filled c (k + 1) { t with sender := .loop, i := k + 1 } ∧ t.i = k := by
  obtain ⟨q, hq, hs⟩ := sigqueue_room (s := { s with sender := .queue }) (by simpa [h.pending] using hroom) 0
  have h1 : step s .sender = some { s with sender := .queue } :=
    step_sender h.undef (by simp [State.senderStep, h.sender, h.i, hk])
  have h2 : step { s with sender := .queue } .sender =
      some { s with pending := q, results := s.results ++ [true], sender := .incr } :=
    step_sender h.undef (by rw [State.senderStep, hs])
  refine ⟨_, _, (hr.snoc h1).snoc h2, rfl, ?_, h.i⟩
  refine { h with sender := rfl, i := rfl, pending := ?_ }
  rw [List.replicate_succ', ← h.pending]
  exact hq

theorem exists_filled (hacc : c.Accepted) {k : ℕ} (hk : (k : ℤ) ≤ max 0 c.nr.toInt) (hroom : k ≤ c.rlimCur.toNat)
    (hmax : k ≤ intMax) : ∃ l s, Reaches c l s ∧ Filled c k s := by
  induction k with
  | zero =>
    have h1 : step (init c) .sender = some { init c with sender := .loop } :=
      step_sender rfl (by rw [State.senderStep, if_neg hacc]; rfl)
    have h0 : Reaches c [] (init c) := .nil _
    exact ⟨_, _, h0.snoc h1, ⟨rfl, rfl, rfl, rfl, rfl, rfl, rfl, rfl⟩⟩
  | succ k ih =>
    obtain ⟨l, s, hr, h⟩ := ih (by omega) (by omega) (by omega)
    obtain ⟨l', t, hr', hs, ht, hi⟩ := h.succ hr (by omega) (by omega)
    have h1 : step t .sender = some { t with sender := .loop, i := k + 1 } := by
      refine step_sender ht.undef ?_
      rw [State.senderStep, hs]
      simp only [hi]
      rw [if_neg (by omega)]
    exact ⟨_, _, hr'.snoc h1, ht⟩

/-- the test of the loop fails -/
theorem Filled.leave {k : ℕ} {l : List Party} {s : State c} (h : Filled c k s) (hr : Reaches c l s)
    (hk : c.nr.toInt ≤ k) : Reaches c (l ++ [.sender]) { s with sender := .last } :=
  hr.snoc (step_sender h.undef (by simp [State.senderStep, h.sender, h.i, hk]))

theorem nonneg_of_counts (hacc : c.Accepted) (h : CountsExactly c) : 0 ≤ c.nr.toInt := by
  by_contra hneg
  -- a negative number passes as a large one, and only the terminator is sent
  have hlimit : 0 < c.rlimCur.toNat := by
    have hle := Nat.le_of_not_lt hacc
    have hmsb := BitVec.toInt_neg_iff.1 (Int.lt_of_not_ge hneg)
    omega
  obtain ⟨l, s, hr, hs⟩ := exists_filled hacc (k := 0) (by simp) (Nat.zero_le _) (Nat.zero_le _)
  have hr₁ := hs.leave hr (by push_cast; omega)
  obtain ⟨q, hq, hsig⟩ := sigqueue_room (s := { s with sender := .last }) (by simpa [hs.pending] using hlimit) 1
  have hone : q.items = [1] := by rw [hq, hs.pending]; rfl
  obtain ⟨r, hpop, -⟩ := exists_pop hone
  have hr₂ := hr₁.snoc (step_sender (t := { s with pending := q, results := s.results ++ [true], sender := .exited })
    hs.undef (by rw [State.senderStep, hsig]))
  have hr₃ := hr₂.snoc (p := .kernel) (t := { s with pending := r, results := s.results ++ [true], sender := .exited,
                                                     handler := some (.testZero 1) })
    (by simp [step, State.deliver, hs.undef, hs.handler, hs.main, hpop])
  have hr₄ := hr₃.snoc (p := .receiver) (t := { s with pending := r, results := s.results ++ [true], sender := .exited,
                                                       handler := some (.testOne 1) })
    (by simp [step, State.handlerStep, hs.undef])
  have hr₅ := hr₄.snoc (p := .receiver) (t := { s with pending := r, results := s.results ++ [true], sender := .exited,
                                                       handler := some .leave, done := true })
    (by simp [step, State.handlerStep, hs.undef])
  have hcount := h.exact _ _ hr₅ rfl
  simp only [hs.count] at hcount
  omega

theorem fits_of_counts (hacc : c.Accepted) (h : CountsExactly c) : Fits c := by
  have hnonneg := nonneg_of_counts hacc h
  have hn := toInt_of_nonneg hnonneg
  have hle := Nat.le_of_not_lt hacc
  have hsmall : c.nr.toNat ≤ intMax := by
    by_contra hbig
    -- the sender counts up to the largest `int`, and once more
    obtain ⟨l, s, hr, hs⟩ := exists_filled hacc (k := intMax) (by omega) (by omega) le_rfl
    obtain ⟨l', t, hr', ht, hfilled, hi⟩ := hs.succ hr (by omega) (by omega)
    have hr'' := hr'.snoc (t := { t with undef := true })
      (step_sender hfilled.undef (by rw [State.senderStep, ht]; simp [hi]))
    cases (h.queued _ _ hr'').1
  refine ⟨hnonneg, ?_, ?_⟩
  · by_contra hfull
    -- the signals of the loop fill the queue
    obtain ⟨l, s, hr, hs⟩ := exists_filled hacc (k := c.nr.toNat) (by omega) hle hsmall
    have hr₁ := hs.leave hr (by omega)
    have hsig := sigqueue_full (s := { s with sender := .last }) (by simp [hs.pending]; omega) 1
    have hr₂ := hr₁.snoc (step_sender (t := { s with results := s.results ++ [false], sender := .exited })
      hs.undef (by rw [State.senderStep, hsig]))
    cases (h.queued _ _ hr₂).2 false (by simp)
  · unfold intMax at hsmall
    omega

/-- **Counting.** A setup that the check accepts is right if and only if the signals fit. -/
theorem counts_exactly_iff (hacc : c.Accepted) : CountsExactly c ↔ Fits c :=
  ⟨fits_of_counts hacc, counts_exactly_of_fits⟩

theorem counts_three_of_four : CountsExactly ⟨3, 4⟩ := (counts_exactly_iff (by decide)).2 (by decide)

/-- the sender sends all it has, and then the receiver handles what has been queued -/
def drain : List Party :=
  List.replicate 9 .sender ++ [.kernel, .receiver, .receiver, .receiver, .kernel, .receiver, .receiver, .receiver]

/-- two signals with a limit of two: the terminator is refused, and the receiver waits for ever -/
theorem limit_reached : (⟨2, 2⟩ : Setup).Accepted ∧ ¬ CountsExactly ⟨2, 2⟩ ∧
    ∃ s : State ⟨2, 2⟩, Reaches ⟨2, 2⟩ drain s ∧ s.results = [true, true, false] ∧ s.count = 2 ∧ s.done = false ∧
      ∀ p, step s p = none := by
  have hobs : (drain.foldlM step (init ⟨2, 2⟩)).map (fun s : State ⟨2, 2⟩ => (s.results, s.count, s.done,
      [Party.sender, .kernel, .receiver].map fun p => (step s p).isSome)) =
        some ([true, true, false], 2, false, [false, false, false]) := by decide
  obtain ⟨s, hs, ho⟩ := Option.map_eq_some_iff.1 hobs
  simp only [Prod.mk.injEq, List.map_cons, List.map_nil, List.cons.injEq, Option.isSome_eq_false_iff,
    Option.isNone_iff_eq_none] at ho
  obtain ⟨hresults, hcount, hdone, h1, h2, h3, -⟩ := ho
  have hr : Reaches ⟨2, 2⟩ drain s := run_takes_iff.2 hs
  refine ⟨by decide, fun h => ?_, s, hr, hresults, hcount, hdone, fun p => ?_⟩
  · cases (h.queued _ _ hr).2 false (by rw [hresults]; simp)
  · cases p
    exacts [h1, h2, h3]

end Cse422.Signals
