/-
What a client's service depends on. The loop goes through all 20 words of the block, whatever `read` has returned, so
words that the client has not sent are printed, and can shut the server down.

- `acts_on_received_iff`: what is printed of a client and whether the server shuts down are the same for every block
  that `malloc` may return, if and only if what was received reaches into the last word or ends the loop itself;
- `stale_terminate`: a client that sends nothing, and a block in which the terminate code was left;
- `serverMain_congr`: a whole run of the server.
-/
import Cse422.Server.Main

namespace Cse422.Server

open Words

/-! ## The property -/

/-- two services that receive the same bytes print the same and decide the same -/
def ActsOnReceived (r : Received) : Prop :=
  ∀ b b', (serve b r).lines = (serve b' r).lines ∧ (serve b r).shutdown = (serve b' r).shutdown

/-- what the loop decodes of word `i` before anything is known of the block -/
def Received.value (r : Received) (i : ℕ) : Word := recvData (readInto (fun _ => 0) r.bytes) i

/-- the bytes reach into the last word, or there is a word among them that ends the loop -/
def Determined (r : Received) : Prop :=
  4 * dataLen - 2 ≤ r.bytes.length ∨ ∃ i, 4 * i + 2 ≤ r.bytes.length ∧ Stop (r.value i)

/-! ## Services by their values -/

/-- the values the loop goes through -/
def Received.values (r : Received) (b : Before) : List Word := Server.values (readInto b.block r.bytes) dataLen 0

theorem serve_lines (b : Before) (r : Received) :
    (serve b r).lines = ((r.values b).takeWhile fun v => ¬ Stop v).map Line.received ++
      (if (r.values b).find? (fun v => Stop v) = some coffeeTerminate then [.terminate] else []) ++
        [.read r.bytes.length (r.bytes.length / 4)] := by
  rw [serve, loop_fst]
  rfl

theorem serve_shutdown (b : Before) (r : Received) :
    (serve b r).shutdown = true ↔ (r.values b).find? (fun v => Stop v) = some coffeeTerminate := by
  rw [serve, decide_eq_true_iff, loop_shutdown _ _ _ (Or.inl (by decide))]
  rfl

/-- the values that are printed -/
def Served.printed (s : Served) : List Word :=
  s.lines.filterMap fun
    | .received v => some v
    | _ => none

theorem serve_printed (b : Before) (r : Received) :
    (serve b r).printed = (r.values b).takeWhile fun v => ¬ Stop v := by
  rw [Served.printed, serve_lines]
  split_ifs <;> simp [List.filterMap_append, List.filterMap_map]

theorem values_getElem? (r : Received) (b : Before) {i : ℕ} (h : i < dataLen) :
    (r.values b)[i]? = some (recvData (readInto b.block r.bytes) i) := by
  simp [Received.values, Server.values, h]

theorem values_length (r : Received) (b : Before) : (r.values b).length = dataLen := by
  simp [Received.values, Server.values]

/-! ## What comes after a stop does not matter -/

theorem find?_append_of_mem {α : Type*} {p : α → Bool} {l : List α} (h : ∃ v ∈ l, p v) (m : List α) :
    (l ++ m).find? p = l.find? p := by
  obtain ⟨w, hw⟩ := Option.isSome_iff_exists.1 (List.find?_isSome.2 h)
  rw [List.find?_append, hw]
  rfl

theorem takeWhile_append_of_mem {α : Type*} {p : α → Bool} {l : List α} (h : ∃ v ∈ l, ¬ p v) (m : List α) :
    (l ++ m).takeWhile p = l.takeWhile p := by
  obtain ⟨v, hv, hp⟩ := h
  rw [List.takeWhile_append, if_neg]
  intro hlen
  have hself := (List.takeWhile_prefix p).eq_of_length hlen
  exact hp (List.takeWhile_eq_self_iff.1 hself v hv)

theorem value_of_received {r : Received} {i : ℕ} (h : 4 * i + 2 ≤ r.bytes.length) (b : Before) :
    recvData (readInto b.block r.bytes) i = r.value i := recvData_received h _ _

/-- the words received are the same before every block -/
theorem values_take {r : Received} {k : ℕ} (h : 4 * k ≤ r.bytes.length + 2) (b b' : Before) :
    (r.values b).take k = (r.values b').take k := by
  have hbound := r.bound
  apply List.ext_getElem?
  intro i
  rw [List.getElem?_take, List.getElem?_take]
  split_ifs with hi
  · have hlt : i < dataLen := by unfold dataLen at *; omega
    rw [values_getElem? r b hlt, values_getElem? r b' hlt, value_of_received (by omega), value_of_received (by omega)]
  · rfl

theorem serve_congr {r : Received} (h : Determined r) (b b' : Before) : serve b r = serve b' r := by
  have hsame : (r.values b).find? (fun v => Stop v) = (r.values b').find? (fun v => Stop v) ∧
      ((r.values b).takeWhile fun v => ¬ Stop v) = (r.values b').takeWhile fun v => ¬ Stop v := by
    rcases h with hlen | ⟨i, hi, hstop⟩
    · -- all the words have been received
      have htake := values_take (r := r) (k := dataLen) (by unfold dataLen at *; omega) b b'
      rw [List.take_of_length_le (values_length r b).le, List.take_of_length_le (values_length r b').le] at htake
      rw [htake]
      exact ⟨rfl, rfl⟩
    · -- the loop ends among the words received
      have hbound := r.bound
      have htake := values_take (r := r) (k := i + 1) (by omega) b b'
      have hmem : r.value i ∈ (r.values b).take (i + 1) := by
        refine List.mem_of_getElem? (i := i) ?_
        rw [List.getElem?_take, if_pos (Nat.lt_succ_self i), values_getElem? r b (by unfold dataLen at *; omega),
          value_of_received hi]
      have hb : r.values b = (r.values b).take (i + 1) ++ (r.values b).drop (i + 1) := (List.take_append_drop _ _).symm
      have hb' : r.values b' = (r.values b).take (i + 1) ++ (r.values b').drop (i + 1) := by
        rw [htake, List.take_append_drop]
      rw [hb, hb', find?_append_of_mem ⟨_, hmem, by simpa using hstop⟩, find?_append_of_mem ⟨_, hmem, by simpa using hstop⟩,
        takeWhile_append_of_mem ⟨_, hmem, by simpa using hstop⟩,
        takeWhile_append_of_mem ⟨_, hmem, by simpa using hstop⟩]
      exact ⟨rfl, rfl⟩
  have hlines : (serve b r).lines = (serve b' r).lines := by rw [serve_lines, serve_lines, hsame.1, hsame.2]
  have hdown : (serve b r).shutdown = (serve b' r).shutdown := by
    rw [Bool.eq_iff_iff, serve_shutdown, serve_shutdown, hsame.1]
  calc serve b r = ⟨(serve b r).lines, (serve b r).shutdown⟩ := rfl
    _ = serve b' r := by rw [hlines, hdown]

/-! ## Blocks that show -/

/-- where the received bytes do not determine the loop, blocks of ones and blocks of twos end it nowhere -/
theorem not_stop_of_filled {r : Received} (h : ¬ Determined r) {c : Byte} (hc : c = 1 ∨ c = 2) (i : ℕ) :
    ¬ Stop (recvData (readInto (fun _ => c) r.bytes) i) := by
  obtain ⟨-, hstop⟩ := not_or.1 h
  rcases Nat.lt_or_ge r.bytes.length (4 * i + 2) with hlt | hge
  · -- the second byte of the word is from the block
    have hval := toNat_recvData (readInto (fun _ => c) r.bytes) i
    rw [readInto_of_le (a := 4 * i + 1) (by omega)] at hval
    rintro (hnl | hterm)
    · rw [hnl] at hval
      rcases hc with rfl | rfl <;> simp [newline] at hval <;> omega
    · rw [hterm] at hval
      rcases hc with rfl | rfl <;> simp [coffeeTerminate] at hval <;> omega
  · exact fun hs => hstop ⟨i, hge, by rwa [value_of_received hge ⟨fun _ => c, 0⟩] at hs⟩

/-- then all the words are printed -/
theorem printed_of_filled {r : Received} (h : ¬ Determined r) {c : Byte} (hc : c = 1 ∨ c = 2) :
    (serve ⟨fun _ => c, 0⟩ r).printed = r.values ⟨fun _ => c, 0⟩ := by
  rw [serve_printed]
  refine List.takeWhile_eq_self_iff.2 fun v hv => ?_
  obtain ⟨i, -, rfl⟩ := List.mem_map.1 hv
  simpa using not_stop_of_filled h hc i

/-- what is printed before ones and before twos is only the same when the received bytes determine it -/
theorem determined_of_printed {r : Received}
    (h : (serve ⟨fun _ => 1, 0⟩ r).printed = (serve ⟨fun _ => 2, 0⟩ r).printed) : Determined r := by
  by_contra hd
  rw [printed_of_filled hd (Or.inl rfl), printed_of_filled hd (Or.inr rfl)] at h
  -- the first word of which the second byte is missing
  obtain ⟨hlen, -⟩ := not_or.1 hd
  have hi : (r.bytes.length + 2) / 4 < dataLen := by unfold dataLen at *; omega
  have hval : recvData (readInto (fun _ => 1) r.bytes) ((r.bytes.length + 2) / 4) =
      recvData (readInto (fun _ => 2) r.bytes) ((r.bytes.length + 2) / 4) := by
    have hget := congrArg (fun l : List Word => l[(r.bytes.length + 2) / 4]?) h
    simpa only [values_getElem? _ _ hi, Option.some.injEq] using hget
  have hnat := congrArg BitVec.toNat hval
  rw [toNat_recvData, toNat_recvData, readInto_of_le (a := 4 * ((r.bytes.length + 2) / 4) + 1) (by omega),
    readInto_of_le (a := 4 * ((r.bytes.length + 2) / 4) + 1) (by omega)] at hnat
  simp at hnat
  omega

/-- **What a service depends on.** -/
theorem acts_on_received_iff (r : Received) : ActsOnReceived r ↔ Determined r := by
  constructor
  · intro h
    exact determined_of_printed (by rw [Served.printed, Served.printed, (h _ _).1])
  · intro h b b'
    rw [serve_congr h b b']
    exact ⟨rfl, rfl⟩

/-- a block in which an earlier client has left the code -/
def leftOver : Before := ⟨fun a => if a % 4 = 0 then 1 else if a % 4 = 1 then 162 else 0, 0⟩

/-- a client that sends nothing shuts the server down, or is told of 20 zeros -/
theorem stale_terminate : ¬ ActsOnReceived ⟨[], by decide⟩ ∧
    serve leftOver ⟨[], by decide⟩ = ⟨[.terminate, .read 0 0], true⟩ ∧
    serve ⟨fun _ => 0, 0⟩ ⟨[], by decide⟩ = ⟨List.replicate 20 (.received 0) ++ [.read 0 0], false⟩ := by
  have hleft : serve leftOver ⟨[], by decide⟩ = ⟨[.terminate, .read 0 0], true⟩ := by decide
  have hzero : serve ⟨fun _ => 0, 0⟩ ⟨[], by decide⟩ =
      ⟨List.replicate 20 (.received 0) ++ [.read 0 0], false⟩ := by decide
  refine ⟨fun h => ?_, hleft, hzero⟩
  have hdown := (h leftOver ⟨fun _ => 0, 0⟩).2
  rw [hleft, hzero] at hdown
  cases hdown

/-! ## A run of the server -/

/-- when every client's bytes determine its service, so do they the run -/
theorem serverMain_congr {clients : List Client} (h : ∀ r, .sends r ∈ clients → Determined r) (before before' : ℕ → Before)
    (k : ℕ) : serverMain before k clients = serverMain before' k clients := by
  induction clients generalizing k with
  | nil => rfl
  | cons a clients ih =>
    cases a with
    | notAccepted => rfl
    | notRead => rfl
    | sends r =>
      have hserve := serve_congr (h r List.mem_cons_self) (before k) (before' k)
      have hrest := ih (fun r hr => h r (List.mem_cons_of_mem _ hr)) (k + 1)
      rw [serverMain, serverMain, hserve, hrest]

end Cse422.Server
