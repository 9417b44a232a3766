/-
What a client sends and what the server makes of it. A client sends words in network order and closes; TCP hands the
bytes over in segments, and the server's one `read` gets the first.

Premises about TCP: the bytes arrive in order and without loss, and a `read` returns at least one of them before the end
of the stream; how they are cut is not known.

- `recovers_iff`: the values printed are the words sent, and the decision is the right one, for every block that
  `malloc` may return, if and only if the words are twenty zeros and the first segment reaches into the last of them;
- `terminate_not_recovered`: a client that sends the terminate code.

The 16 bits that `ntohs` turns around are the high half of a word in network order (`value_of_sent`), so a word is
decoded as itself only when it is zero.
-/
import Cse422.Server.Stale

namespace Cse422.Server

open Words

/-! ## The property -/

/-- the words a client sends -/
structure Message where
  words : List Word
  bound : words.length ≤ dataLen

/-- a way to split the bytes of a message -/
structure Segmentation (m : Message) where
  segments : List (List Byte)
  nonempty : ∀ s ∈ segments, s ≠ []
  stream : segments.flatten = networkStream m.words

theorem Segmentation.head_prefix {m : Message} (g : Segmentation m) : g.segments.headD [] <+: networkStream m.words := by
  rw [← g.stream]
  cases g.segments with
  | nil => exact List.prefix_rfl
  | cons s rest => exact List.prefix_append s rest.flatten

/-- what `read` gets; at the end of the stream it gets nothing -/
def Segmentation.first {m : Message} (g : Segmentation m) : Received :=
  ⟨g.segments.headD [], g.head_prefix.length_le.trans (by
    rw [networkStream_length]
    exact Nat.mul_le_mul_left 4 m.bound)⟩

/-- the terminate code is sent, and no newline before it -/
def Message.Terminates (m : Message) : Prop := ∃ k : ℕ, m.words[k]? = some coffeeTerminate ∧ newline ∉ m.words.take k

/-- the server prints the words up to the first newline or terminate code, and shuts down when it is told to -/
def Recovers {m : Message} (g : Segmentation m) : Prop :=
  ∀ b, (serve b g.first).printed = m.words.takeWhile (fun v => ¬ Stop v) ∧
    ((serve b g.first).shutdown = true ↔ m.Terminates)

/-! ## What is decoded -/

/-- a word that has been received is decoded as its high half -/
theorem value_of_sent {m : Message} (g : Segmentation m) {i : ℕ} (h : 4 * i + 2 ≤ g.first.bytes.length) :
    ∃ v, m.words[i]? = some v ∧ (g.first.value i).toNat = v.toNat / 2 ^ 16 := by
  have hpre : g.first.bytes <+: networkStream m.words := g.head_prefix
  have hi : i < m.words.length := by
    have hle := hpre.length_le
    rw [networkStream_length] at hle
    omega
  have hbyte : ∀ k < 2, ∀ block, readInto block g.first.bytes (4 * i + k) = byteOf m.words[i] (3 - k) := by
    intro k hk block
    have hsome := networkStream_getElem? m.words i (k := k) (by omega)
    rw [List.getElem?_eq_getElem hi, Option.map_some] at hsome
    rw [readInto_of_lt (by omega)]
    exact Option.some.inj ((List.prefix_iff_getElem?.1 hpre (4 * i + k) (by omega)).symm.trans hsome)
  refine ⟨m.words[i], List.getElem?_eq_getElem hi, ?_⟩
  have hv := m.words[i].isLt
  rw [Received.value, toNat_recvData, hbyte 1 (by omega)]
  have h0 := hbyte 0 (by omega) fun _ => 0
  rw [Nat.add_zero] at h0
  rw [h0, toNat_byteOf, toNat_byteOf]
  omega

theorem stop_high_half {v : Word} (h : Stop v) : v.toNat / 2 ^ 16 = 0 := by
  rcases h with rfl | rfl <;> decide

/-- the item after the longest prefix that passes a test fails it -/
theorem takeWhile_stops {α : Type*} {p : α → Bool} {l : List α} {v : α}
    (h : l[(l.takeWhile p).length]? = some v) : p v = false := by
  induction l with
  | nil => cases h
  | cons a l ih =>
    by_cases ha : p a = true
    · rw [List.takeWhile_cons_of_pos ha, List.length_cons, List.getElem?_cons_succ] at h
      exact ih h
    · rw [List.takeWhile_cons_of_neg ha] at h
      cases h
      exact Bool.eq_false_iff.2 ha

theorem takeWhile_length_le {α : Type*} {p : α → Bool} {l : List α} {v : α} {i : ℕ} (h : l[i]? = some v)
    (hv : p v = false) : (l.takeWhile p).length ≤ i := by
  induction l generalizing i with
  | nil => exact Nat.zero_le i
  | cons a l ih =>
    cases i with
    | zero =>
      cases h
      rw [List.takeWhile_cons_of_neg (by simp [hv])]
      exact le_rfl
    | succ i =>
      rw [List.takeWhile_cons]
      split_ifs
      · exact Nat.succ_le_succ (ih h)
      · exact Nat.zero_le _

/-- the loop never ends at a word that has been received: the message would end there or earlier, at a word that is
decoded as zero -/
theorem not_stop_of_recovers {m : Message} {g : Segmentation m} (h : Recovers g) {i : ℕ}
    (hi : 4 * i + 2 ≤ g.first.bytes.length) : ¬ Stop (g.first.value i) := by
  intro hstop
  have hbound := g.first.bound
  let b : Before := ⟨fun _ => 0, 0⟩
  have hvalue : ∀ j ≤ i, (g.first.values b)[j]? = some (g.first.value j) := by
    intro j hj
    rw [values_getElem? _ _ (by unfold dataLen at *; omega), value_of_received (by omega)]
  have hprinted := (h b).1
  rw [serve_printed] at hprinted
  have hji := takeWhile_length_le (p := fun v => ¬ Stop v) (hvalue i le_rfl) (by simpa using hstop)
  have hstop' := takeWhile_stops (hvalue _ hji)
  rw [hprinted] at hji hstop'
  obtain ⟨v, hv, hval⟩ := value_of_sent g (i := (m.words.takeWhile fun v => ¬ Stop v).length) (by omega)
  have hsent : Stop v := by simpa using takeWhile_stops hv
  rw [stop_high_half hsent] at hval
  have hzero := BitVec.eq_of_toNat_eq (y := (0 : Word)) hval
  rw [hzero] at hstop'
  exact absurd hstop' (by decide)

/-- a message that is recovered is of zeros, and received up to its last half word -/
theorem zeros_of_recovers {m : Message} {g : Segmentation m} (h : Recovers g) :
    m.words = List.replicate dataLen 0 ∧ 4 * dataLen - 2 ≤ g.first.bytes.length := by
  have hlen : 4 * dataLen - 2 ≤ g.first.bytes.length := by
    have hd : Determined g.first := determined_of_printed (by rw [(h _).1, (h _).1])
    exact hd.resolve_right fun ⟨i, hi, hstop⟩ => not_stop_of_recovers h hi hstop
  refine ⟨?_, hlen⟩
  have hreceived : ∀ i < dataLen, 4 * i + 2 ≤ g.first.bytes.length := by
    intro i hi
    unfold dataLen at *
    omega
  let b : Before := ⟨fun _ => 0, 0⟩
  -- all the words are printed, so all of them are the words sent
  have hall : g.first.values b = m.words := by
    have hself : (g.first.values b).takeWhile (fun v => ¬ Stop v) = g.first.values b := by
      refine List.takeWhile_eq_self_iff.2 fun v hv => ?_
      obtain ⟨i, hi, rfl⟩ := List.mem_map.1 hv
      have hlt : i < dataLen := by simpa using hi
      simpa [value_of_received (hreceived i hlt) b] using not_stop_of_recovers h (hreceived i hlt)
    have hprinted := (h b).1
    rw [serve_printed, hself] at hprinted
    have hpre : g.first.values b <+: m.words := hprinted ▸ List.takeWhile_prefix _
    exact hpre.eq_of_length_le (m.bound.trans (values_length _ b).ge)
  refine List.eq_replicate_iff.2 ⟨by rw [← hall, values_length], fun v hv => ?_⟩
  obtain ⟨i, hi, rfl⟩ := List.mem_iff_getElem.1 hv
  have hlt : i < dataLen := hi.trans_le m.bound
  obtain ⟨v, hsent, hval⟩ := value_of_sent g (hreceived i hlt)
  have hdecoded := values_getElem? g.first b hlt
  rw [hall, hsent, value_of_received (hreceived i hlt)] at hdecoded
  rw [List.getElem?_eq_getElem hi] at hsent
  rw [← Option.some.inj hdecoded] at hval
  rw [Option.some.inj hsent]
  apply BitVec.eq_of_toNat_eq
  show v.toNat = 0
  omega

/-- twenty zeros in one segment, or all but two bytes of them -/
theorem recovers_of_zeros {m : Message} {g : Segmentation m} (hm : m.words = List.replicate dataLen 0)
    (hlen : 4 * dataLen - 2 ≤ g.first.bytes.length) : Recovers g := by
  intro b
  have hvalues : g.first.values b = List.replicate dataLen 0 := by
    refine List.eq_replicate_iff.2 ⟨values_length _ b, fun v hv => ?_⟩
    obtain ⟨i, hi, rfl⟩ := List.mem_map.1 hv
    have hlt : i < dataLen := by simpa using hi
    have hi' : 4 * i + 2 ≤ g.first.bytes.length := by unfold dataLen at *; omega
    rw [value_of_received hi' b]
    obtain ⟨v, hsent, hval⟩ := value_of_sent g hi'
    have hzero : v = 0 := List.eq_of_mem_replicate (hm ▸ List.mem_of_getElem? hsent)
    rw [hzero] at hval
    exact BitVec.eq_of_toNat_eq hval
  refine ⟨by rw [serve_printed, hvalues, hm], ?_⟩
  rw [serve_shutdown, hvalues]
  constructor
  · intro h
    have hmem := List.mem_of_find?_eq_some h
    cases List.eq_of_mem_replicate hmem
  · rintro ⟨k, hk, -⟩
    have hmem := List.mem_of_getElem? hk
    rw [hm] at hmem
    cases List.eq_of_mem_replicate hmem

/-- **What the server recovers.** -/
theorem recovers_iff {m : Message} (g : Segmentation m) :
    Recovers g ↔ m.words = List.replicate dataLen 0 ∧ 4 * dataLen - 2 ≤ g.first.bytes.length :=
  ⟨zeros_of_recovers, fun ⟨hm, hlen⟩ => recovers_of_zeros hm hlen⟩

def terminateMessage : Message := ⟨[coffeeTerminate], by decide⟩

/-- a client that sends the terminate code, in one segment -/
def terminateSegment : Segmentation terminateMessage := ⟨[[0, 0, 1, 162]], by decide, by decide⟩

/-- the server prints zeros, and goes on -/
theorem terminate_not_recovered : ¬ Recovers terminateSegment ∧
    serve ⟨fun _ => 0, 0⟩ terminateSegment.first = ⟨List.replicate 20 (.received 0) ++ [.read 4 1], false⟩ := by
  have hserve : serve ⟨fun _ => 0, 0⟩ terminateSegment.first =
      ⟨List.replicate 20 (.received 0) ++ [.read 4 1], false⟩ := by decide
  refine ⟨fun h => ?_, hserve⟩
  have hdown := (h ⟨fun _ => 0, 0⟩).2.2 ⟨0, rfl, by decide⟩
  rw [hserve] at hdown
  cases hdown

end Cse422.Server
