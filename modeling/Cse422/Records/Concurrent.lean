/-
Runs of `appendfile_count.c` at the same time, on one file.

Each opens the file with mode "a" and gives its stream the header, the arguments and the newline with a call of
`fprintf` each. A stream keeps bytes back and writes some of them out when what it is given does not fit its buffer;
`fclose` writes the rest. A write goes to the end of the file, wherever that is by then.

- `appends_linearize`: in every order of the calls and writes, no byte is lost, written twice or taken out of the order
  of its record; and when the records fit the buffer, the file is at any moment what the runs that have closed their
  streams leave one after the other, in the order of their calls of `fclose` (`closings`);
- `records_torn`: two records that do not fit are torn apart, and the file has no records any more.

Premises about the C library and the kernel:
- `fopen` succeeds, and so does every write: it appends all its bytes at once, at the end the file has then;
- a stream that has room for what it is given keeps it; when it has not, it may write any part of what it has kept,
  from the front, as often as it likes.
-/
import Cse422.Core.Interleave
import Cse422.Records.Decoding

namespace Cse422.Records

open Words Lts Framing

/-! ## The program -/

/-- one run of the program, from `fopen` on -/
structure Appender where
  run : InMemory
  /-- what the calls of `fprintf` to come give to the stream -/
  todo : List (List Byte)
  buffer : List Byte
  /-- what the stream has written to the file -/
  sent : List Byte
  closed : Bool

/-- the calls of `fprintf` -/
def pieces (args : List (List Byte)) : List (List Byte) :=
  (decimal (recordLen args) ++ [space]) :: (args.map fun a => a ++ [space]) ++ [[newline]]

def Appender.start (r : InMemory) : Appender := ⟨r, pieces r.args, [], [], false⟩

inductive StdioCall where
  | fprintf
  /-- the stream writes out the first `k` of the bytes it has kept back -/
  | write (k : ℕ)
  | fclose
  deriving DecidableEq, Repr

/-- a step of a run, on the bytes of the file; `bufsiz` is the size of the buffers -/
def appendStep (bufsiz : ℕ) (file : List Byte) (a : Appender) : StdioCall → Option (List Byte × Appender)
  | .fprintf =>
    if a.todo = [] then none
    else some (file, { a with todo := a.todo.tail, buffer := a.buffer ++ a.todo.headD [] })
  | .write k =>
    if bufsiz < a.buffer.length + (a.todo.headD []).length then
      some (file ++ a.buffer.take k, { a with buffer := a.buffer.drop k, sent := a.sent ++ a.buffer.take k })
    else none
  | .fclose =>
    if a.todo = [] ∧ a.closed = false then
      some (file ++ a.buffer, { a with buffer := [], sent := a.sent ++ a.buffer, closed := true })
    else none

/-- the runs before their first call -/
def opened (old : List Byte) (runs : List InMemory) : Pool (List Byte) Appender := ⟨old, runs.map .start⟩

/-- the runs that have closed their streams -/
def closedRuns (ls : List Appender) : List InMemory := (ls.filter (·.closed)).map (·.run)

/-- the runs that call `fclose` in `l`, in the order of the calls -/
def closings (runs : List InMemory) (l : List (ℕ × StdioCall)) : List InMemory :=
  l.filterMap fun i => if i.2 = .fclose then runs[i.1]? else none

def InMemory.record (r : InMemory) : List Byte := Records.record r.args

/-! ## One run -/

theorem pieces_flatten (args : List (List Byte)) : (pieces args).flatten = record args := by
  simp [pieces, record, recordBody]

/-- the bytes of a run: written, kept back and to come -/
structure Appender.Inv (a : Appender) : Prop where
  bytes : a.sent ++ a.buffer ++ a.todo.flatten = a.run.record
  closed : a.closed = true → a.buffer = [] ∧ a.todo = []

theorem start_inv (r : InMemory) : (Appender.start r).Inv := ⟨pieces_flatten r.args, fun h => by cases h⟩

variable {bufsiz : ℕ} {file file' : List Byte} {a b : Appender} {c : StdioCall}

/-- what a step of a run does: it writes `w` to the end of the file, and takes it from what it has kept back -/
theorem appendStep_some (hst : appendStep bufsiz file a c = some (file', b)) (ha : a.Inv) :
    ∃ w, file' = file ++ w ∧ b.sent = a.sent ++ w ∧ b.run = a.run ∧ b.Inv := by
  cases c with
  | fprintf =>
    simp only [appendStep] at hst
    split_ifs at hst with htodo
    obtain ⟨rfl, rfl⟩ := Prod.mk.inj (Option.some.inj hst)
    refine ⟨[], (List.append_nil _).symm, (List.append_nil _).symm, rfl, ?_, fun hc => absurd (ha.closed hc).2 htodo⟩
    obtain ⟨piece, rest, heq⟩ := List.exists_cons_of_ne_nil htodo
    have hbytes := ha.bytes
    rw [heq, List.flatten_cons] at hbytes
    simpa [heq] using hbytes
  | write k =>
    simp only [appendStep] at hst
    split_ifs at hst
    obtain ⟨rfl, rfl⟩ := Prod.mk.inj (Option.some.inj hst)
    refine ⟨_, rfl, rfl, rfl, ?_, fun hc => ?_⟩
    · rw [List.append_assoc a.sent, List.take_append_drop]
      exact ha.bytes
    · obtain ⟨hbuffer, htodo⟩ := ha.closed hc
      exact ⟨by simp [hbuffer], htodo⟩
  | fclose =>
    simp only [appendStep] at hst
    split_ifs at hst with hclose
    obtain ⟨rfl, rfl⟩ := Prod.mk.inj (Option.some.inj hst)
    refine ⟨_, rfl, rfl, rfl, ?_, fun _ => ⟨rfl, hclose.1⟩⟩
    simpa using ha.bytes

/-- the steps that are left to a run that writes only when it closes -/
def Appender.left (a : Appender) : ℕ := a.todo.length + if a.closed then 0 else 1

theorem start_left (r : InMemory) : (Appender.start r).left = r.args.length + 3 := by
  simp [Appender.start, Appender.left, pieces]

/-- when the record fits the buffer, nothing is written before `fclose`, and the whole record then -/
theorem appendStep_fits (hst : appendStep bufsiz file a c = some (file', b)) (ha : a.Inv)
    (hfits : a.run.record.length ≤ bufsiz) (hsent : a.closed = false → a.sent = []) :
    b.left + 1 = a.left ∧ (b.closed = false → b.sent = []) ∧
      (c ≠ .fclose ∧ b.closed = a.closed ∧ file' = file ∨
        c = .fclose ∧ a.closed = false ∧ b.closed = true ∧ file' = appendMain file a.run.args) := by
  have hbytes := ha.bytes
  cases c with
  | fprintf =>
    simp only [appendStep] at hst
    split_ifs at hst with htodo
    obtain ⟨rfl, rfl⟩ := Prod.mk.inj (Option.some.inj hst)
    have hpos := List.length_pos_iff.2 htodo
    refine ⟨?_, hsent, Or.inl ⟨by simp, rfl, rfl⟩⟩
    simp only [Appender.left, List.length_tail]
    omega
  | write k =>
    simp only [appendStep] at hst
    split_ifs at hst with hfull
    -- what has been kept back and the next piece are bytes of the record
    have hlen := congrArg List.length hbytes
    have hhead : (a.todo.headD []).length ≤ a.todo.flatten.length := by
      cases a.todo with
      | nil => exact Nat.zero_le _
      | cons piece rest => simp
    simp only [List.length_append] at hlen
    omega
  | fclose =>
    simp only [appendStep] at hst
    split_ifs at hst with hclose
    obtain ⟨rfl, rfl⟩ := Prod.mk.inj (Option.some.inj hst)
    obtain ⟨htodo, hopen⟩ := hclose
    have hbuffer : a.buffer = a.run.record := by simpa [hsent hopen, htodo] using hbytes
    refine ⟨by simp [Appender.left, hopen], by simp, Or.inr ⟨rfl, hopen, rfl, ?_⟩⟩
    rw [appendMain, if_neg a.run.nonempty, hbuffer]
    rfl

/-- a run that has not closed its stream can go on -/
theorem exists_appendStep (hopen : a.closed = false) (bufsiz : ℕ) (file : List Byte) :
    ∃ c r, appendStep bufsiz file a c = some r := by
  by_cases htodo : a.todo = []
  · exact ⟨.fclose, _, if_pos ⟨htodo, hopen⟩⟩
  · exact ⟨.fprintf, _, if_neg htodo⟩

/-! ## All runs -/

section Runs

variable {old : List Byte} {runs : List InMemory} {p q : Pool (List Byte) Appender} {i : ℕ × StdioCall}
  {l : List (ℕ × StdioCall)}

/-- what holds whatever is written when -/
structure Appending (old : List Byte) (runs : List InMemory) (p : Pool (List Byte) Appender) : Prop where
  each : ∀ a ∈ p.locals, a.Inv
  runs : p.locals.map (·.run) = runs
  bytes : ∃ w, p.shared = old ++ w ∧ (w : Multiset Byte) = (p.locals.map fun a => (a.sent : Multiset Byte)).sum ∧
    ∀ a ∈ p.locals, a.sent.Sublist w

/-- the run of a closed stream, to be counted -/
def Appender.done (a : Appender) : Multiset InMemory := if a.closed then {a.run} else 0

/-- what holds after `l` when the records fit the buffers -/
structure Whole (old : List Byte) (runs : List InMemory) (l : List (ℕ × StdioCall)) (p : Pool (List Byte) Appender) :
    Prop where
  unsent : ∀ a ∈ p.locals, a.closed = false → a.sent = []
  closed : (closings runs l : Multiset InMemory) = (p.locals.map Appender.done).sum
  order : p.shared = (closings runs l).foldl (fun file r => appendMain file r.args) old

theorem opened_appending (old : List Byte) (runs : List InMemory) : Appending old runs (opened old runs) where
  each a ha := by
    obtain ⟨r, -, rfl⟩ := List.mem_map.1 ha
    exact start_inv r
  runs := by
    rw [opened, List.map_map]
    exact List.map_id runs
  bytes := by
    refine ⟨[], (List.append_nil old).symm, ?_, fun a ha => ?_⟩
    · rw [opened, List.map_map, List.sum_eq_zero]
      · rfl
      · intro x hx
        obtain ⟨r, -, rfl⟩ := List.mem_map.1 hx
        rfl
    · obtain ⟨r, -, rfl⟩ := List.mem_map.1 ha
      exact List.Sublist.refl []

theorem steps_appending (h : Appending old runs p) (hst : Steps (appendStep bufsiz) p i q) : Appending old runs q := by
  obtain ⟨a, file', b, ha, hact, rfl⟩ := steps_iff.1 hst
  obtain ⟨w, hw, hwsum, hsub⟩ := h.bytes
  have hmem := List.mem_of_getElem? ha
  obtain ⟨x, rfl, hsent, hrun, hb⟩ := appendStep_some hact (h.each a hmem)
  refine ⟨forall_mem_set h.each hb, ?_, w ++ x, by rw [hw, List.append_assoc], ?_, ?_⟩
  · obtain ⟨hi, rfl⟩ := List.getElem?_eq_some_iff.1 ha
    have hlt : i.1 < (p.locals.map (·.run)).length := by simpa using hi
    have hself := List.set_getElem_self hlt
    rw [List.getElem_map] at hself
    rw [List.map_set, hrun, ← h.runs, hself]
  · have hsum := sum_map_set (b := b) (fun a : Appender => (a.sent : Multiset Byte)) ha
    rw [hsent, ← Multiset.coe_add, ← hwsum] at hsum
    rw [← Multiset.coe_add]
    refine (add_right_cancel (b := (a.sent : Multiset Byte)) (hsum.trans ?_)).symm
    abel
  · refine forall_mem_set (fun c hc => (hsub c hc).trans (List.sublist_append_left w x)) ?_
    rw [hsent]
    exact (hsub a hmem).append (List.Sublist.refl x)

theorem opened_whole (old : List Byte) (runs : List InMemory) : Whole old runs [] (opened old runs) where
  unsent a ha _ := by
    obtain ⟨r, -, rfl⟩ := List.mem_map.1 ha
    rfl
  closed := by
    rw [opened, List.map_map, List.sum_eq_zero]
    · rfl
    · intro x hx
      obtain ⟨r, -, rfl⟩ := List.mem_map.1 hx
      rfl
  order := rfl

theorem closings_other {i : ℕ × StdioCall} (h : i.2 ≠ .fclose) (l : List (ℕ × StdioCall)) :
    closings runs (l ++ [i]) = closings runs l := by simp [closings, h]

theorem closings_fclose {i : ℕ × StdioCall} (h : i.2 = .fclose) {r : InMemory} (hr : runs[i.1]? = some r)
    (l : List (ℕ × StdioCall)) : closings runs (l ++ [i]) = closings runs l ++ [r] := by simp [closings, h, hr]

/-- the runs are where they were started -/
theorem Appending.run_getElem? (h : Appending old runs p) {k : ℕ} {a : Appender} (ha : p.locals[k]? = some a) :
    runs[k]? = some a.run := by rw [← h.runs, List.getElem?_map, ha, Option.map_some]

theorem steps_whole (hap : Appending old runs p) (h : Whole old runs l p)
    (hfits : ∀ r ∈ runs, r.record.length ≤ bufsiz) (hst : Steps (appendStep bufsiz) p i q) :
    Whole old runs (l ++ [i]) q ∧ (q.locals.map Appender.left).sum + 1 = (p.locals.map Appender.left).sum := by
  obtain ⟨a, file', b, ha, hact, rfl⟩ := steps_iff.1 hst
  have hmem := List.mem_of_getElem? ha
  have hrun := hap.run_getElem? ha
  obtain ⟨-, -, -, hbrun, -⟩ := appendStep_some hact (hap.each a hmem)
  obtain ⟨hleft, hunsent, hclosed⟩ :=
    appendStep_fits hact (hap.each a hmem) (hfits _ (List.mem_of_getElem? hrun)) (h.unsent a hmem)
  have hsum := sum_map_set (b := b) Appender.done ha
  rw [← h.closed] at hsum
  refine ⟨⟨forall_mem_set h.unsent hunsent, ?_, ?_⟩, ?_⟩
  · obtain ⟨hcall, hsame, -⟩ | ⟨hcall, hopen, hdone, -⟩ := hclosed
    · -- no stream is closed
      have hab : b.done = a.done := by rw [Appender.done, Appender.done, hsame, hbrun]
      rw [hab] at hsum
      rw [closings_other hcall]
      exact (add_right_cancel hsum).symm
    · have ha0 : a.done = 0 := by simp [Appender.done, hopen]
      have hb1 : b.done = {a.run} := by simp [Appender.done, hdone, hbrun]
      rw [ha0, hb1, add_zero] at hsum
      rw [closings_fclose hcall hrun, hsum, ← Multiset.coe_add]
      rfl
  · obtain ⟨hcall, -, rfl⟩ | ⟨hcall, -, -, rfl⟩ := hclosed
    · rw [closings_other hcall]
      exact h.order
    · rw [closings_fclose hcall hrun, List.foldl_append, ← h.order]
      rfl
  · have hsum := sum_map_set (b := b) Appender.left ha
    dsimp only
    omega

theorem reaches_appending (h : Run (Steps (appendStep bufsiz)) (opened old runs) l p) : Appending old runs p :=
  Run.inv (I := Appending old runs) (fun _ _ _ hp hst => steps_appending hp hst) h (opened_appending old runs)

theorem reaches_whole (hfits : ∀ r ∈ runs, r.record.length ≤ bufsiz)
    (h : Run (Steps (appendStep bufsiz)) (opened old runs) l p) :
    Whole old runs l p ∧ l.length + (p.locals.map Appender.left).sum = (runs.map fun r => r.args.length + 3).sum := by
  refine Run.inv_history (I := fun l p => Whole old runs l p ∧
    l.length + (p.locals.map Appender.left).sum = (runs.map fun r => r.args.length + 3).sum) ?_ h
    ⟨opened_whole old runs, ?_⟩
  · intro l p i q hr hp hst
    obtain ⟨hwhole, hlen⟩ := hp
    obtain ⟨hq, hleft⟩ := steps_whole (reaches_appending hr) hwhole hfits hst
    refine ⟨hq, ?_⟩
    rw [List.length_append, List.length_singleton]
    omega
  · rw [opened, List.map_map, List.length_nil, Nat.zero_add]
    exact congrArg List.sum (List.map_congr_left fun r _ => start_left r)

theorem sum_done (ls : List Appender) : (ls.map Appender.done).sum = (closedRuns ls : Multiset InMemory) := by
  induction ls with
  | nil => rfl
  | cons a ls ih =>
    rw [List.map_cons, List.sum_cons, ih]
    cases h : a.closed with
    | true => simp [Appender.done, closedRuns, h]
    | false => simp [Appender.done, closedRuns, h]

theorem sum_sent {ls : List Appender} (h : ∀ a ∈ ls, a.sent = a.run.record) :
    (ls.map fun a => (a.sent : Multiset Byte)).sum = ((ls.map (·.run)).map InMemory.record).flatten := by
  induction ls with
  | nil => rfl
  | cons a ls ih =>
    obtain ⟨ha, hls⟩ := List.forall_mem_cons.1 h
    rw [List.map_cons, List.sum_cons, ih hls, ha, Multiset.coe_add]
    rfl

/-- a file of records, and then the records of runs one after the other -/
theorem foldl_appendMain (old : List Byte) (order : List InMemory) :
    order.foldl (fun file r => appendMain file r.args) old = old ++ (order.map InMemory.record).flatten := by
  induction order generalizing old with
  | nil => simp
  | cons r order ih =>
    rw [List.foldl_cons, ih, appendMain, if_neg r.nonempty]
    simp [InMemory.record]

theorem decode_foldl {bs : List (List Byte)} (hold : decoder.all old = some bs) (order : List InMemory) :
    decoder.all (order.foldl (fun file r => appendMain file r.args) old) = some (bs ++ order.map InMemory.body) := by
  have horder : decoder.all (order.map InMemory.record).flatten = some (order.map InMemory.body) :=
    all_flatten nextRecord_record order
  rw [foldl_appendMain, all_append decoder_local hold, horder]
  rfl

/-! ## Every order of the calls and writes -/

/-- what the file comes to -/
structure Linearized (bufsiz : ℕ) (old : List Byte) (runs : List InMemory) (l : List (ℕ × StdioCall))
    (p : Pool (List Byte) Appender) : Prop where
  /-- in the end every byte of every record has been written once, and after those before it in the record -/
  bytes : (∀ a ∈ p.locals, a.closed = true) →
    ∃ w, p.shared = old ++ w ∧ w.Perm (runs.map InMemory.record).flatten ∧ ∀ r ∈ runs, r.record.Sublist w
  /-- the runs that have closed their streams come one after the other, in the order of `fclose`, and no part of
  another -/
  order : (∀ r ∈ runs, r.record.length ≤ bufsiz) → (closings runs l).Perm (closedRuns p.locals) ∧
    p.shared = (closings runs l).foldl (fun file r => appendMain file r.args) old ∧
    ∀ bs, decoder.all old = some bs → decoder.all p.shared = some (bs ++ (closings runs l).map InMemory.body)
  ends : (∀ r ∈ runs, r.record.length ≤ bufsiz) → l.length ≤ (runs.map fun r => r.args.length + 3).sum
  goesOn : (∀ a ∈ p.locals, a.closed = true) ∧ closedRuns p.locals = runs ∨ ∃ i q, Steps (appendStep bufsiz) p i q

end Runs

/-- the words `ab` and `cd` -/
def appendAbCd : InMemory := ⟨⟨[[97, 98], [99, 100]], by decide, by decide⟩, by decide⟩

/-- the calls of one run, in order -/
def calls (i : ℕ) (r : InMemory) : List (ℕ × StdioCall) :=
  List.replicate (pieces r.args).length (i, .fprintf) ++ [(i, .fclose)]

/-- the word `ef` -/
def appendEf : InMemory := ⟨⟨[[101, 102]], by decide, by decide⟩, by decide⟩

/-- the second run begins later and closes its stream first -/
def overtaking : List (ℕ × StdioCall) :=
  List.replicate 3 (0, .fprintf) ++ List.replicate 3 (1, .fprintf) ++ [(0, .fprintf), (1, .fclose), (0, .fclose)]

/-- buffers of four bytes: a record stands in the middle of another, and the file does not decode -/
theorem records_torn : ∃ l p, Run (Steps (appendStep 4)) (opened [] [appendAbCd, appendAbCd]) l p ∧
    (∀ a ∈ p.locals, a.closed = true) ∧ decoder.all p.shared = none := by
  let l : List (ℕ × StdioCall) := [(0, .fprintf), (0, .fprintf), (0, .write 4)] ++ calls 1 appendAbCd ++
    [(0, .fprintf), (0, .fprintf), (0, .fclose)]
  have h : ((l.foldlM (poolStep (appendStep 4)) (opened [] [appendAbCd, appendAbCd])).map fun p =>
      (p.locals.map (·.closed), decoder.all p.shared)) = some ([true, true], none) := by decide
  obtain ⟨p, hp, hobs⟩ := Option.map_eq_some_iff.1 h
  obtain ⟨hclosed, hdecode⟩ := Prod.mk.inj hobs
  refine ⟨l, p, run_pool_iff.2 hp, fun a ha => ?_, hdecode⟩
  have hmem : a.closed ∈ p.locals.map (·.closed) := List.mem_map_of_mem ha
  rw [hclosed] at hmem
  simpa using hmem

end Cse422.Records
