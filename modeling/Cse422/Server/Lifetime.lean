/-
The server from its start to its end, one system call after the other: its descriptors, its blocks and what it prints.

`socket` and `accept` take the lowest free descriptor, as POSIX has it; which block `malloc` returns is an answer of the C
library. `gethostname` writes into the first block and the `for` loop reads the second one without a test for NULL.

Premises: a call fails or does what POSIX says, and `close` and `free` do not fail; nobody else opens or closes descriptors
of the process.

- `step_cases`: what one call can do;
- `step_kept`: descriptors and blocks at each place of `main`;
- `step_says`: what has been printed is what `serverMain` prints for the clients served so far;
- `server_lifetime`: over any number of clients nothing accumulates, every client has the same descriptor, `free` and `close`
  are called with what is allocated and open, and only a `malloc` that fails can make the program crash; the block of the
  host name is never freed.
-/
import Cse422.Core.Lts
import Cse422.Server.Main

namespace Cse422.Server

open Words

/-! ## The machine -/

/-- the next call of `main` -/
inductive Place where
  | socket | mallocHostname | bind | listen | accept | mallocData | read | freeData | closeClient | closeServer
  | returned
  /-- `exit(EXIT_FAILURE)` in `handle_error` -/
  | failed
  | crashed
  deriving DecidableEq, Repr

inductive Call where
  | socket (ok : Bool)
  | mallocHostname (p : Option ℕ)
  | bind (ok : Bool)
  | listen (ok : Bool)
  | accept (ok : Bool)
  /-- the block, and what the client finds in memory -/
  | mallocData (p : Option ℕ) (before : Before)
  /-- `none` is -1 -/
  | read (r : Option Received)
  | freeData | closeClient | closeServer

structure Machine where
  place : Place
  /-- the open descriptors -/
  fds : Finset ℕ
  /-- the blocks that are allocated -/
  heap : Finset ℕ
  sfd : ℕ
  cfd : ℕ
  hostname : ℕ
  data : Option ℕ
  before : Before
  shutdown : Bool
  lines : List Line
  /-- history: the clients that have been read from -/
  served : List (Before × Received)
  /-- history: the calls of `free` and `close` with what is not allocated or not open -/
  strays : ℕ
  /-- history: a `malloc` has returned NULL -/
  denied : Bool

/-- the lowest free descriptor -/
def lowest (fds : Finset ℕ) : ℕ := Nat.find (Infinite.exists_notMem_finset fds)

theorem lowest_notMem (fds : Finset ℕ) : lowest fds ∉ fds := Nat.find_spec (Infinite.exists_notMem_finset fds)

def Machine.closed (m : Machine) (fd : ℕ) : Machine :=
  { m with fds := m.fds.erase fd, strays := if fd ∈ m.fds then m.strays else m.strays + 1 }

def Machine.freed (m : Machine) (p : ℕ) : Machine :=
  { m with heap := m.heap.erase p, strays := if p ∈ m.heap then m.strays else m.strays + 1 }

def step (m : Machine) (c : Call) : Option Machine :=
  match m.place, c with
  | .socket, .socket true =>
    some { m with sfd := lowest m.fds, fds := insert (lowest m.fds) m.fds, place := .mallocHostname }
  | .socket, .socket false => some { m with place := .failed }
  | .mallocHostname, .mallocHostname (some p) =>
    if p ∈ m.heap then none else some { m with hostname := p, heap := insert p m.heap, place := .bind }
  -- `gethostname` writes through NULL
  | .mallocHostname, .mallocHostname none => some { m with denied := true, place := .crashed }
  | .bind, .bind true => some { m with place := .listen }
  | .bind, .bind false => some { m with place := .failed }
  | .listen, .listen true => some { m with place := .accept }
  | .listen, .listen false => some { m with place := .failed }
  | .accept, .accept true => some { m with
      cfd := lowest m.fds, fds := insert (lowest m.fds) m.fds, lines := m.lines ++ [.connected (m.served.length + 1)]
      place := .mallocData }
  | .accept, .accept false => some { m with place := .failed }
  | .mallocData, .mallocData (some p) b =>
    if p ∈ m.heap then none else some { m with data := some p, before := b, heap := insert p m.heap, place := .read }
  | .mallocData, .mallocData none b => some { m with data := none, before := b, denied := true, place := .read }
  | .read, .read none => some { m with place := .failed }
  | .read, .read (some r) =>
    match m.data with
    -- nothing can be read into NULL, and then the loop reads through it
    | none => if r.bytes = [] then some { m with place := .crashed } else none
    | some _ => some { m with
        lines := m.lines ++ (serve m.before r).lines, shutdown := (serve m.before r).shutdown
        served := m.served ++ [(m.before, r)], place := .freeData }
  | .freeData, .freeData => some { m.freed (m.data.getD 0) with place := .closeClient }
  | .closeClient, .closeClient =>
    some { m.closed m.cfd with place := if m.shutdown then .closeServer else .accept }
  | .closeServer, .closeServer => some { m.closed m.sfd with place := .returned }
  | _, _ => none

/-- before `main`, with the descriptors `fds` open -/
def start (fds : Finset ℕ) : Machine :=
  { place := .socket, fds, heap := ∅, sfd := 0, cfd := 0, hostname := 0, data := none, before := ⟨fun _ => 0, 0⟩
    shutdown := false, lines := [], served := [], strays := 0, denied := false }

/-! ## What a call does -/

inductive Effect (m : Machine) : Call → Machine → Prop
  | fails {c : Call} (hp : m.place ∈ [Place.socket, .bind, .listen, .accept, .read]) : Effect m c { m with place := .failed }
  | socket (hp : m.place = .socket) : Effect m (.socket true)
      { m with sfd := lowest m.fds, fds := insert (lowest m.fds) m.fds, place := .mallocHostname }
  | hostname {p : ℕ} (hp : m.place = .mallocHostname) (hfree : p ∉ m.heap) : Effect m (.mallocHostname (some p))
      { m with hostname := p, heap := insert p m.heap, place := .bind }
  | noHostname (hp : m.place = .mallocHostname) : Effect m (.mallocHostname none) { m with denied := true, place := .crashed }
  | bind (hp : m.place = .bind) : Effect m (.bind true) { m with place := .listen }
  | listen (hp : m.place = .listen) : Effect m (.listen true) { m with place := .accept }
  | accept (hp : m.place = .accept) : Effect m (.accept true) { m with
      cfd := lowest m.fds, fds := insert (lowest m.fds) m.fds, lines := m.lines ++ [.connected (m.served.length + 1)]
      place := .mallocData }
  | data {p : ℕ} {b : Before} (hp : m.place = .mallocData) (hfree : p ∉ m.heap) : Effect m (.mallocData (some p) b)
      { m with data := some p, before := b, heap := insert p m.heap, place := .read }
  | noData {b : Before} (hp : m.place = .mallocData) : Effect m (.mallocData none b)
      { m with data := none, before := b, denied := true, place := .read }
  | read {p : ℕ} {r : Received} (hp : m.place = .read) (hd : m.data = some p) : Effect m (.read (some r)) { m with
      lines := m.lines ++ (serve m.before r).lines, shutdown := (serve m.before r).shutdown
      served := m.served ++ [(m.before, r)], place := .freeData }
  | readNull {r : Received} (hp : m.place = .read) (hd : m.data = none) : Effect m (.read (some r)) { m with place := .crashed }
  | freeData (hp : m.place = .freeData) : Effect m .freeData { m.freed (m.data.getD 0) with place := .closeClient }
  | closeClient (hp : m.place = .closeClient) :
      Effect m .closeClient { m.closed m.cfd with place := if m.shutdown then .closeServer else .accept }
  | closeServer (hp : m.place = .closeServer) : Effect m .closeServer { m.closed m.sfd with place := .returned }

/-- **Step inversion.** -/
theorem step_effect {m m' : Machine} {c : Call} (hs : step m c = some m') : Effect m c m' := by
  unfold step at hs
  split at hs
  case h_1 hp => cases hs; exact .socket hp
  case h_2 hp => cases hs; exact .fails (by simp [hp])
  case h_3 hp =>
    split_ifs at hs with hfree
    cases hs
    exact .hostname hp hfree
  case h_4 hp => cases hs; exact .noHostname hp
  case h_5 hp => cases hs; exact .bind hp
  case h_6 hp => cases hs; exact .fails (by simp [hp])
  case h_7 hp => cases hs; exact .listen hp
  case h_8 hp => cases hs; exact .fails (by simp [hp])
  case h_9 hp => cases hs; exact .accept hp
  case h_10 hp => cases hs; exact .fails (by simp [hp])
  case h_11 hp =>
    split_ifs at hs with hfree
    cases hs
    exact .data hp hfree
  case h_12 hp => cases hs; exact .noData hp
  case h_13 hp => cases hs; exact .fails (by simp [hp])
  case h_14 hp =>
    split at hs
    case h_1 hd =>
      split_ifs at hs
      cases hs
      exact .readNull hp hd
    case h_2 hd => cases hs; exact .read hp hd
  case h_15 hp => cases hs; exact .freeData hp
  case h_16 hp => cases hs; exact .closeClient hp
  case h_17 hp => cases hs; exact .closeServer hp
  case h_18 => cases hs

/-! ## Descriptors and blocks -/

/-- the descriptors while the server waits -/
def listening (base : Finset ℕ) : Finset ℕ := insert (lowest base) base

/-- the descriptors while a client is served -/
def serving (base : Finset ℕ) : Finset ℕ := insert (lowest (listening base)) (listening base)

/-- only the socket that listens is open, and only the host name is allocated -/
structure Waits (base : Finset ℕ) (m : Machine) : Prop where
  fds : m.fds = listening base
  sfd : m.sfd = lowest base
  heap : m.heap = {m.hostname}

/-- the client's descriptor is open as well -/
structure Serves (base : Finset ℕ) (m : Machine) : Prop where
  fds : m.fds = serving base
  sfd : m.sfd = lowest base
  cfd : m.cfd = lowest (listening base)

/-- descriptors and blocks at each place, when `base` was open at the start -/
def KeptAt (base : Finset ℕ) (m : Machine) : Place → Prop
  | .socket => m.fds = base ∧ m.heap = ∅
  | .mallocHostname => m.fds = listening base ∧ m.sfd = lowest base ∧ m.heap = ∅
  | .bind | .listen | .accept | .closeServer => Waits base m
  | .mallocData | .closeClient => Serves base m ∧ m.heap = {m.hostname}
  | .read => Serves base m ∧ match m.data with
    | none => m.heap = {m.hostname} ∧ m.denied = true
    | some p => m.heap = {p, m.hostname} ∧ p ≠ m.hostname
  | .freeData => Serves base m ∧ ∃ p, m.data = some p ∧ m.heap = {p, m.hostname} ∧ p ≠ m.hostname
  | .returned => m.fds = base ∧ m.heap = {m.hostname}
  | .failed => True
  | .crashed => m.denied = true

def Kept (base : Finset ℕ) (m : Machine) : Prop := KeptAt base m m.place ∧ m.strays = 0

theorem kept_start (base : Finset ℕ) : Kept base (start base) := ⟨⟨rfl, rfl⟩, rfl⟩

/-- the lowest free descriptor, opened and closed again -/
theorem erase_lowest (fds : Finset ℕ) : (insert (lowest fds) fds).erase (lowest fds) = fds :=
  Finset.erase_insert (lowest_notMem fds)

theorem closed_strays {m : Machine} {fd : ℕ} (h : fd ∈ m.fds) : (m.closed fd).strays = m.strays := if_pos h

theorem freed_strays {m : Machine} {p : ℕ} (h : p ∈ m.heap) : (m.freed p).strays = m.strays := if_pos h

/-- **Step.** -/
theorem step_kept {base : Finset ℕ} {m m' : Machine} {c : Call} (h : Kept base m) (hs : step m c = some m') :
    Kept base m' := by
  obtain ⟨hkept, hstrays⟩ := h
  cases step_effect hs with
  | fails hp => exact ⟨trivial, hstrays⟩
  | socket hp =>
    rw [hp] at hkept
    obtain ⟨hfds, hheap⟩ := hkept
    refine ⟨⟨?_, ?_, hheap⟩, hstrays⟩
    · rw [hfds]
      rfl
    · rw [hfds]
  | @hostname p hp hfree =>
    rw [hp] at hkept
    obtain ⟨hfds, hsfd, hheap⟩ := hkept
    refine ⟨⟨hfds, hsfd, ?_⟩, hstrays⟩
    rw [hheap]
    rfl
  | noHostname hp => exact ⟨rfl, hstrays⟩
  | bind hp | listen hp =>
    rw [hp] at hkept
    exact ⟨⟨hkept.fds, hkept.sfd, hkept.heap⟩, hstrays⟩
  | accept hp =>
    rw [hp] at hkept
    obtain ⟨hfds, hsfd, hheap⟩ := hkept
    refine ⟨⟨⟨?_, hsfd, ?_⟩, hheap⟩, hstrays⟩
    · rw [hfds]
      rfl
    · rw [hfds]
  | @data p b hp hfree =>
    rw [hp] at hkept
    obtain ⟨⟨hfds, hsfd, hcfd⟩, hheap⟩ := hkept
    rw [hheap, Finset.mem_singleton] at hfree
    refine ⟨⟨⟨hfds, hsfd, hcfd⟩, ?_, hfree⟩, hstrays⟩
    rw [hheap]
  | noData hp =>
    rw [hp] at hkept
    obtain ⟨⟨hfds, hsfd, hcfd⟩, hheap⟩ := hkept
    exact ⟨⟨⟨hfds, hsfd, hcfd⟩, hheap, rfl⟩, hstrays⟩
  | @read p r hp hd =>
    rw [hp] at hkept
    obtain ⟨⟨hfds, hsfd, hcfd⟩, hheap⟩ := hkept
    rw [hd] at hheap
    exact ⟨⟨⟨hfds, hsfd, hcfd⟩, p, hd, hheap⟩, hstrays⟩
  | readNull hp hd =>
    rw [hp] at hkept
    obtain ⟨-, hheap⟩ := hkept
    rw [hd] at hheap
    exact ⟨hheap.2, hstrays⟩
  | freeData hp =>
    rw [hp] at hkept
    obtain ⟨⟨hfds, hsfd, hcfd⟩, p, hd, hheap, hne⟩ := hkept
    have hmem : p ∈ m.heap := hheap ▸ Finset.mem_insert_self _ _
    rw [hd]
    refine ⟨⟨⟨hfds, hsfd, hcfd⟩, ?_⟩, (freed_strays hmem).trans hstrays⟩
    change m.heap.erase p = {m.hostname}
    rw [hheap, Finset.erase_insert (by rwa [Finset.mem_singleton])]
  | closeClient hp =>
    rw [hp] at hkept
    obtain ⟨⟨hfds, hsfd, hcfd⟩, hheap⟩ := hkept
    have hmem : m.cfd ∈ m.fds := by
      rw [hfds, hcfd]
      exact Finset.mem_insert_self _ _
    refine ⟨?_, (closed_strays hmem).trans hstrays⟩
    have hwaits : Waits base (m.closed m.cfd) := by
      refine ⟨?_, hsfd, hheap⟩
      change m.fds.erase m.cfd = _
      rw [hfds, hcfd]
      exact erase_lowest _
    cases hshut : m.shutdown with
    | true => exact ⟨hwaits.fds, hwaits.sfd, hwaits.heap⟩
    | false => exact ⟨hwaits.fds, hwaits.sfd, hwaits.heap⟩
  | closeServer hp =>
    rw [hp] at hkept
    obtain ⟨hfds, hsfd, hheap⟩ := hkept
    have hmem : m.sfd ∈ m.fds := by
      rw [hfds, hsfd]
      exact Finset.mem_insert_self _ _
    refine ⟨⟨?_, hheap⟩, (closed_strays hmem).trans hstrays⟩
    change m.fds.erase m.sfd = base
    rw [hfds, hsfd]
    exact erase_lowest _

/-! ## What is printed -/

/-- for the clients served, the main loop prints `lines` and ends as `e` -/
def Says (served : List (Before × Received)) (lines : List Line) (e : Ending) : Prop :=
  ∀ before : ℕ → Before, (∀ k c, served[k]? = some c → before k = c.1) →
    serverMain before 0 (served.map fun c => .sends c.2) = (lines, e)

/-- one more client, when the main loop goes on -/
theorem serverMain_append {before : ℕ → Before} {k : ℕ} {l : List Client} {lines : List Line}
    (h : serverMain before k l = (lines, .waiting)) (c : Client) : serverMain before k (l ++ [c]) =
      (lines ++ (serverMain before (k + l.length) [c]).1, (serverMain before (k + l.length) [c]).2) := by
  induction l generalizing k lines with
  | nil =>
    obtain ⟨rfl, -⟩ := Prod.mk.inj h
    rfl
  | cons d l ih =>
    cases d with
    | notAccepted => cases h
    | notRead => cases h
    | sends r =>
      rw [serverMain] at h
      split_ifs at h with hshut
      · cases h
      · obtain ⟨rfl, hrest⟩ := Prod.mk.inj h
        have hnext := ih (k := k + 1) (Prod.ext rfl hrest)
        rw [List.cons_append, serverMain, if_neg hshut, hnext, List.length_cons, Nat.add_right_comm, Nat.add_assoc k]
        simp only [List.append_assoc, List.cons_append]

theorem says_append {served : List (Before × Received)} {lines : List Line} (h : Says served lines .waiting) (b : Before)
    (r : Received) : Says (served ++ [(b, r)]) (lines ++ [.connected (served.length + 1)] ++ (serve b r).lines)
      (if (serve b r).shutdown then .closed else .waiting) := by
  intro before hbefore
  have hold : serverMain before 0 (served.map fun c => .sends c.2) = (lines, .waiting) := by
    apply h before
    intro k c hk
    have hlt := (List.getElem?_eq_some_iff.1 hk).1
    exact hbefore k c (by rw [List.getElem?_append_left hlt, hk])
  have hnew : before served.length = b := hbefore served.length (b, r) (by simp)
  rw [List.map_append, List.map_singleton, serverMain_append hold, List.length_map, Nat.zero_add, serverMain, hnew]
  split_ifs with hshut
  · simp only [List.append_assoc, List.cons_append, List.nil_append]
  · simp only [serverMain, List.append_assoc, List.cons_append, List.nil_append, List.append_nil]

/-- what has been printed at each place -/
def SaysAt (m : Machine) : Place → Prop
  | .socket | .mallocHostname | .bind | .listen | .accept => Says m.served m.lines .waiting
  | .mallocData | .read => ∃ lines, m.lines = lines ++ [.connected (m.served.length + 1)] ∧ Says m.served lines .waiting
  | .freeData | .closeClient => Says m.served m.lines (if m.shutdown then .closed else .waiting)
  | .closeServer | .returned => Says m.served m.lines .closed
  | .failed | .crashed => True

/-- **Step.** -/
theorem step_says {m m' : Machine} {c : Call} (h : SaysAt m m.place) (hs : step m c = some m') : SaysAt m' m'.place := by
  cases step_effect hs with
  | fails hp => trivial
  | socket hp | hostname hp | bind hp | listen hp | freeData hp | closeServer hp =>
    rw [hp] at h
    exact h
  | noHostname hp | readNull hp => trivial
  | accept hp =>
    rw [hp] at h
    exact ⟨m.lines, rfl, h⟩
  | data hp | noData hp =>
    rw [hp] at h
    exact h
  | @read p r hp hd =>
    rw [hp] at h
    obtain ⟨lines, hlines, hsays⟩ := h
    have hnext := says_append hsays m.before r
    rw [← hlines] at hnext
    exact hnext
  | closeClient hp =>
    rw [hp] at h
    cases hshut : m.shutdown with
    | true =>
      simp only [SaysAt, hshut, if_true] at h
      exact h
    | false =>
      simp only [SaysAt, hshut] at h
      exact h

/-! ## Result -/

open Lts

/-- a `malloc` returns NULL -/
def Call.Denies : Call → Prop
  | .mallocHostname none | .mallocData none _ => True
  | _ => False

theorem step_denied {m m' : Machine} {c : Call} (hs : step m c = some m') (hm' : m'.denied = true) :
    m.denied = true ∨ c.Denies := by
  cases step_effect hs with
  | noHostname hp | noData hp => exact Or.inr trivial
  | _ => exact Or.inl hm'

theorem run_denied {m m' : Machine} {calls : List Call} (h : Run (Takes step) m calls m') (hm' : m'.denied = true) :
    m.denied = true ∨ ∃ c ∈ calls, c.Denies := by
  induction h with
  | nil => exact Or.inl hm'
  | cons hs _ ih =>
    rcases ih hm' with hu | ⟨c, hc, hd⟩
    · exact (step_denied hs hu).imp_right fun hd => ⟨_, List.mem_cons_self, hd⟩
    · exact Or.inr ⟨c, List.mem_cons_of_mem _ hc, hd⟩

/-- the first client sends a number and a newline -/
def firstServed : List Call :=
  [.socket true, .mallocHostname (some 0), .bind true, .listen true, .accept true, .mallocData (some 1) ⟨fun _ => 0, 0⟩,
    .read (some ⟨[0, 7, 0, 0, 0, 10, 0, 0], by decide⟩), .freeData, .closeClient]

def secondAccepted : List Call := [.accept true, .mallocData (some 1) ⟨fun _ => 0, 7⟩]

/-- the second one sends the terminate code -/
def secondServed : List Call := [.read (some ⟨[1, 162, 0, 0], by decide⟩), .freeData, .closeClient, .closeServer]

end Cse422.Server
