/-
Concurrent calls of `paging_vma_close`, one atomic step at a time. The module takes no lock.

Each call is a thread (`Closer`) with its place in the function (`ClosePc`). The steps are those of the C code:
`atomic_dec`, the later `atomic_read`, reading the head of the list, reading the next node, `__free_page`,
`list_del`, `kfree` of the node, `atomic_inc` of the counter, and `kfree` of the `pa_state_struct`. An
`atomic_read` of a freed `pa_state_struct` gives any value: it is the input of the step. A thread that reads a
freed node, or follows the poison that `list_del` leaves in a node, stops (`dead`); reading a freed node is
recorded.

Premises: each step is atomic, and the processors see one order of them; no fault or mmap runs at the same time; the
kernel has unmapped the range of the VMA before it calls `close`.

- `close_alone`: a call that is not interrupted does what `pagingVmaClose` does.
-/
import Cse422.Core.Interleave
import Cse422.Paging.Accounting

namespace Cse422.Paging

open Lts

/-! ## The list while it is taken apart -/

/-- a `list_head` pointer: to the head, to the one in a node, or the poison of `list_del` -/
inductive Link where
  | head
  | node (n : RefPageNode)
  | poison
deriving DecidableEq

/-- the `next` field of the head -/
def firstLink : List RefPageNode → Link
  | [] => .head
  | n :: _ => .node n

/-- the `next` field of a node: its successor if it is on the list, the poison otherwise -/
def nextLink (n : RefPageNode) : List RefPageNode → Link
  | [] => .poison
  | m :: l => if m = n then firstLink l else nextLink n l

@[simp] theorem firstLink_eq_head {l : List RefPageNode} : firstLink l = .head ↔ l = [] := by
  cases l <;> simp [firstLink]

@[simp] theorem firstLink_eq_node {l : List RefPageNode} {n : RefPageNode} :
    firstLink l = .node n ↔ ∃ rest, l = n :: rest := by
  cases l <;> simp [firstLink]

theorem firstLink_ne_poison (l : List RefPageNode) : firstLink l ≠ .poison := by
  cases l <;> simp [firstLink]

@[simp] theorem nextLink_head (n : RefPageNode) (l : List RefPageNode) : nextLink n (n :: l) = firstLink l := by
  simp [nextLink]

/-! ## One step of a close -/

inductive ClosePc where
  | dec
  | read
  /-- about to read `ref_page_list.next` -/
  | first
  /-- `page_node` has been set; about to read its `next` into `temp`, and to test for the end of the list -/
  | advance (pageNode : Link)
  | freePage (pageNode : RefPageNode) (temp : Link)
  | del (pageNode : RefPageNode) (temp : Link)
  | kfreeNode (pageNode : RefPageNode) (temp : Link)
  | incFree (temp : Link)
  | kfreePas
  | done
  | dead
deriving DecidableEq

/-- a call of `paging_vma_close`: its `vm_private_data` and its place in the function -/
structure Closer where
  pas : ℕ
  pc : ClosePc
deriving DecidableEq

/-- what the calls share, and what they have freed so far -/
structure Teardown where
  list : List RefPageNode
  refCount : ℕ → ℕ
  freeCount : ℕ
  freedPages : List ℕ
  freedNodes : List ℕ
  freedPas : List ℕ
  /-- has a freed node been read? -/
  badRead : Bool

/-- `atomic_dec(&pas->ref_count)`; a freed `pa_state_struct` is not the module's memory any more -/
def Teardown.decCount (s : Teardown) (x : ℕ) : Teardown :=
  if x ∈ s.freedPas then s else { s with refCount := Function.update s.refCount x (atomicDec (s.refCount x)) }

/-- an access to a node: `f` if the node is allocated -/
def onNode (s : Teardown) (c : Closer) (n : RefPageNode) (f : Teardown × Closer) : Teardown × Closer :=
  if n.addr ∈ s.freedNodes then ({ s with badRead := true }, { c with pc := .dead }) else f

def closeAct (s : Teardown) (c : Closer) (garbage : ℕ) : Option (Teardown × Closer) :=
  match c.pc with
  | .dec => some (s.decCount c.pas, { c with pc := .read })
  | .read =>
    let count := if c.pas ∈ s.freedPas then garbage else s.refCount c.pas
    some (s, { c with pc := if count = 0 then .first else .done })
  | .first => some (s, { c with pc := .advance (firstLink s.list) })
  | .advance .head => some (s, { c with pc := .kfreePas })
  | .advance (.node n) => some (onNode s c n (s, { c with pc := .freePage n (nextLink n s.list) }))
  | .advance .poison => some (s, { c with pc := .dead })
  | .freePage n temp =>
    some (onNode s c n ({ s with freedPages := n.page :: s.freedPages }, { c with pc := .del n temp }))
  | .del n temp =>
    some (onNode s c n (if n ∈ s.list then ({ s with list := s.list.erase n }, { c with pc := .kfreeNode n temp })
      else (s, { c with pc := .dead })))
  | .kfreeNode n temp => some ({ s with freedNodes := n.addr :: s.freedNodes }, { c with pc := .incFree temp })
  | .incFree temp => some ({ s with freeCount := atomicInc s.freeCount }, { c with pc := .advance temp })
  | .kfreePas => some ({ s with freedPas := c.pas :: s.freedPas }, { c with pc := .done })
  | .done => none
  | .dead => none

/-- a VMA that is about to be closed -/
def closerOf (v : VmArea) : Closer := ⟨v.vmPrivateData.getD 0, .dec⟩

/-- the module when some of its VMAs are about to be closed -/
def startClosers (s : St) (vs : List VmArea) : Pool Teardown Closer :=
  ⟨⟨s.refPageList, s.refCount, s.freeCount, [], [], [], false⟩, vs.map closerOf⟩

/-! ## A close alone -/

/-- the state after one pass of the loop, on the head of the list -/
def Teardown.pass (s : Teardown) (n : RefPageNode) (rest : List RefPageNode) : Teardown :=
  { s with
    list := rest, freedPages := n.page :: s.freedPages, freedNodes := n.addr :: s.freedNodes
    freeCount := atomicInc s.freeCount }

/-- the state after the loop over `l` and the last `kfree` -/
def Teardown.emptied (s : Teardown) (l : List RefPageNode) (x : ℕ) : Teardown :=
  { s with
    list := [], freedPages := (l.map RefPageNode.page).reverse ++ s.freedPages
    freedNodes := (l.map RefPageNode.addr).reverse ++ s.freedNodes
    freeCount := (s.freeCount + l.length) % wordSize
    freedPas := x :: s.freedPas }

theorem closeAct_pass {s : Teardown} {n : RefPageNode} {rest : List RefPageNode} (x : ℕ) (hl : s.list = n :: rest)
    (hn : n.addr ∉ s.freedNodes) :
    Run (Steps closeAct) ⟨s, [⟨x, .advance (.node n)⟩]⟩ (List.replicate 5 (0, 0))
      ⟨s.pass n rest, [⟨x, .advance (firstLink rest)⟩]⟩ := by
  rw [run_pool_iff]
  simp [poolStep, closeAct, onNode, hl, hn, List.replicate, Teardown.pass]

theorem closeAct_loop (l : List RefPageNode) : ∀ (s : Teardown) (x : ℕ), s.list = l → (l.map RefPageNode.addr).Nodup →
    (∀ n ∈ l, n.addr ∉ s.freedNodes) → s.freeCount < wordSize →
    ∃ is, Run (Steps closeAct) ⟨s, [⟨x, .advance (firstLink l)⟩]⟩ is ⟨s.emptied l x, [⟨x, .done⟩]⟩ := by
  induction l with
  | nil =>
    intro s x hl hd hn hf
    refine ⟨[(0, 0), (0, 0)], ?_⟩
    rw [run_pool_iff]
    cases s
    simp_all [poolStep, closeAct, firstLink, Nat.mod_eq_of_lt, Teardown.emptied]
  | cons n l ih =>
    intro s x hl hd hn hf
    rw [List.map_cons, List.nodup_cons] at hd
    have hrest : ∀ m ∈ l, m.addr ∉ (s.pass n l).freedNodes := by
      intro m hm hmem
      rcases List.mem_cons.1 hmem with he | hmem
      · exact hd.1 (he ▸ List.mem_map_of_mem hm)
      · exact hn m (List.mem_cons_of_mem _ hm) hmem
    obtain ⟨is, hrun⟩ := ih (s.pass n l) x rfl hd.2 hrest (Nat.mod_lt _ (by decide))
    have hend : (s.pass n l).emptied l x = s.emptied (n :: l) x := by
      simp [Teardown.pass, Teardown.emptied, atomicInc, Nat.add_right_comm, Nat.add_assoc]
    rw [hend] at hrun
    exact ⟨List.replicate 5 (0, 0) ++ is,
      run_append_iff.2 ⟨_, closeAct_pass x hl (hn n List.mem_cons_self), hrun⟩⟩

/-- **A close alone** is `pagingVmaClose`: it leaves the same list and the same counts, and it frees what is no
longer allocated afterwards. -/
theorem close_alone {s t : St} {v : VmArea} (h : Inv s) (hv : v ∈ s.vmas) (hs : pagingVmaClose s v = .ok t) :
    ∃ is u x, Run (Steps closeAct) (startClosers s [v]) is ⟨u, [⟨x, .done⟩]⟩ ∧ v.vmPrivateData = some x ∧
      u.list = t.refPageList ∧ u.refCount = t.refCount ∧ u.freeCount = t.freeCount ∧ u.badRead = false ∧
      (∀ p, p ∈ u.freedPages ↔ p ∈ s.pages ∧ p ∉ t.pages) ∧
      (∀ a, a ∈ u.freedNodes ↔ a ∈ s.nodes ∧ a ∉ t.nodes) ∧
      (∀ y, y ∈ u.freedPas ↔ y ∈ s.pas ∧ y ∉ t.pas) := by
  obtain ⟨x, hx, hvx, -, -, -⟩ := h.refs.of_mem hv
  have hstart : startClosers s [v] = ⟨⟨s.refPageList, s.refCount, s.freeCount, [], [], [], false⟩, [⟨x, .dec⟩]⟩ := by
    simp [startClosers, closerOf, hvx]
  by_cases h0 : atomicDec (s.refCount x) = 0
  · rw [close_last hvx hx h0 h.ledger.pages h.ledger.nodes h.ledger.freeLt] at hs
    cases hs
    have hnodes := h.ledger.nodes ▸ h.ledger.nodesNodup
    let s₁ : Teardown := ⟨s.refPageList, Function.update s.refCount x 0, s.freeCount, [], [], [], false⟩
    obtain ⟨is, hrun⟩ := closeAct_loop s.refPageList s₁ x rfl hnodes (fun n _ => List.not_mem_nil) h.ledger.freeLt
    refine ⟨[(0, 0), (0, 0), (0, 0)] ++ is, s₁.emptied s.refPageList x, x, ?_, hvx, rfl, rfl, rfl, rfl,
      fun p => ?_, fun a => ?_, fun y => ?_⟩
    · refine run_append_iff.2 ⟨_, ?_, hrun⟩
      rw [hstart, run_pool_iff]
      simp [poolStep, closeAct, Teardown.decCount, h0, s₁]
    · simp [s₁, Teardown.emptied, tornDown, h.ledger.pages]
    · simp [s₁, Teardown.emptied, tornDown, h.ledger.nodes]
    · simp only [s₁, Teardown.emptied, tornDown, setCount, h.refs.pasNodup.mem_erase_iff, List.mem_singleton]
      constructor
      · intro hy
        subst hy
        exact ⟨hx, fun hn => hn.1 rfl⟩
      · intro hy
        by_contra hne
        exact hy.2 ⟨hne, hy.1⟩
  · rw [close_shared hvx hx h0] at hs
    cases hs
    let s₁ : Teardown :=
      ⟨s.refPageList, Function.update s.refCount x (atomicDec (s.refCount x)), s.freeCount, [], [], [], false⟩
    refine ⟨[(0, 0), (0, 0)], s₁, x, ?_, hvx, rfl, rfl, rfl, rfl, fun p => ?_, fun a => ?_, fun y => ?_⟩
    · rw [hstart, run_pool_iff]
      simp [poolStep, closeAct, Teardown.decCount, h0, s₁]
    · simp [s₁, setCount]
    · simp [s₁, setCount]
    · simp [s₁, setCount]

end Cse422.Paging
