/-
Concurrent teardown. Any number of `paging_vma_close` calls run at once, for VMAs of one mapping or of several,
from any reachable state of the module.

- `frees_once`: in every run in which
  (1) no `atomic_dec` takes a reference count to zero while another close of the same mapping is between its own
  `atomic_dec` and `atomic_read`, and
  (2) no close starts its walk over a list that is not empty while another close is in its walk,
  every page, node and `pa_state_struct` is freed at most once, and no freed node is read;
- `close_races`: without (2), two processes that close their mappings free a page twice; without (1), two closes of
  one mapping free its `pa_state_struct` twice.

The invariant is a proof outline (`Local`, `Apart`): the thread that holds a node is alone, and knows that the node
is the head of the list; of the closes of a mapping whose count is zero, one is in the function.
-/
import Cse422.Paging.Closers

namespace Cse422.Paging

open Lts

/-! ## Where a close can be -/

/-- in its walk: the head has been read, and the end of the list has not -/
def ClosePc.walking : ClosePc → Bool
  | .advance _ | .freePage _ _ | .del _ _ | .kfreeNode _ _ | .incFree _ => true
  | _ => false

/-- holds a pointer to a node -/
def ClosePc.busy : ClosePc → Bool
  | .advance (.node _) | .freePage _ _ | .del _ _ | .kfreeNode _ _ | .incFree (.node _) => true
  | _ => false

/-- has read the count as zero, and has not freed the `pa_state_struct` -/
def ClosePc.tearing : ClosePc → Bool
  | .first | .kfreePas => true
  | pc => pc.walking

/-- has decremented the count, and has not left the function -/
def ClosePc.active (pc : ClosePc) : Bool := pc = .read || pc.tearing

theorem ClosePc.walking_of_busy {pc : ClosePc} (h : pc.busy) : pc.walking := by
  cases pc <;> simp_all [busy, walking]

theorem ClosePc.active_of_tearing {pc : ClosePc} (h : pc.tearing) : pc.active := by
  simp [active, h]

/-! ## The property and the condition -/

/-- every page, node and `pa_state_struct` has been freed at most once, and no freed node has been read -/
structure Safe (s : Teardown) : Prop where
  pages : s.freedPages.Nodup
  nodes : s.freedNodes.Nodup
  pas : s.freedPas.Nodup
  noBadRead : s.badRead = false

/-- no `atomic_dec` to zero between the `atomic_dec` and the `atomic_read` of another close of the mapping, and no
walk over a list that is not empty starts during another walk -/
def NoOverlap (p : Pool Teardown Closer) (i : ℕ × ℕ) (_ : Pool Teardown Closer) : Prop :=
  ∀ a, p.locals[i.1]? = some a →
    (a.pc = .dec → atomicDec (p.shared.refCount a.pas) = 0 →
      ∀ j c, j ≠ i.1 → p.locals[j]? = some c → c.pas = a.pas → c.pc ≠ .read) ∧
    (a.pc = .first → p.shared.list ≠ [] → ∀ j c, j ≠ i.1 → p.locals[j]? = some c → c.pc.walking = false)

/-! ## The proof outline -/

/-- what a close knows of the list -/
def Holds (s : Teardown) : ClosePc → Prop
  | .advance l => l = firstLink s.list
  | .freePage n l => ∃ rest, s.list = n :: rest ∧ l = firstLink rest ∧ n.page ∉ s.freedPages
  | .del n l => ∃ rest, s.list = n :: rest ∧ l = firstLink rest
  | .kfreeNode n l => l = firstLink s.list ∧ n.addr ∉ s.freedNodes ∧ n.addr ∉ s.list.map RefPageNode.addr
  | .incFree l => l = firstLink s.list
  | .dead => False
  | _ => True

structure Local (s : Teardown) (c : Closer) : Prop where
  alive : c.pc ≠ .done → c.pas ∉ s.freedPas
  zero : c.pc.tearing → s.refCount c.pas = 0
  holds : Holds s c.pc

/-- at most one of two closes holds a node, and at most one of two closes of a mapping with count zero is in the
function -/
structure Apart (s : Teardown) (c d : Closer) : Prop where
  busy : c.pc.busy → d.pc.busy = false
  active : c.pas = d.pas → s.refCount c.pas = 0 → c.pc.active → d.pc.active = false

theorem Apart.symm {s : Teardown} {c d : Closer} (h : Apart s c d) : Apart s d c where
  busy hd := by
    by_contra hc
    have := h.busy (by simpa using hc)
    simp [hd] at this
  active he h0 hd := by
    by_contra hc
    have := h.active he.symm (he ▸ h0) (by simpa using hc)
    simp [hd] at this

/-- a close that goes on with its teardown keeps what it knows of the mapping -/
theorem Local.goto {s t : Teardown} {x : ℕ} {pc pc' : ClosePc} (h : Local s ⟨x, pc⟩) (ht : pc.tearing)
    (hr : t.refCount = s.refCount) (hp : t.freedPas = s.freedPas) (hh : Holds t pc') : Local t ⟨x, pc'⟩ where
  alive _ := by
    rw [hp]
    refine h.alive fun hd => ?_
    rw [show pc = .done from hd] at ht
    cases ht
  zero _ := by
    rw [hr]
    exact h.zero ht
  holds := hh

/-- what a close that holds no node knows of the list: at most that it is empty -/
theorem holds_calm {s t : Teardown} {pc : ClosePc} (h : Holds s pc) (hb : pc.busy = false)
    (hl : s.list = [] → t.list = []) : Holds t pc := by
  have step : ∀ l, l = firstLink s.list → (∀ n, l ≠ .node n) → l = firstLink t.list := by
    intro l h hn
    cases l with
    | head => exact (firstLink_eq_head.2 (hl (firstLink_eq_head.1 h.symm))).symm
    | node n => exact absurd rfl (hn n)
    | poison => exact absurd h.symm (firstLink_ne_poison _)
  cases pc with
  | advance l => exact step l h fun n hn => by simp [hn, ClosePc.busy] at hb
  | incFree l => exact step l h fun n hn => by simp [hn, ClosePc.busy] at hb
  | freePage n l | del n l | kfreeNode n l => simp [ClosePc.busy] at hb
  | dead => exact h
  | dec | read | first | kfreePas | done => trivial

/-- the number of closes of a mapping that have not yet decremented the count -/
def pending (ls : List Closer) (x : ℕ) : ℕ := ls.countP fun c => c.pas = x ∧ c.pc = .dec

/-- `M`: the mappings of the closes. `K`: how many of the VMAs of each stay. -/
structure RaceInv (M : ℕ → Prop) (K : ℕ → ℕ) (p : Pool Teardown Closer) : Prop where
  safe : Safe p.shared
  pages : (p.shared.list.map RefPageNode.page).Nodup
  nodes : (p.shared.list.map RefPageNode.addr).Nodup
  listed : ∀ n ∈ p.shared.list, n.addr ∉ p.shared.freedNodes
  /-- a freed page is still on the list only while its close is about to take it off -/
  freeing : ∀ n ∈ p.shared.list, n.page ∈ p.shared.freedPages → ∃ c ∈ p.locals, ∃ l, c.pc = .del n l
  mappings : ∀ c ∈ p.locals, M c.pas
  counts : ∀ x, M x → p.shared.refCount x = K x + pending p.locals x ∧ p.shared.refCount x < wordSize
  outline : Outline (Local p.shared) (Apart p.shared) p.locals

/-! ## One step -/

section Step

variable {M : ℕ → Prop} {K : ℕ → ℕ} {p : Pool Teardown Closer} {s t : Teardown} {ls : List Closer} {i x : ℕ}
  {pc pc' : ClosePc}

theorem pending_set {a b : Closer} (hi : ls[i]? = some a) (x : ℕ) :
    pending (ls.set i b) x + (if a.pas = x ∧ a.pc = .dec then 1 else 0) =
      pending ls x + (if b.pas = x ∧ b.pc = .dec then 1 else 0) := by
  have h := countP_set (b := b) (fun c : Closer => decide (c.pas = x ∧ c.pc = .dec)) hi
  simpa only [pending, decide_eq_true_eq] using h

/-- a step other than `atomic_dec` does not change who has yet to decrement -/
theorem pending_same (hi : ls[i]? = some ⟨x, pc⟩) (h1 : pc ≠ .dec) (h2 : pc' ≠ .dec) (y : ℕ) :
    pending (ls.set i ⟨x, pc'⟩) y = pending ls y := by
  have h := pending_set (b := ⟨x, pc'⟩) hi y
  simpa [h1, h2] using h

/-- a close that has yet to decrement is counted -/
theorem pending_pos (hc : (⟨x, .dec⟩ : Closer) ∈ ls) : 0 < pending ls x :=
  List.countP_pos_iff.2 ⟨_, hc, by simp⟩

theorem RaceInv.mapping (h : RaceInv M K p) (hi : p.locals[i]? = some ⟨x, pc⟩) : M x :=
  h.mappings _ (List.mem_of_getElem? hi)

theorem RaceInv.counts_set (h : RaceInv M K p) (hi : p.locals[i]? = some ⟨x, pc⟩) (h1 : pc ≠ .dec) (h2 : pc' ≠ .dec) :
    ∀ y, M y → p.shared.refCount y = K y + pending (p.locals.set i ⟨x, pc'⟩) y ∧ p.shared.refCount y < wordSize := by
  intro y hy
  rw [pending_same hi h1 h2]
  exact h.counts y hy

theorem RaceInv.freeing_set (h : RaceInv M K p) (hi : p.locals[i]? = some ⟨x, pc⟩) (h1 : ∀ n l, pc ≠ .del n l)
    (b : Closer) : ∀ n ∈ p.shared.list, n.page ∈ p.shared.freedPages →
      ∃ c ∈ p.locals.set i b, ∃ l, c.pc = .del n l := by
  intro n hn hp
  obtain ⟨c, hc, l, hcl⟩ := h.freeing n hn hp
  refine ⟨c, mem_set_of_ne hi hc ?_, l, hcl⟩
  intro he
  rw [he] at hcl
  exact h1 n l hcl

/-- the outline after a step that changes neither a reference count nor which `pa_state_struct`s are freed -/
theorem outline_step (h : Outline (Local s) (Apart s) ls) (hi : ls[i]? = some ⟨x, pc⟩) (own : Local t ⟨x, pc'⟩)
    (hr : t.refCount = s.refCount) (hp : t.freedPas = s.freedPas)
    (hbusy : pc'.busy → pc.busy ∨ ∀ j c, j ≠ i → ls[j]? = some c → c.pc.busy = false)
    (hact : pc'.active → pc.active)
    (hholds : ∀ c : Closer, Holds s c.pc → (pc.busy → c.pc.busy = false) → Holds t c.pc) :
    Outline (Local t) (Apart t) (ls.set i ⟨x, pc'⟩) := by
  refine h.set hi (fun _ _ => Apart.symm) own (fun j c hji hj hc ha => ⟨⟨?_, ?_, ?_⟩, ⟨?_, ?_⟩⟩)
    (fun j c d hji hj hc hd _ _ hcd => ⟨hcd.busy, ?_⟩)
  · rw [hp]
    exact hc.alive
  · rw [hr]
    exact hc.zero
  · exact hholds c hc.holds ha.busy
  · intro hb
    rcases hbusy hb with hb | hothers
    · exact ha.busy hb
    · exact hothers j c hji hj
  · rw [hr]
    exact fun he h0 hact' => ha.active he h0 (hact hact')
  · rw [hr]
    exact hcd.active

/-- a step that changes at most the counter of frees -/
theorem inv_quiet (h : RaceInv M K p) (hi : p.locals[i]? = some ⟨x, pc⟩) (f : ℕ) (h1 : pc ≠ .dec) (h2 : pc' ≠ .dec)
    (h3 : ∀ n l, pc ≠ .del n l) (own : Local p.shared ⟨x, pc'⟩)
    (hbusy : pc'.busy → pc.busy ∨ ∀ j c, j ≠ i → p.locals[j]? = some c → c.pc.busy = false)
    (hact : pc'.active → pc.active) :
    RaceInv M K ⟨{ p.shared with freeCount := f }, p.locals.set i ⟨x, pc'⟩⟩ where
  safe := ⟨h.safe.pages, h.safe.nodes, h.safe.pas, h.safe.noBadRead⟩
  pages := h.pages
  nodes := h.nodes
  listed := h.listed
  freeing := h.freeing_set hi h3 _
  mappings := forall_mem_set h.mappings (h.mapping hi)
  counts := h.counts_set hi h1 h2
  outline := outline_step h.outline hi ⟨own.alive, own.zero, own.holds⟩ rfl rfl hbusy hact fun _ hc _ => hc

theorem decCount_eq (hx : x ∉ s.freedPas) :
    s.decCount x = { s with refCount := Function.update s.refCount x (atomicDec (s.refCount x)) } := if_neg hx

theorem decCount_self (hx : x ∉ s.freedPas) : (s.decCount x).refCount x = atomicDec (s.refCount x) := by
  simp [decCount_eq hx]

theorem decCount_ne {y : ℕ} (hx : x ∉ s.freedPas) (hy : y ≠ x) : (s.decCount x).refCount y = s.refCount y := by
  simp [decCount_eq hx, hy]

/-- the outline after an `atomic_dec`: while the count was not zero, no close of the mapping had read it as zero -/
theorem outline_dec (h : Outline (Local s) (Apart s) ls) (hi : ls[i]? = some ⟨x, .dec⟩) (hpos : s.refCount x ≠ 0)
    (hC : atomicDec (s.refCount x) = 0 → ∀ j c, j ≠ i → ls[j]? = some c → c.pas = x → c.pc ≠ .read) :
    Outline (Local (s.decCount x)) (Apart (s.decCount x)) (ls.set i ⟨x, .read⟩) := by
  have hx : x ∉ s.freedPas := (h.thread hi).alive (by simp)
  have hother : ∀ c, Local s c → c.pc.tearing → c.pas ≠ x := by
    intro c hc ht he
    have h0 := hc.zero ht
    rw [he] at h0
    exact hpos h0
  -- when the count becomes zero, no other close of the mapping is in the function
  have hidle : ∀ j c, j ≠ i → ls[j]? = some c → Local s c → c.pas = x → atomicDec (s.refCount x) = 0 →
      c.pc.active = false := by
    intro j c hji hj hc he h0
    have ht : c.pc.tearing = false := by
      by_contra ht
      exact hother c hc (by simpa using ht) he
    simp [ClosePc.active, hC h0 j c hji hj he, ht]
  have hown : Local (s.decCount x) ⟨x, .read⟩ := by
    rw [decCount_eq hx]
    exact ⟨fun _ => hx, by simp [ClosePc.tearing, ClosePc.walking], trivial⟩
  refine h.set hi (fun _ _ => Apart.symm) hown (fun j c hji hj hc ha => ⟨⟨?_, ?_, ?_⟩, ⟨?_, ?_⟩⟩)
    (fun j c d hji hj hc hd _ _ hcd => ⟨hcd.busy, ?_⟩)
  · rw [decCount_eq hx]
    exact hc.alive
  · intro ht
    rw [decCount_ne hx (hother c hc ht)]
    exact hc.zero ht
  · rw [decCount_eq hx]
    exact hc.holds
  · simp [ClosePc.busy]
  · intro he h0 _
    rw [decCount_self hx] at h0
    exact hidle j c hji hj hc he.symm h0
  · intro he h0 hact
    by_cases hcx : c.pas = x
    · rw [hcx, decCount_self hx] at h0
      simp [hidle j c hji hj hc hcx h0] at hact
    · rw [decCount_ne hx hcx] at h0
      exact hcd.active he h0 hact

theorem inv_dec (h : RaceInv M K p) (hi : p.locals[i]? = some ⟨x, .dec⟩)
    (hC : atomicDec (p.shared.refCount x) = 0 → ∀ j c, j ≠ i → p.locals[j]? = some c → c.pas = x → c.pc ≠ .read) :
    RaceInv M K ⟨p.shared.decCount x, p.locals.set i ⟨x, .read⟩⟩ := by
  have hx : x ∉ p.shared.freedPas := (h.outline.thread hi).alive (by simp)
  obtain ⟨hcount, hlt⟩ := h.counts x (h.mapping hi)
  have hpos := pending_pos (List.mem_of_getElem? hi)
  have hdec : atomicDec (p.shared.refCount x) = p.shared.refCount x - 1 := by
    simp only [atomicDec, wordSize] at *
    omega
  have hcounts : ∀ y, M y → (p.shared.decCount x).refCount y = K y + pending (p.locals.set i ⟨x, .read⟩) y ∧
      (p.shared.decCount x).refCount y < wordSize := by
    intro y hy
    have hset := pending_set (b := ⟨x, .read⟩) hi y
    by_cases hyx : y = x
    · subst hyx
      simp at hset
      rw [decCount_self hx]
      omega
    · have hxy : x ≠ y := Ne.symm hyx
      simp [hxy] at hset
      rw [decCount_ne hx hyx, hset]
      exact h.counts y hy
  have houtline := outline_dec h.outline hi (by omega) hC
  rw [decCount_eq hx] at hcounts houtline ⊢
  exact ⟨⟨h.safe.pages, h.safe.nodes, h.safe.pas, h.safe.noBadRead⟩, h.pages, h.nodes, h.listed,
    h.freeing_set hi (by simp) _, forall_mem_set h.mappings (h.mapping hi), hcounts, houtline⟩

theorem inv_read (h : RaceInv M K p) (hi : p.locals[i]? = some ⟨x, .read⟩) :
    RaceInv M K ⟨p.shared, p.locals.set i ⟨x, if p.shared.refCount x = 0 then .first else .done⟩⟩ := by
  have hx : x ∉ p.shared.freedPas := (h.outline.thread hi).alive (by simp)
  split_ifs with h0
  · exact inv_quiet h hi p.shared.freeCount (by simp) (by simp) (by simp) ⟨fun _ => hx, fun _ => h0, trivial⟩
      (by simp [ClosePc.busy]) (by simp [ClosePc.active])
  · exact inv_quiet h hi p.shared.freeCount (by simp) (by simp) (by simp)
      ⟨by simp, by simp [ClosePc.tearing, ClosePc.walking], trivial⟩ (by simp [ClosePc.busy])
      (by simp [ClosePc.active])

theorem inv_first (h : RaceInv M K p) (hi : p.locals[i]? = some ⟨x, .first⟩)
    (hC : p.shared.list ≠ [] → ∀ j c, j ≠ i → p.locals[j]? = some c → c.pc.walking = false) :
    RaceInv M K ⟨p.shared, p.locals.set i ⟨x, .advance (firstLink p.shared.list)⟩⟩ := by
  have hown := h.outline.thread hi
  refine inv_quiet h hi p.shared.freeCount (by simp) (by simp) (by simp)
    (hown.goto rfl rfl rfl rfl) (fun hb => Or.inr fun j c hji hj => ?_)
    (fun _ => ClosePc.active_of_tearing rfl)
  have hne : p.shared.list ≠ [] := by
    intro he
    simp [he, firstLink, ClosePc.busy] at hb
  by_contra hbusy
  have hw := ClosePc.walking_of_busy (by simpa using hbusy)
  rw [hC hne j c hji hj] at hw
  cases hw

/-- at the end of the list -/
theorem inv_advance_head (h : RaceInv M K p) (hi : p.locals[i]? = some ⟨x, .advance .head⟩) :
    RaceInv M K ⟨p.shared, p.locals.set i ⟨x, .kfreePas⟩⟩ := by
  have hown := h.outline.thread hi
  exact inv_quiet h hi p.shared.freeCount (by simp) (by simp) (by simp)
    (hown.goto rfl rfl rfl trivial) (by simp [ClosePc.busy])
    (fun _ => ClosePc.active_of_tearing rfl)

/-- at a node: it is the head of the list, and its page has not been freed -/
theorem inv_advance_node {n : RefPageNode} (h : RaceInv M K p) (hi : p.locals[i]? = some ⟨x, .advance (.node n)⟩) :
    n.addr ∉ p.shared.freedNodes ∧
      RaceInv M K ⟨p.shared, p.locals.set i ⟨x, .freePage n (nextLink n p.shared.list)⟩⟩ := by
  have hown := h.outline.thread hi
  obtain ⟨rest, hl⟩ := firstLink_eq_node.1 hown.holds.symm
  have hn : n ∈ p.shared.list := hl ▸ List.mem_cons_self
  have hpage : n.page ∉ p.shared.freedPages := by
    intro hp
    obtain ⟨c, hc, l, hcl⟩ := h.freeing n hn hp
    have ha := h.outline.other hi hc (fun he => by simp [he] at hcl)
    simpa [hcl, ClosePc.busy] using ha.busy rfl
  refine ⟨h.listed n hn, inv_quiet h hi p.shared.freeCount (by simp) (by simp) (by simp)
    (hown.goto rfl rfl rfl ⟨rest, hl, ?_, hpage⟩) (fun _ => Or.inl rfl)
    (fun _ => ClosePc.active_of_tearing rfl)⟩
  rw [hl, nextLink_head]

theorem inv_incFree {l : Link} (h : RaceInv M K p) (hi : p.locals[i]? = some ⟨x, .incFree l⟩) :
    RaceInv M K ⟨{ p.shared with freeCount := atomicInc p.shared.freeCount }, p.locals.set i ⟨x, .advance l⟩⟩ := by
  have hown := h.outline.thread hi
  exact inv_quiet h hi _ (by simp) (by simp) (by simp)
    (hown.goto rfl rfl rfl hown.holds)
    (fun hb => Or.inl (by cases l <;> simp_all [ClosePc.busy]))
    (fun _ => ClosePc.active_of_tearing rfl)

theorem inv_freePage {n : RefPageNode} {l : Link} (h : RaceInv M K p) (hi : p.locals[i]? = some ⟨x, .freePage n l⟩) :
    n.addr ∉ p.shared.freedNodes ∧
      RaceInv M K ⟨{ p.shared with freedPages := n.page :: p.shared.freedPages }, p.locals.set i ⟨x, .del n l⟩⟩ := by
  have hown := h.outline.thread hi
  obtain ⟨rest, hl, hlink, hpage⟩ := hown.holds
  have hn : n ∈ p.shared.list := hl ▸ List.mem_cons_self
  have hsafe : Safe { p.shared with freedPages := n.page :: p.shared.freedPages } :=
    ⟨List.nodup_cons.2 ⟨hpage, h.safe.pages⟩, h.safe.nodes, h.safe.pas, h.safe.noBadRead⟩
  refine ⟨h.listed n hn, ⟨hsafe, h.pages, h.nodes, h.listed, fun m hm hmp => ?_,
    forall_mem_set h.mappings (h.mapping hi), h.counts_set hi (by simp) (by simp), ?_⟩⟩
  · rcases List.mem_cons.1 hmp with he | hmp
    · have hmn : m = n := List.inj_on_of_nodup_map h.pages hm hn he
      exact ⟨_, mem_set_self hi, l, by rw [hmn]⟩
    · exact h.freeing_set hi (by simp) _ m hm hmp
  · exact outline_step h.outline hi (hown.goto rfl rfl rfl ⟨rest, hl, hlink⟩) rfl rfl
      (fun _ => Or.inl rfl) (fun _ => ClosePc.active_of_tearing rfl)
      fun c hc hb => holds_calm hc (hb rfl) id

theorem inv_del {n : RefPageNode} {l : Link} (h : RaceInv M K p) (hi : p.locals[i]? = some ⟨x, .del n l⟩) :
    n.addr ∉ p.shared.freedNodes ∧ n ∈ p.shared.list ∧
      RaceInv M K ⟨{ p.shared with list := p.shared.list.erase n }, p.locals.set i ⟨x, .kfreeNode n l⟩⟩ := by
  have hown := h.outline.thread hi
  obtain ⟨rest, hl, hlink⟩ := hown.holds
  have hn : n ∈ p.shared.list := hl ▸ List.mem_cons_self
  have herase : p.shared.list.erase n = rest := by rw [hl, List.erase_cons_head]
  have hsub : ∀ m ∈ rest, m ∈ p.shared.list := fun m hm => hl ▸ List.mem_cons_of_mem _ hm
  have hpages := h.pages
  have hnodes := h.nodes
  rw [hl, List.map_cons, List.nodup_cons] at hpages hnodes
  refine ⟨h.listed n hn, hn, ?_⟩
  rw [herase]
  refine ⟨⟨h.safe.pages, h.safe.nodes, h.safe.pas, h.safe.noBadRead⟩, hpages.2, hnodes.2,
    fun m hm => h.listed m (hsub m hm), fun m hm hmp => ?_, forall_mem_set h.mappings (h.mapping hi),
    h.counts_set hi (by simp) (by simp), ?_⟩
  · -- a second node whose page is freed would be held by another close
    obtain ⟨c, hc, l', hcl⟩ := h.freeing m (hsub m hm) hmp
    refine ⟨c, mem_set_of_ne hi hc ?_, l', hcl⟩
    intro he
    rw [he] at hcl
    cases hcl
    exact hpages.1 (List.mem_map_of_mem hm)
  · exact outline_step h.outline hi
      (hown.goto rfl rfl rfl ⟨hlink, h.listed n hn, hnodes.1⟩) rfl rfl
      (fun _ => Or.inl rfl) (fun _ => ClosePc.active_of_tearing rfl)
      fun c hc hb => holds_calm hc (hb rfl) fun he => by simp [he] at hl

theorem inv_kfreeNode {n : RefPageNode} {l : Link} (h : RaceInv M K p) (hi : p.locals[i]? = some ⟨x, .kfreeNode n l⟩) :
    RaceInv M K ⟨{ p.shared with freedNodes := n.addr :: p.shared.freedNodes }, p.locals.set i ⟨x, .incFree l⟩⟩ := by
  have hown := h.outline.thread hi
  obtain ⟨hlink, hfreed, haddr⟩ := hown.holds
  refine ⟨⟨h.safe.pages, List.nodup_cons.2 ⟨hfreed, h.safe.nodes⟩, h.safe.pas, h.safe.noBadRead⟩, h.pages, h.nodes,
    fun m hm hmem => ?_, h.freeing_set hi (by simp) _, forall_mem_set h.mappings (h.mapping hi),
    h.counts_set hi (by simp) (by simp), ?_⟩
  · rcases List.mem_cons.1 hmem with he | hmem
    · exact haddr (he ▸ List.mem_map_of_mem hm)
    · exact h.listed m hm hmem
  · exact outline_step h.outline hi (hown.goto rfl rfl rfl hlink) rfl rfl
      (fun _ => Or.inl rfl) (fun _ => ClosePc.active_of_tearing rfl)
      fun c hc hb => holds_calm hc (hb rfl) id

theorem inv_kfreePas (h : RaceInv M K p) (hi : p.locals[i]? = some ⟨x, .kfreePas⟩) :
    RaceInv M K ⟨{ p.shared with freedPas := x :: p.shared.freedPas }, p.locals.set i ⟨x, .done⟩⟩ := by
  have hown := h.outline.thread hi
  have hx : x ∉ p.shared.freedPas := hown.alive (by simp)
  have h0 : p.shared.refCount x = 0 := hown.zero rfl
  have hsafe : Safe { p.shared with freedPas := x :: p.shared.freedPas } :=
    ⟨h.safe.pages, h.safe.nodes, List.nodup_cons.2 ⟨hx, h.safe.pas⟩, h.safe.noBadRead⟩
  refine ⟨hsafe, h.pages, h.nodes, h.listed, h.freeing_set hi (by simp) _,
    forall_mem_set h.mappings (h.mapping hi), h.counts_set hi (by simp) (by simp), ?_⟩
  · refine h.outline.set hi (fun _ _ => Apart.symm) ⟨by simp, by simp [ClosePc.tearing, ClosePc.walking], trivial⟩
      (fun j c hji hj hc ha => ⟨⟨fun hd hmem => ?_, hc.zero, hc.holds⟩, ⟨by simp [ClosePc.busy], ?_⟩⟩)
      (fun j c d hji hj hc hd _ _ hcd => ⟨hcd.busy, hcd.active⟩)
    · rcases List.mem_cons.1 hmem with he | hmem
      · -- another close of the mapping has returned: it has decremented, and it is not in the function
        have hidle := ha.active he.symm h0 rfl
        have hdec : c.pc = .dec := by
          have hholds := hc.holds
          cases hpc : c.pc <;> simp_all [ClosePc.active, ClosePc.tearing, ClosePc.walking, Holds]
        have hpos : 0 < pending p.locals x := by
          refine pending_pos (List.mem_of_getElem? (i := j) ?_)
          rw [hj, ← he, ← hdec]
        have hcount := (h.counts x (h.mapping hi)).1
        omega
      · exact hc.alive hd hmem
    · simp [ClosePc.active, ClosePc.tearing, ClosePc.walking]

end Step

/-! ## Whole runs -/

section Runs

variable {M : ℕ → Prop} {K : ℕ → ℕ} {p q : Pool Teardown Closer} {i : ℕ × ℕ}

theorem raceInv_step (h : RaceInv M K p) (hC : NoOverlap p i q) (hs : Steps closeAct p i q) : RaceInv M K q := by
  obtain ⟨⟨x, pc⟩, t, b, hi, ha, rfl⟩ := steps_iff.1 hs
  have hown := h.outline.thread hi
  cases pc with
  | dec =>
    cases ha
    exact inv_dec h hi ((hC _ hi).1 rfl)
  | read =>
    simp only [closeAct, if_neg (hown.alive (by simp))] at ha
    cases ha
    exact inv_read h hi
  | first =>
    cases ha
    exact inv_first h hi ((hC _ hi).2 rfl)
  | advance l =>
    cases l with
    | head =>
      cases ha
      exact inv_advance_head h hi
    | node n =>
      obtain ⟨hn, hinv⟩ := inv_advance_node h hi
      simp only [closeAct, onNode, if_neg hn] at ha
      cases ha
      exact hinv
    | poison => exact absurd hown.holds.symm (firstLink_ne_poison _)
  | freePage n l =>
    obtain ⟨hn, hinv⟩ := inv_freePage h hi
    simp only [closeAct, onNode, if_neg hn] at ha
    cases ha
    exact hinv
  | del n l =>
    obtain ⟨hn, hmem, hinv⟩ := inv_del h hi
    simp only [closeAct, onNode, if_neg hn, if_pos hmem] at ha
    cases ha
    exact hinv
  | kfreeNode n l =>
    cases ha
    exact inv_kfreeNode h hi
  | incFree l =>
    cases ha
    exact inv_incFree h hi
  | kfreePas =>
    cases ha
    exact inv_kfreePas h hi
  | done => cases ha
  | dead => exact hown.holds.elim

/-- before its close, a VMA has been counted for its mapping -/
theorem pending_start {s : St} (h : Refs s) {vs : List VmArea} (hvs : ∀ v ∈ vs, v ∈ s.vmas) (x : ℕ) :
    pending (vs.map closerOf) x = liveIn vs x := by
  unfold pending liveIn
  rw [List.countP_map]
  refine List.countP_congr fun v hv => ?_
  obtain ⟨y, -, hvy, -⟩ := h.attached v (hvs v hv)
  simp [closerOf, hvy]

theorem raceInv_start {s : St} (h : Inv s) {vs : List VmArea} (hvs : vs.Subperm s.vmas) :
    RaceInv (fun x => x ∈ s.pas ∧ x ∉ s.orphans) (fun x => live s x - liveIn vs x) (startClosers s vs) := by
  have hmem : ∀ v ∈ vs, v ∈ s.vmas := fun v hv => hvs.subset hv
  have hdec : ∀ c ∈ vs.map closerOf, c.pc = .dec := by simp [closerOf]
  refine ⟨⟨List.nodup_nil, List.nodup_nil, List.nodup_nil, rfl⟩, h.ledger.pages ▸ h.ledger.pagesNodup,
    h.ledger.nodes ▸ h.ledger.nodesNodup, fun _ _ => List.not_mem_nil, fun _ _ hp => absurd hp List.not_mem_nil,
    fun c hc => ?_, fun x hx => ?_, ⟨fun c hc => ?_, fun j k c d _ hj _ => ?_⟩⟩
  · obtain ⟨v, hv, rfl⟩ := List.mem_map.1 hc
    obtain ⟨x, hx, hvx, ho⟩ := h.refs.attached v (hmem v hv)
    simpa [closerOf, hvx] using ⟨hx, ho⟩
  · have hle : liveIn vs x ≤ live s x := hvs.countP_le _
    have hcount := (h.refs.counts x hx.1 hx.2).1
    have hlt := h.refs.live_lt x
    simp only [startClosers]
    rw [pending_start h.refs hmem]
    omega
  · have hpc := hdec c hc
    exact ⟨fun _ => List.not_mem_nil, by simp [hpc, ClosePc.tearing, ClosePc.walking], by simp [hpc, Holds]⟩
  · have hpc := hdec c (List.mem_of_getElem? hj)
    exact ⟨by simp [hpc, ClosePc.busy], by simp [hpc, ClosePc.active, ClosePc.tearing, ClosePc.walking]⟩

end Runs

/-- **Concurrent teardown frees once** in every run without an overlap. -/
theorem frees_once {d : ℕ} {ops : List Op} {s : St} {vs : List VmArea} {l : List (ℕ × ℕ)} {p : Pool Teardown Closer}
    (hs : run (init d) ops = .ok s) (hvs : vs.Subperm s.vmas) (hr : Run (Steps closeAct) (startClosers s vs) l p)
    (hC : Along (Steps closeAct) NoOverlap (startClosers s vs) l) : Safe p.shared :=
  (Along.inv (fun _ _ _ hI hc hst => raceInv_step hI hc hst) hC hr (raceInv_start (run_inv hs) hvs)).safe

instance {p q : Pool Teardown Closer} {i : ℕ × ℕ} : Decidable (NoOverlap p i q) :=
  decidable_of_iff (∀ a ∈ p.locals[i.1]?,
    (a.pc = .dec → atomicDec (p.shared.refCount a.pas) = 0 →
      ∀ j c, j ≠ i.1 → p.locals[j]? = some c → c.pas = a.pas → c.pc ≠ .read) ∧
    (a.pc = .first → p.shared.list ≠ [] → ∀ j c, j ≠ i.1 → p.locals[j]? = some c → c.pc.walking = false)) Iff.rfl

/-- a mapping cut in two and a mapping of another process, with a page on the list -/
def threeVmas : List Op :=
  [.mmap 0 0 twoPages ⟨some 0, fun _ => allSucceed⟩, .split 0 1 8192, .mmap 2 1 twoPages ⟨some 1, fun _ => allSucceed⟩,
    .fault 2 4096 allSucceed]

/-- their closes, interleaved: the last close of the cut mapping reads the list head when the other process's close,
in its walk, has taken the page off the list -/
def interleavedCloses : List (ℕ × ℕ) := [1, 0, 1, 0, 2, 0, 2, 0, 0, 0, 2, 0, 2, 0, 2, 0, 0].map fun i => (i, 0)

/-- two processes close their mappings at once, one of them two VMAs of one mapping -/
theorem frees_once_interleaved :
    ∃ s p, run (init 1) threeVmas = .ok s ∧ Run (Steps closeAct) (startClosers s s.vmas) interleavedCloses p ∧
      p.shared.freedPages = [0] ∧ p.shared.freedPas = [1, 0] ∧ p.locals.all (fun c => c.pc = .done) ∧ Safe p.shared := by
  have hobs : (run (init 1) threeVmas).map (fun s =>
      (decide (Along (Steps closeAct) NoOverlap (startClosers s s.vmas) interleavedCloses),
        (interleavedCloses.foldlM (poolStep closeAct) (startClosers s s.vmas)).map
          fun p => (p.shared.freedPages, p.shared.freedPas, p.locals.all fun c => c.pc = .done))) =
      .ok (true, some ([0], [1, 0], true)) := by rfl
  obtain ⟨s, hs, ho⟩ := map_ok.1 hobs
  obtain ⟨hC, hrun⟩ := Prod.mk.inj ho
  obtain ⟨p, hp, hfreed⟩ := Option.map_eq_some_iff.1 hrun
  simp only [Prod.mk.injEq] at hfreed
  obtain ⟨h1, h2, h3⟩ := hfreed
  have hr := run_pool_iff.2 hp
  exact ⟨s, p, hs, hr, h1, h2, h3, frees_once hs (List.Subperm.refl _) hr (of_decide_eq_true hC)⟩

/-- every run of concurrent closes of live VMAs frees once -/
def FreesOnce (d : ℕ) (ops : List Op) : Prop :=
  ∀ s, run (init d) ops = .ok s → ∀ vs : List VmArea, vs.Subperm s.vmas → ∀ l p,
    Run (Steps closeAct) (startClosers s vs) l p → Safe p.shared

/-- two processes with a mapping each, and a page on the list -/
def twoProcesses : List Op :=
  [.mmap 0 0 twoPages ⟨some 0, fun _ => allSucceed⟩, .mmap 1 1 twoPages ⟨some 1, fun _ => allSucceed⟩,
    .fault 1 4096 allSucceed]

/-- one mapping, cut in two -/
def cutMapping : List Op := [.mmap 0 0 twoPages ⟨some 0, fun _ => allSucceed⟩, .split 0 1 8192]

/-- **Races.** Two processes close their mappings: both walk the one list, and its page is freed twice. Two closes
of one mapping decrement its count before either reads it: its `pa_state_struct` is freed twice. -/
theorem close_races : ¬ FreesOnce 1 twoProcesses ∧ ¬ FreesOnce 1 cutMapping := by
  constructor
  · intro h
    have hobs : (run (init 1) twoProcesses).map (fun s => ([(0, 0), (0, 0), (1, 0), (1, 0), (0, 0), (1, 0), (0, 0),
        (1, 0), (0, 0), (1, 0)].foldlM (poolStep closeAct) (startClosers s s.vmas)).map
          fun p => p.shared.freedPages) = .ok (some [0, 0]) := by rfl
    obtain ⟨s, hs, ho⟩ := map_ok.1 hobs
    obtain ⟨p, hp, hfreed⟩ := Option.map_eq_some_iff.1 ho
    have hsafe := (h s hs s.vmas (List.Subperm.refl _) _ p (run_pool_iff.2 hp)).pages
    rw [hfreed] at hsafe
    simp at hsafe
  · intro h
    have hobs : (run (init 1) cutMapping).map (fun s => ([(0, 0), (1, 0), (0, 0), (1, 0), (0, 0), (0, 0), (0, 0),
        (1, 0), (1, 0), (1, 0)].foldlM (poolStep closeAct) (startClosers s s.vmas)).map
          fun p => p.shared.freedPas) = .ok (some [0, 0]) := by rfl
    obtain ⟨s, hs, ho⟩ := map_ok.1 hobs
    obtain ⟨p, hp, hfreed⟩ := Option.map_eq_some_iff.1 ho
    have hsafe := (h s hs s.vmas (List.Subperm.refl _) _ p (run_pool_iff.2 hp)).pas
    rw [hfreed] at hsafe
    simp at hsafe

end Cse422.Paging
