/-
The module of `studios/studio12/kernel_memory.c`. `thread_fn` allocates pages for `nr_structs` structs, writes a
pattern into them and waits to be stopped; `kernel_memory_exit` stops the thread, checks the pattern and frees the
pages. The process that loads and unloads the module, the thread, and whoever writes the module's parameter take
turns in any order.

Addresses are those of a 32-bit kernel whose memory is mapped linearly. What a `Board` leaves open is the page size,
the offset of that mapping, which words it has, and what `page_to_pfn` makes of NULL. Where more pages are counted than
an `int` can, no block of that order exists, so the loop counters are natural numbers here.

Premises about the kernel:
- `alloc_pages` returns NULL or a block of the order asked for, all of whose words are mapped, and not at NULL;
- an access to a word that is not mapped is an oops, and so is `__free_pages(NULL, ..)`, which looks into the page. The
  kernel ends the party that has done it: a thread is gone as if it had exited, and a process in `kernel_memory_exit`
  gets no further. An access to a word that is mapped and is not the module's goes through;
- `kthread_stop` is called once, of a module that is loaded, and returns when the thread is gone. A thread that has died
  before the call has taken its `task_struct` along; `Unload` says nothing of such a call.

The `log` is what the module has done with memory, or has tried to do; no step looks at it.

- `addr_eq`: the addresses the loops go to, in a block;
- `addr_owned`: they are in the block, when the block has room for as many pages.
-/
import Cse422.Core.Lts
import Cse422.Core.Kthread
import Cse422.Core.Nest
import Cse422.Core.Words
import Cse422.KernelMemory.Order

namespace Cse422.KernelMemory

open Lts Kthread Words

/-! ## Memory -/

def arrSize : ℕ := 8

/-- `sizeof(datatype)`, the size of `arrSize` words -/
def structSize : ℕ := 32

structure Board where
  pageSize : ℕ
  /-- a page has room for a struct, and its size is an `unsigned long` -/
  holdsStruct : structSize ≤ pageSize ∧ pageSize < 2 ^ 32
  /-- `PAGE_OFFSET - PHYS_OFFSET` -/
  vaOffset : ℕ
  /-- `page_to_pfn(NULL)` -/
  nullPfn : ℕ
  /-- the addresses of the words that are mapped -/
  present : ℕ → Bool

variable {B : Board}

/-- `__va` -/
def Board.va (B : Board) (phys : ℕ) : ℕ := (phys + B.vaOffset) % 2 ^ 32

/-- `PFN_PHYS` -/
def Board.pfnPhys (B : Board) (pfn : ℕ) : ℕ := pfn * B.pageSize % 2 ^ 32

/-- what `alloc_pages` returns: `2 ^ order` pages from `pfn` on, which the kernel has mapped and not at NULL -/
structure Block (B : Board) where
  pfn : ℕ
  order : ℕ
  mapped : 0 < B.va (B.pfnPhys pfn) ∧ B.va (B.pfnPhys pfn) + 2 ^ order * B.pageSize ≤ 2 ^ 32
  present : ∀ a, B.va (B.pfnPhys pfn) ≤ a → a + 4 ≤ B.va (B.pfnPhys pfn) + 2 ^ order * B.pageSize → B.present a = true
  deriving DecidableEq

def Block.base (b : Block B) : ℕ := B.va (B.pfnPhys b.pfn)

/-- `page_to_pfn` -/
def pageToPfn : Option (Block B) → ℕ
  | some b => b.pfn
  | none => B.nullPfn

/-- the address of `this_struct` -/
def thisStruct (B : Board) (phys i j : ℕ) : ℕ :=
  let currPage := (phys + i * B.pageSize) % 2 ^ 32
  let currStruct := (currPage + j * structSize) % 2 ^ 32
  B.va currStruct

/-- the address of `this_struct->array[k]` -/
def addr (B : Board) (phys i j k : ℕ) : ℕ := thisStruct B phys i j + 4 * k

/-- the number for `array[k]`, in `unsigned int` -/
def number (nrStructsPerPage : Word) (i j k : ℕ) : Word :=
  BitVec.ofNat 32 i * nrStructsPerPage * BitVec.ofNat 32 arrSize + BitVec.ofNat 32 (j * arrSize) + BitVec.ofNat 32 k

/-! ## The state -/

/-- a call for pages, an access to a word, or a call of `__free_pages` -/
inductive Op (B : Board) where
  | alloc (b : Option (Block B))
  | write (a : ℕ)
  | read (a : ℕ)
  | free (pages : Option (Block B)) (order : ℕ)
  deriving DecidableEq

/-- the places of `kernel_memory_init` -/
inductive InitPc where
  | create
  | wake
  | loaded
  /-- returned the error of `kthread_create` -/
  | failed
  deriving DecidableEq, Repr

/-- the next statement of `thread_fn`, with `pages_phyAddr` -/
inductive ThreadPc where
  /-- `nr_structs_per_page = ...` -/
  | perPage
  /-- `nr_pages = ...` -/
  | divide
  /-- `if (nr_structs%nr_structs_per_page)` -/
  | remainder
  /-- `order = ...` -/
  | order
  /-- `pages = alloc_pages(...)` -/
  | alloc
  /-- `pages_phyAddr = ...` -/
  | phys
  | loops (phys : ℕ) (p : Nest.Place)
  /-- `while (!kthread_should_stop())` -/
  | test
  | sched
  deriving DecidableEq, Repr

/-- the places of `kernel_memory_exit`, with `pages_phyAddr` and `cleanData` -/
inductive ExitPc where
  /-- not called yet -/
  | live
  /-- in `kthread_stop`: the flag is set, the wake-up comes next -/
  | wake
  /-- in `kthread_stop`: waiting for the thread to exit -/
  | wait
  /-- `pages_phyAddr = ...` -/
  | phys
  | loops (phys : ℕ) (p : Nest.Place) (cleanData : Bool)
  | free (cleanData : Bool)
  /-- returned, after it has printed whether the pages were clean -/
  | done (cleanData : Bool)
  | oops
  deriving DecidableEq, Repr

structure St (B : Board) where
  nrStructs : Word
  nrStructsPerPage : Word
  nrPages : Word
  order : ℕ
  pages : Option (Block B)
  kthread : Option (TaskStruct ThreadPc)
  init : InitPc
  exit : ExitPc
  mem : Mem
  log : List (Op B)

/-- the module before it is loaded; the globals without a value in the source are zero -/
def start (nrStructs : Word) (mem : Mem) : St B := ⟨nrStructs, 0, 0, 0, none, none, .create, .live, mem, []⟩

inductive Ev (B : Board) where
  /-- a step of `kernel_memory_init`; `ok` is whether `kthread_create` succeeds -/
  | init (ok : Bool)
  /-- a step of the thread; `b` is what `alloc_pages` returns -/
  | thread (b : Option (Block B))
  | exit
  /-- a write of the module's parameter -/
  | param (nrStructs : Word)

/-! ## Steps -/

def initStep (s : St B) (ok : Bool) : Option (St B) :=
  match s.init with
  | .create =>
    if ok then some { s with kthread := some kthreadCreate, init := .wake } else some { s with init := .failed }
  | .wake => some { s with kthread := s.kthread.map TaskStruct.wakeUp, init := .loaded }
  | .loaded | .failed => none

/-- a statement of the loops of `thread_fn`; a struct at NULL is not written, and a write that faults ends the thread -/
def writeLoops (s : St B) (a : TaskStruct ThreadPc) (phys : ℕ) (p : Nest.Place) : St B :=
  match p.step s.nrPages.toNat s.nrStructsPerPage.toNat arrSize with
  | .over => { s with kthread := some { a with place := .fn .test } }
  | .move q => { s with kthread := some { a with place := .fn (.loops phys q) } }
  | .visit i j k q =>
    if thisStruct B phys i j = 0 then { s with kthread := some { a with place := .fn (.loops phys q) } }
    else if B.present (addr B phys i j k) then
      { s with mem := store s.mem (addr B phys i j k) (number s.nrStructsPerPage i j k),
               log := s.log ++ [.write (addr B phys i j k)],
               kthread := some { a with place := .fn (.loops phys q) } }
    else { s with log := s.log ++ [.write (addr B phys i j k)], kthread := some { a with place := .exited } }

/-- the next statement of `thread_fn`; a block is of the order asked for -/
def threadFn (s : St B) (a : TaskStruct ThreadPc) (b : Option (Block B)) : ThreadPc → Option (St B)
  | .perPage =>
    some { s with nrStructsPerPage := BitVec.ofNat 32 (B.pageSize / structSize),
                  kthread := some { a with place := .fn .divide } }
  | .divide =>
    some { s with nrPages := s.nrStructs / s.nrStructsPerPage, kthread := some { a with place := .fn .remainder } }
  | .remainder =>
    some { s with nrPages := if s.nrStructs % s.nrStructsPerPage ≠ 0 then s.nrPages + 1 else s.nrPages,
                  kthread := some { a with place := .fn .order } }
  | .order => some { s with order := myGetOrder s.nrPages, kthread := some { a with place := .fn .alloc } }
  | .alloc =>
    if ∀ c ∈ b, c.order = s.order then
      some { s with pages := b, log := s.log ++ [.alloc b], kthread := some { a with place := .fn .phys } }
    else none
  | .phys =>
    some { s with kthread := some { a with place := .fn (.loops (B.pfnPhys (pageToPfn s.pages)) (.outer 0)) } }
  | .loops phys p => some (writeLoops s a phys p)
  | .test => some { s with kthread := some { a with place := if a.shouldStop then .exited else .fn .sched } }
  | .sched => some { s with kthread := some (a.schedule .test) }

def threadStep (s : St B) (a : TaskStruct ThreadPc) (b : Option (Block B)) : Option (St B) :=
  match a.place with
  | .entry => (a.enter .perPage).map fun c => { s with kthread := some c }
  | .fn pc => threadFn s a b pc
  | .inSchedule pc => (a.resume pc).map fun c => { s with kthread := some c }
  | .exited => none

/-- a statement of the loops of `kernel_memory_exit`; a read may fault -/
def checkLoops (s : St B) (phys : ℕ) (p : Nest.Place) (cleanData : Bool) : St B :=
  match p.step s.nrPages.toNat s.nrStructsPerPage.toNat arrSize with
  | .over => { s with exit := .free cleanData }
  | .move q => { s with exit := .loops phys q cleanData }
  | .visit i j k q =>
    if B.present (addr B phys i j k) then
      { s with log := s.log ++ [.read (addr B phys i j k)],
               exit := .loops phys q
                 (cleanData && load s.mem (addr B phys i j k) = number s.nrStructsPerPage i j k) }
    else { s with log := s.log ++ [.read (addr B phys i j k)], exit := .oops }

/-- `kernel_memory_exit`, from the call of `kthread_stop` on -/
def exitStep (s : St B) : Option (St B) :=
  match s.exit with
  | .live =>
    if s.init = .loaded then some { s with kthread := s.kthread.map TaskStruct.setStop, exit := .wake } else none
  | .wake => some { s with kthread := s.kthread.map TaskStruct.wakeUp, exit := .wait }
  | .wait => if s.kthread.map TaskStruct.place = some .exited then some { s with exit := .phys } else none
  | .phys => some { s with exit := .loops (B.pfnPhys (pageToPfn s.pages)) (.outer 0) true }
  | .loops phys p cleanData => some (checkLoops s phys p cleanData)
  | .free cleanData =>
    some { s with log := s.log ++ [.free s.pages s.order], exit := if s.pages.isSome then .done cleanData else .oops }
  | .done _ | .oops => none

def step (s : St B) : Ev B → Option (St B)
  | .init ok => initStep s ok
  | .thread b =>
    match s.kthread with
    | none => none
    | some a => threadStep s a b
  | .exit => exitStep s
  | .param nrStructs => some { s with nrStructs := nrStructs }

/-! ## Addresses in a block -/

theorem addr_eq (b : Block B) {i j k : ℕ} (h : i * B.pageSize + j * structSize < 2 ^ b.order * B.pageSize) :
    addr B (B.pfnPhys b.pfn) i j k = b.base + (i * B.pageSize + j * structSize) + 4 * k := by
  have hmapped := b.mapped.2
  unfold addr thisStruct Block.base
  simp only [Board.va] at hmapped ⊢
  omega

/-- the word is in a block that has room for the pages -/
theorem addr_owned (b : Block B) {nrPages perPage i j k : ℕ} (hpages : nrPages ≤ 2 ^ b.order)
    (hper : perPage * structSize ≤ B.pageSize) (hi : i < nrPages) (hj : j < perPage) (hk : k < arrSize) :
    b.base ≤ addr B (B.pfnPhys b.pfn) i j k ∧
      addr B (B.pfnPhys b.pfn) i j k + 4 ≤ b.base + 2 ^ b.order * B.pageSize := by
  have hpage : (i + 1) * B.pageSize ≤ 2 ^ b.order * B.pageSize := Nat.mul_le_mul_right _ (by omega)
  have hstruct : (j + 1) * structSize ≤ B.pageSize := (Nat.mul_le_mul_right _ hj).trans hper
  rw [Nat.add_mul, Nat.one_mul] at hpage hstruct
  unfold structSize arrSize at *
  rw [addr_eq b (by unfold structSize; omega)]
  unfold structSize
  omega

end Cse422.KernelMemory
